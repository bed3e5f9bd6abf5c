import UnboundedDeque.BlockPoolMachine

/-!
# Invariants of the block pool

Between its calls a thread's head node describes the list of its blocks. A thread
that is about to exchange the global pool knows that, unless the pool has changed
since it loaded it, what it has read of it is still so.
-/
namespace UnboundedDeque.BlockPool
open StepMachine

variable {τ : Type*} [DecidableEq τ] {s t : State τ} {tid u : τ} {l : List ℕ} {a b x : ℕ}

/-- The node that `nth` points to in a list: the one after the `GROUP_SIZE` lowest. -/
def nthOf (l : List ℕ) : ℕ := l.reverse[groupSize]?.getD 0

/-- A head node describes a list of blocks. -/
structure HeadNode.Describes (hn : HeadNode) (next : ℕ → ℕ) (l : List ℕ) : Prop where
  linked : Linked next hn.top l
  nth : hn.nth = nthOf l
  count : hn.count = l.length

/-- What a thread knows of a value of the global pool. -/
structure Seen (s : State τ) (oldp : CountedPtr) (stamp : ℕ) : Prop where
  le : stamp ≤ s.swaps
  sn : oldp.sn = UInt32.ofNat stamp
  current : stamp = s.swaps → oldp = s.globalPool

/-- What holds of a thread at a point. -/
def Facts (s : State τ) (tid : τ) : Point → Prop
  | .idle => (s.headNodes tid).Describes s.next (s.lists tid) ∧ (s.lists tid).length < groupSize * 2
  | .allocLoad => s.headNodes tid = ⟨0, 0, 0⟩ ∧ s.lists tid = []
  | .allocGroup oldp stamp =>
    (s.headNodes tid = ⟨0, 0, 0⟩ ∧ s.lists tid = []) ∧ oldp.ptr ≠ 0 ∧ Seen s oldp stamp
  | .allocCas oldp group stamp =>
    (s.headNodes tid = ⟨0, 0, 0⟩ ∧ s.lists tid = []) ∧ oldp.ptr ≠ 0 ∧ Seen s oldp stamp ∧
      (stamp = s.swaps → group = s.nextGroup oldp.ptr)
  | .allocTake b =>
    s.headNodes tid = ⟨0, 0, 0⟩ ∧ (s.lists tid).length = groupSize ∧ Linked s.next b (s.lists tid)
  | .freeLoad ng =>
    (s.headNodes tid).Describes s.next (s.lists tid) ∧ (s.lists tid).length = groupSize * 2 ∧
      ng = ((s.lists tid).drop groupSize).headD 0
  | .freeStore ng oldp stamp =>
    ((s.headNodes tid).Describes s.next (s.lists tid) ∧ (s.lists tid).length = groupSize * 2 ∧
      ng = ((s.lists tid).drop groupSize).headD 0) ∧ Seen s oldp stamp
  | .freeCas ng oldp stamp =>
    ((s.headNodes tid).Describes s.next (s.lists tid) ∧ (s.lists tid).length = groupSize * 2 ∧
      ng = ((s.lists tid).drop groupSize).headD 0) ∧ Seen s oldp stamp ∧ s.nextGroup ng = oldp.ptr
  | .freeCut =>
    (∃ q, Path s.next (s.headNodes tid).top (s.lists tid) q) ∧
      (s.headNodes tid).nth = ((s.lists tid).getLast?).getD 0 ∧
      (s.headNodes tid).count = groupSize * 2 ∧ (s.lists tid).length = groupSize

/-- The global pool and the whereabouts of the blocks. -/
structure Sound (s : State τ) : Prop where
  sn : s.globalPool.sn = UInt32.ofNat s.swaps
  pool : Linked s.nextGroup s.globalPool.ptr (s.groups.map (·.headD 0))
  group : ∀ g ∈ s.groups, g.length = groupSize ∧ Linked s.next (g.headD 0) g
  pooled : ∀ a, a ∈ s.groups.flatten ↔ s.place a = .pooled
  listed : ∀ tid a, a ∈ s.lists tid ↔ s.place a = .listed tid
  nodupGroups : s.groups.flatten.Nodup
  nodup : ∀ tid, (s.lists tid).Nodup
  null : s.place 0 = .unused

structure Inv (s : State τ) : Prop where
  sound : Sound s
  facts : ∀ tid, Facts s tid (s.points tid)

omit [DecidableEq τ] in
theorem inv_init (h : Init s) : Inv s := by
  constructor
  · constructor
    · rw [h.globalPool, h.swaps]; rfl
    · rw [h.globalPool, h.groups]; rfl
    · simp [h.groups]
    · simp [h.groups, h.place]
    · simp [h.lists, h.place]
    · simp [h.groups]
    · simp [h.lists]
    · exact h.place 0
  · intro tid
    rw [h.points, Facts, h.headNodes, h.lists]
    exact ⟨⟨rfl, rfl, rfl⟩, by decide⟩

/-! ## Lists of blocks -/

theorem nthOf_cons (b : ℕ) (l : List ℕ) :
    nthOf (b :: l) = if l.length = groupSize then b else nthOf l := by
  unfold nthOf
  rw [List.reverse_cons, List.getElem?_append, List.length_reverse]
  split_ifs with hlt heq heq
  · omega
  · rfl
  · rw [heq, Nat.sub_self]; rfl
  · rw [List.getElem?_eq_none (by simp; omega), List.getElem?_eq_none (by simp; omega)]

theorem nthOf_mem (h : nthOf l ≠ 0) : nthOf l ∈ l := by
  unfold nthOf at h ⊢
  cases he : l.reverse[groupSize]? with
  | none => simp [he] at h
  | some x => exact List.mem_reverse.mp (List.mem_of_getElem? he)

theorem nthOf_of_length_le (h : l.length ≤ groupSize) : nthOf l = 0 := by
  unfold nthOf
  rw [List.getElem?_eq_none (by rwa [List.length_reverse])]
  rfl

/-- The first block of the group to publish is one of the thread's own. -/
theorem group_mem (h : l.length = groupSize * 2) : (l.drop groupSize).headD 0 ∈ l := by
  cases hd : l.drop groupSize with
  | nil =>
    have hlen := congrArg List.length hd
    rw [List.length_drop, h] at hlen
    cases hlen
  | cons x t => exact List.mem_of_mem_drop (hd ▸ List.mem_cons_self)

/-- Removal of the top block. -/
theorem HeadNode.Describes.pop {hn : HeadNode} {next : ℕ → ℕ} (h : hn.Describes next (b :: l))
    (hn' : (b :: l).Nodup) :
    HeadNode.Describes ⟨next b, if b = hn.nth then 0 else hn.nth, hn.count - 1⟩ next l := by
  obtain ⟨hbl, -⟩ := List.nodup_cons.mp hn'
  refine ⟨h.linked.2.2, ?_, by rw [h.count]; rfl⟩
  rw [h.nth, nthOf_cons]
  by_cases hl : l.length = groupSize
  · rw [if_pos hl, if_pos rfl, nthOf_of_length_le hl.le]
  · rw [if_neg hl]
    split_ifs with he
    · by_contra hne
      exact hbl (he ▸ nthOf_mem (Ne.symm hne))
    · rfl

/-- Addition of a block on top. -/
theorem HeadNode.Describes.push {hn : HeadNode} {next : ℕ → ℕ} (h : hn.Describes next l)
    (hb : b ∉ l) (hb0 : b ≠ 0) :
    HeadNode.Describes ⟨b, if hn.count + 1 = groupSize + 1 then b else hn.nth, hn.count + 1⟩
      (Function.update next b hn.top) (b :: l) := by
  refine ⟨⟨rfl, hb0, ?_⟩, ?_, by rw [h.count]; rfl⟩
  · rw [Function.update_self]
    exact h.linked.congr fun y hy => Function.update_of_ne (ne_of_mem_of_not_mem hy hb) _ _
  · rw [h.nth, h.count, nthOf_cons]
    simp only [Nat.add_right_cancel_iff]

theorem HeadNode.Describes.congr {hn : HeadNode} {next next' : ℕ → ℕ} (h : hn.Describes next l)
    (hl : ∀ a ∈ l, next' a = next a) : hn.Describes next' l :=
  ⟨h.linked.congr hl, h.nth, h.count⟩

/-! ## The threads that do not move -/

/-- A step leaves a thread and its blocks alone, and the global pool too unless it
counts the change. -/
structure Spares (s t : State τ) (u : τ) : Prop where
  headNodes : t.headNodes u = s.headNodes u
  lists : t.lists u = s.lists u
  next : ∀ a ∈ s.lists u, t.next a = s.next a
  nextGroup : ∀ a ∈ s.lists u, t.nextGroup a = s.nextGroup a
  pool : (t.swaps = s.swaps ∧ t.globalPool = s.globalPool ∧
      ∀ a, s.place a = .pooled → t.nextGroup a = s.nextGroup a) ∨ t.swaps = s.swaps + 1

omit [DecidableEq τ] in
theorem Seen.later {oldp : CountedPtr} {stamp : ℕ} (h : Seen s oldp stamp) (hs : Spares s t u) :
    Seen t oldp stamp := by
  rcases hs.pool with ⟨hsw, hp, -⟩ | hsw
  · exact ⟨by rw [hsw]; exact h.le, h.sn, fun he => by rw [hp]; exact h.current (he.trans hsw)⟩
  · have hle := h.le
    exact ⟨by omega, h.sn, fun he => by omega⟩

omit [DecidableEq τ] in
theorem Sound.place_global (h : Sound s) (hp : s.globalPool.ptr ≠ 0) :
    ∃ g, s.groups.head? = some g ∧ g.headD 0 = s.globalPool.ptr ∧
      s.place s.globalPool.ptr = .pooled := by
  obtain ⟨l, hl, -⟩ := h.pool.exists_cons hp
  obtain ⟨g, gs, hg, hhead, -⟩ := List.map_eq_cons_iff.mp hl
  refine ⟨g, by rw [hg]; rfl, hhead, (h.pooled _).mp ?_⟩
  have hlen := (h.group g (by rw [hg]; exact .head gs)).1
  cases g with
  | nil => cases hlen
  | cons y g =>
    rw [hg, ← hhead]
    simp

omit [DecidableEq τ] in
theorem Facts.later {pt : Point} (hf : Facts s u pt) (h : Sound s) (hs : Spares s t u) :
    Facts t u pt := by
  have hdesc (hd : (s.headNodes u).Describes s.next (s.lists u)) :
      (t.headNodes u).Describes t.next (t.lists u) := by
    rw [hs.headNodes, hs.lists]
    exact hd.congr hs.next
  cases pt with
  | idle => exact ⟨hdesc hf.1, by rw [hs.lists]; exact hf.2⟩
  | allocLoad => rwa [Facts, hs.headNodes, hs.lists]
  | allocGroup oldp stamp =>
    rw [Facts, hs.headNodes, hs.lists]
    exact ⟨hf.1, hf.2.1, hf.2.2.later hs⟩
  | allocCas oldp group stamp =>
    obtain ⟨hempty, hne, hseen, hgroup⟩ := hf
    rw [Facts, hs.headNodes, hs.lists]
    refine ⟨hempty, hne, hseen.later hs, fun he => ?_⟩
    rcases hs.pool with ⟨hsw, -, hn⟩ | hsw
    · rw [hsw] at he
      have hcur := hseen.current he
      obtain ⟨g, -, -, hplace⟩ := h.place_global (by rw [← hcur]; exact hne)
      rw [hgroup he, hn _ (by rw [hcur]; exact hplace)]
    · have := hseen.le
      omega
  | allocTake b =>
    rw [Facts, hs.headNodes, hs.lists]
    exact ⟨hf.1, hf.2.1, hf.2.2.congr hs.next⟩
  | freeLoad ng =>
    rw [Facts, hs.lists]
    exact ⟨hs.lists ▸ hdesc hf.1, hf.2⟩
  | freeStore ng oldp stamp =>
    rw [Facts, hs.lists]
    exact ⟨⟨hs.lists ▸ hdesc hf.1.1, hf.1.2⟩, hf.2.later hs⟩
  | freeCas ng oldp stamp =>
    obtain ⟨⟨hd, hlen, hng⟩, hseen, hgroup⟩ := hf
    rw [Facts, hs.lists]
    refine ⟨⟨hs.lists ▸ hdesc hd, hlen, hng⟩, hseen.later hs, ?_⟩
    rw [hs.nextGroup, hgroup]
    rw [hng]
    exact group_mem hlen
  | freeCut =>
    obtain ⟨⟨q, hq⟩, hnth, hcount, hlen⟩ := hf
    rw [Facts, hs.headNodes, hs.lists]
    exact ⟨⟨q, hq.congr hs.next⟩, hnth, hcount, hlen⟩

/-- A step of one thread keeps the invariant if it keeps the pool sound, the facts
of the thread and the blocks of the others. -/
theorem Inv.step (h : Inv s) (hs : Sound t) (hf : Facts t tid (t.points tid))
    (ho : ∀ u ≠ tid, Spares s t u) (hp : ∀ u ≠ tid, t.points u = s.points u) : Inv t where
  sound := hs
  facts u := by
    by_cases hu : u = tid
    · rwa [hu]
    · rw [hp u hu]
      exact (h.facts u).later h.sound (ho u hu)

/-! ## Steps without an effect on blocks -/

theorem sound_goto (h : Sound s) (pt : Point) : Sound (s.goto tid pt) :=
  ⟨h.sn, h.pool, h.group, h.pooled, h.listed, h.nodupGroups, h.nodup, h.null⟩

theorem spares_goto (pt : Point) : Spares s (s.goto tid pt) u :=
  ⟨rfl, rfl, fun _ _ => rfl, fun _ _ => rfl, .inl ⟨rfl, rfl, fun _ _ => rfl⟩⟩

theorem points_goto (pt : Point) : (s.goto tid pt).points tid = pt := Function.update_self _ _ _

theorem points_goto_of_ne (pt : Point) (hu : u ≠ tid) : (s.goto tid pt).points u = s.points u :=
  Function.update_of_ne hu _ _

theorem inv_goto {pt : Point} (h : Inv s) (hf : Facts s tid pt) : Inv (s.goto tid pt) := by
  apply h.step (sound_goto h.sound pt)
  · rw [points_goto]
    exact hf.later h.sound (spares_goto pt)
  · exact fun u _ => spares_goto pt
  · exact fun u hu => points_goto_of_ne pt hu

/-! ## Removal from and addition to a thread's own list -/

/-- The pool stays sound when the first block of a list is handed out. -/
theorem Sound.remove (h : Sound s) (hl : s.lists tid = b :: l) (hnext : t.next = s.next)
    (hgroup : t.nextGroup = s.nextGroup) (hpool : t.globalPool = s.globalPool)
    (hgroups : t.groups = s.groups) (hswaps : t.swaps = s.swaps)
    (hplaces : t.place = Function.update s.place b .held)
    (hlists : t.lists = Function.update s.lists tid l) : Sound t := by
  have hplace : s.place b = .listed tid := (h.listed _ _).mp (hl ▸ List.mem_cons_self)
  have hnodup := h.nodup tid
  rw [hl, List.nodup_cons] at hnodup
  refine ⟨by rw [hpool, hswaps]; exact h.sn, by rw [hpool, hgroup, hgroups]; exact h.pool,
    by rw [hgroups, hnext]; exact h.group, fun a => ?_, fun u a => ?_,
    by rw [hgroups]; exact h.nodupGroups, fun u => ?_, ?_⟩
  · rw [hgroups, hplaces, Function.update_apply]
    split_ifs with ha
    · simp [h.pooled, ha, hplace]
    · exact h.pooled a
  · rw [hlists, hplaces, Function.update_apply, Function.update_apply]
    by_cases hu : u = tid
    · subst hu
      rw [if_pos rfl]
      split_ifs with ha
      · simp [ha, hnodup.1]
      · rw [← h.listed, hl, List.mem_cons, or_iff_right ha]
    · rw [if_neg hu, h.listed]
      split_ifs with ha
      · simp [ha, hplace, Ne.symm hu]
      · rfl
  · rw [hlists, Function.update_apply]
    split_ifs with hu
    · exact hnodup.2
    · exact h.nodup u
  · have hne : (0 : ℕ) ≠ b := by
      intro h0
      rw [← h0, h.null] at hplace
      cases hplace
    rw [hplaces, Function.update_of_ne hne]
    exact h.null

theorem sound_takeTop (h : Sound s) (hl : s.lists tid = (s.headNodes tid).top :: l) :
    Sound (s.takeTop tid) :=
  h.remove hl rfl rfl rfl rfl rfl rfl (by rw [State.takeTop, hl]; rfl)

theorem Spares.takeTop (h : Spares s t u) (hu : u ≠ tid) : Spares s (t.takeTop tid) u := by
  refine ⟨?_, ?_, h.next, h.nextGroup, h.pool⟩
  · exact (Function.update_of_ne hu _ _).trans h.headNodes
  · exact (Function.update_of_ne hu _ _).trans h.lists

omit [DecidableEq τ] in
theorem spares_refl : Spares s s u :=
  ⟨rfl, rfl, fun _ _ => rfl, fun _ _ => rfl, .inl ⟨rfl, rfl, fun _ _ => rfl⟩⟩

theorem inv_takeTop (h : Inv s) (hpt : s.points tid = .idle) (ht : (s.headNodes tid).top ≠ 0) :
    Inv (s.takeTop tid) := by
  have hf := h.facts tid
  rw [hpt] at hf
  obtain ⟨hd, hlen⟩ := hf
  obtain ⟨l, hl, -⟩ := hd.linked.exists_cons ht
  apply h.step (sound_takeTop h.sound hl)
  · rw [State.takeTop_points, Function.update_self, Facts, State.takeTop_headNodes,
      State.takeTop_lists, Function.update_self, Function.update_self, hl]
    rw [hl] at hd hlen
    have hn := h.sound.nodup tid
    rw [hl] at hn
    exact ⟨hd.pop hn, Nat.lt_of_succ_lt hlen⟩
  · exact fun u hu => spares_refl.takeTop hu
  · exact fun u hu => Function.update_of_ne hu _ _

end UnboundedDeque.BlockPool
