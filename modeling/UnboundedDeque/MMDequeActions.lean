import UnboundedDeque.MMDequeStability

/-!
# The steps on the memory

What each step does to the shape of the memory, and that it only does what other threads
expect.
-/
namespace UnboundedDeque.MMDeque
open HazardTracker

variable {T : Type*} {n : ℕ} {m m' : Memory T n} {l l' : List Node} {tid q : Fin n} {a : Anchor}
  {S R : Side} {x y node : Node} {p : Option Node} {c : Choice T} {slot : ℕ} {t : T} {s : Status}

theorem Life.Past.ne_free {k : Life n} (h : k.Past) : k ≠ .free := by
  rintro rfl
  exact h

theorem Life.Past.ne_owned {k : Life n} (h : k.Past) : k ≠ .owned tid := by
  rintro rfl
  exact h

theorem Memory.Shape.past (hm : m.Shape l) (hx : x ∈ l) : (m.life x).Past := by
  rw [(hm.queued x).mp hx]
  trivial

/-- A node in the deque that a slot names is held. -/
theorem Memory.Shape.held (hm : m.Shape l) (hx : x ∈ l) (hs : slot < 3)
    (hslot : m.haz.slots (index 3 tid slot) = some x) : m.Held tid slot x where
  guarded := by
    refine guarded_of_not_retired (index_lt hs tid rfl) hslot fun u hu => ?_
    have hq := (hm.queued x).mp hx
    rw [(hm.retired u x).mp hu] at hq
    cases hq
  past := hm.past hx

/-- A step that leaves the anchor and the deque's nodes alone. -/
theorem Later.quiet (hslots : ∀ u i, u ≠ tid → i < 3 →
      m'.haz.slots (index 3 u i) = m.haz.slots (index 3 u i))
    (hheld : ∀ u i x, m'.haz.slots (index 3 u i) = some x → m.Held u i x → m'.Held u i x)
    (hanchor : m'.anchor = m.anchor)
    (hlink : ∀ S x, (m.life x).Past → m'.link S x = m.link S x)
    (howned : ∀ u x, u ≠ tid → m.life x = .owned u →
      m'.life x = .owned u ∧ m'.data x = m.data x ∧ ∀ S, m'.link S x = m.link S x)
    (hpopped : ∀ u x, u ≠ tid → m.life x = .popped u →
      m'.life x = .popped u ∧ m'.data x = m.data x) : Later tid m l m' l where
  slots := hslots
  held := hheld
  gone _ _ hx := hx
  within _ _ _ _ _ _ _ _ _ hi := hi
  status S x _ hst hmost := by
    rw [hanchor] at hst hmost
    exact ⟨hst, hmost⟩
  link S x hx := .inl (hlink S x hx)
  settled _ _ _ _ := .inl hanchor
  owned := howned
  popped := hpopped

theorem Later.refl (tid : Fin n) (m : Memory T n) (l : List Node) : Later tid m l m l :=
  .quiet (fun _ _ _ _ => rfl) (fun _ _ _ _ h => h) rfl (fun _ _ _ => rfl)
    (fun _ _ _ h => ⟨h, rfl, fun _ => rfl⟩) fun _ _ _ h => ⟨h, rfl⟩

section Reserve

theorem Memory.Shape.reserve (hm : m.Shape l) : (m.reserve p slot tid).Shape l where
  rep := ⟨hm.rep.nodup, hm.rep.ends, hm.rep.pushed, hm.rep.linked⟩
  queued := hm.queued
  retired := hm.retired
  retired_nodup := hm.retired_nodup
  range := hm.range

theorem later_reserve (hs : slot < 3) : Later tid m l (m.reserve p slot tid) l := by
  refine .quiet ?_ ?_ rfl (fun _ _ _ => rfl) (fun _ _ _ h => ⟨h, rfl, fun _ => rfl⟩)
    fun _ _ _ h => ⟨h, rfl⟩
  · intro u i hu hi
    refine Function.update_of_ne ?_ _ _
    intro he
    exact hu (index_injective hi hs he).1
  · intro u i x hx hh
    exact ⟨⟨hh.guarded.bound, hx, fun v => (hh.guarded.spares v).congr rfl rfl⟩, hh.past⟩

theorem slots_reserve : (m.reserve p slot tid).haz.slots (index 3 tid slot) = p :=
  Function.update_self _ _ _

theorem slots_reserve_of_ne {i : ℕ} (hi : i < 3) (hs : slot < 3) (hne : i ≠ slot) :
    (m.reserve p slot tid).haz.slots (index 3 tid i) = m.haz.slots (index 3 tid i) := by
  refine Function.update_of_ne ?_ _ _
  intro he
  exact hne (index_injective hi hs he).2

end Reserve

section Private

theorem Memory.Shape.alloc (hm : m.Shape l) (hf : m.life c.node = .free) :
    (m.alloc tid c).Shape l where
  rep := by
    have hne {x : Node} (hx : x ∈ l) : x ≠ c.node := by
      rintro rfl
      exact (hm.past hx).ne_free hf
    refine ⟨hm.rep.nodup, hm.rep.ends, hm.rep.pushed, fun S x y hn => ?_⟩
    have hlink : (m.alloc tid c).link S x = m.link S x :=
      Function.update_of_ne (hne hn.mem_source) _ _
    rw [hlink]
    exact hm.rep.linked S x y hn
  queued x := by
    by_cases hx : x = c.node
    · subst hx
      simp [hm.queued, hf, Memory.alloc]
    · simp [hm.queued, hx, Memory.alloc]
  retired u x := by
    by_cases hx : x = c.node
    · subst hx
      simp [hm.retired, hf, Memory.alloc]
    · simp [hm.retired, hx, Memory.alloc]
  retired_nodup := hm.retired_nodup
  range := hm.range

theorem later_alloc (hf : m.life c.node = .free) : Later tid m l (m.alloc tid c) l := by
  have hne {x : Node} (hx : m.life x ≠ .free) : x ≠ c.node := by
    rintro rfl
    exact hx hf
  have hlife {x : Node} (hx : m.life x ≠ .free) : (m.alloc tid c).life x = m.life x :=
    Function.update_of_ne (hne hx) _ _
  have hlink {x : Node} (hx : m.life x ≠ .free) (S : Side) :
      (m.alloc tid c).link S x = m.link S x := Function.update_of_ne (hne hx) _ _
  have hdata {x : Node} (hx : m.life x ≠ .free) : (m.alloc tid c).data x = m.data x :=
    Function.update_of_ne (hne hx) _ _
  refine .quiet (fun _ _ _ _ => rfl) ?_ rfl (fun S x hx => hlink hx.ne_free S) ?_ ?_
  · intro u i x _ hh
    exact ⟨⟨hh.guarded.bound, hh.guarded.holds, hh.guarded.spares⟩,
      by rw [hlife hh.past.ne_free]; exact hh.past⟩
  · intro u x _ hx
    have hfree : m.life x ≠ .free := by simp [hx]
    exact ⟨(hlife hfree).trans hx, hdata hfree, hlink hfree⟩
  · intro u x _ hx
    have hfree : m.life x ≠ .free := by simp [hx]
    exact ⟨(hlife hfree).trans hx, hdata hfree⟩

theorem Memory.Shape.store (hm : m.Shape l) : (m.store node t).Shape l where
  rep := ⟨hm.rep.nodup, hm.rep.ends, hm.rep.pushed, hm.rep.linked⟩
  queued := hm.queued
  retired := hm.retired
  retired_nodup := hm.retired_nodup
  range := hm.range

theorem later_store (hf : m.life node = .owned tid) : Later tid m l (m.store node t) l := by
  refine .quiet (fun _ _ _ _ => rfl) (fun _ _ _ _ h => ⟨h.guarded, h.past⟩) rfl
    (fun _ _ _ => rfl) ?_ ?_
  · intro u x hu hx
    have hne : x ≠ node := by
      rintro rfl
      exact hu (Life.owned.inj (hx.symm.trans hf))
    exact ⟨hx, Function.update_of_ne hne _ _, fun _ => rfl⟩
  · intro u x _ hx
    have hne : x ≠ node := by
      rintro rfl
      rw [hf] at hx
      cases hx
    exact ⟨hx, Function.update_of_ne hne _ _⟩

/-- A link of a node before it is in the deque. -/
theorem setLink_of_ne {z : Link} (hne : x ≠ node) :
    (m.setLink R node z).link S x = m.link S x := by
  by_cases hS : S = R
  · subst hS
    change Function.update m.link S _ S x = _
    rw [Function.update_self, Function.update_of_ne hne]
  · change Function.update m.link R _ S x = _
    rw [Function.update_of_ne hS]

theorem setLink_self {z : Link} : (m.setLink R node z).link R node = z := by
  change Function.update m.link R _ R node = _
  rw [Function.update_self, Function.update_self]

theorem Memory.Shape.init (hm : m.Shape l) (hf : m.life node = .owned tid) {z : Link} :
    (m.setLink R node z).Shape l where
  rep := by
    refine ⟨hm.rep.nodup, hm.rep.ends, hm.rep.pushed, fun S x y hn => ?_⟩
    have hne : x ≠ node := by
      rintro rfl
      exact (hm.past hn.mem_source).ne_owned hf
    rw [setLink_of_ne hne]
    exact hm.rep.linked S x y hn
  queued := hm.queued
  retired := hm.retired
  retired_nodup := hm.retired_nodup
  range := hm.range

theorem later_init (hf : m.life node = .owned tid) {z : Link} :
    Later tid m l (m.setLink R node z) l := by
  refine .quiet (fun _ _ _ _ => rfl) (fun _ _ _ _ h => ⟨h.guarded, h.past⟩) rfl ?_ ?_
    fun _ _ _ hx => ⟨hx, rfl⟩
  · intro S x hx
    refine setLink_of_ne ?_
    rintro rfl
    exact hx.ne_owned hf
  · intro u x hu hx
    have hne : x ≠ node := by
      rintro rfl
      exact hu (Life.owned.inj (hx.symm.trans hf))
    exact ⟨hx, rfl, fun S => setLink_of_ne hne⟩

end Private

section Retire

theorem Memory.Shape.retire (hm : m.Shape l) (hx : m.life x = .popped tid) :
    (m.retire x tid).Shape l where
  rep := ⟨hm.rep.nodup, hm.rep.ends, hm.rep.pushed, hm.rep.linked⟩
  queued y := by
    by_cases hy : y = x
    · subst hy
      simp [hm.queued, hx, Memory.retire]
    · simp [hm.queued, hy, Memory.retire]
  retired u y := by
    change y ∈ (m.haz.retire x tid).retired u ↔ Function.update m.life x (.retired tid) y = _
    rw [retired_retire]
    by_cases hu : u = tid <;> by_cases hy : y = x
    · subst hu
      subst hy
      simp
    · subst hu
      simp [hy, hm.retired]
    · subst hy
      simp [hu, hm.retired, hx, Ne.symm hu]
    · simp [hu, hy, hm.retired]
  retired_nodup u := by
    change ((m.haz.retire x tid).retired u).Nodup
    rw [retired_retire]
    by_cases hu : u = tid
    · subst hu
      have hnot : x ∉ m.haz.retired u := by simp [hm.retired, hx]
      rw [Function.update_self, ← List.concat_eq_append]
      exact (List.nodup_concat _ _).mpr ⟨hnot, hm.retired_nodup u⟩
    · rw [Function.update_of_ne hu]
      exact hm.retired_nodup u
  range := inRange_retire hm.range

theorem later_retire (hm : m.Shape l) (hx : m.life x = .popped tid) :
    Later tid m l (m.retire x tid) l := by
  refine .quiet (fun u i _ _ => by rw [Memory.retire, slots_retire]) ?_ rfl (fun _ _ _ => rfl)
    ?_ ?_
  · intro u i y _ hh
    refine ⟨hh.guarded.retire hm.range, ?_⟩
    by_cases hy : y = x
    · subst hy
      simp [Memory.retire, Life.Past]
    · simpa [Memory.retire, hy] using hh.past
  · intro u y _ hy
    have hne : y ≠ x := by
      rintro rfl
      rw [hx] at hy
      cases hy
    exact ⟨(Function.update_of_ne hne _ _).trans hy, rfl, fun _ => rfl⟩
  · intro u y hu hy
    have hne : y ≠ x := by
      rintro rfl
      rw [hx] at hy
      exact hu (Life.popped.inj hy).symm
    exact ⟨(Function.update_of_ne hne _ _).trans hy, rfl⟩

/-- A node is freed only from the retired list of the thread that scans. -/
theorem life_scan (hm : m.Shape l) (tid : Fin n) (x : Node) : (m.scan tid).life x = m.life x ∨
    m.haz.freeing tid = some x ∧ m.life x = .retired tid ∧ (m.scan tid).life x = .free := by
  unfold Memory.scan
  cases hf : m.haz.freeing tid with
  | none => exact .inl rfl
  | some y =>
    by_cases hx : x = y
    · subst hx
      exact .inr ⟨rfl, (hm.retired tid x).mp (mem_of_freeing hf), Function.update_self _ _ _⟩
    · exact .inl (Function.update_of_ne hx _ _)

theorem life_scan_of_ne (hx : m.haz.freeing tid ≠ some x) : (m.scan tid).life x = m.life x := by
  unfold Memory.scan
  cases hf : m.haz.freeing tid with
  | none => rfl
  | some y =>
    refine Function.update_of_ne ?_ _ _
    rintro rfl
    exact hx hf

theorem Memory.Shape.scan (hm : m.Shape l) : (m.scan tid).Shape l where
  rep := ⟨hm.rep.nodup, hm.rep.ends, hm.rep.pushed, hm.rep.linked⟩
  queued x := by
    rcases life_scan hm tid x with h | ⟨-, hr, h⟩
    · rw [h, hm.queued]
    · rw [h, hm.queued, hr]
      simp
  retired u x := by
    change x ∈ (m.haz.empty tid).retired u ↔ _
    by_cases hu : u = tid
    · subst hu
      rw [mem_retired_empty (hm.retired_nodup u) hm.range, hm.retired]
      rcases life_scan hm u x with h | ⟨hf, -, h⟩
      · rw [h, and_iff_left_iff_imp]
        intro hr hf
        rw [Memory.scan, hf, hr] at h
        simp at h
      · simp [h, hf]
    · rw [retired_empty_of_ne hu, hm.retired]
      rcases life_scan hm tid x with h | ⟨-, hr, h⟩
      · rw [h]
      · rw [h, hr]
        simp [Ne.symm hu]
  retired_nodup u := by
    change ((m.haz.empty tid).retired u).Nodup
    by_cases hu : u = tid
    · subst hu
      exact nodup_retired_empty (hm.retired_nodup u)
    · rw [retired_empty_of_ne hu]
      exact hm.retired_nodup u
  range := inRange_empty hm.range

theorem later_scan (hm : m.Shape l) : Later tid m l (m.scan tid) l := by
  have hlife {x : Node} (hx : m.life x ≠ .retired tid) : (m.scan tid).life x = m.life x := by
    rcases life_scan hm tid x with h | ⟨-, hr, -⟩
    · exact h
    · exact absurd hr hx
  refine .quiet (fun u i _ _ => by rw [Memory.scan, slots_empty]) ?_ rfl (fun _ _ _ => rfl) ?_ ?_
  · intro u i x _ hh
    refine ⟨hh.guarded.empty, ?_⟩
    rw [life_scan_of_ne hh.guarded.not_freeing]
    exact hh.past
  · intro u x _ hx
    rw [hlife (by simp [hx])]
    exact ⟨hx, rfl, fun _ => rfl⟩
  · intro u x _ hx
    rw [hlife (by simp [hx])]
    exact ⟨hx, rfl⟩

end Retire

section Ends

/-- An anchor as the ends of a list. -/
theorem most_set_self : (a.set S p s).most S = p := by
  cases S <;> rfl

theorem most_set_opposite : (a.set S p s).most S.opposite = a.most S.opposite := by
  cases S <;> rfl

@[simp] theorem status_set : (a.set S p s).status = s := by
  cases S <;> rfl

/-- The links of a deque in which no push is under way. -/
theorem Memory.Represents.agree (hm : m.Represents l) (hs : m.anchor.status = .stable)
    (hn : S.Next l x y) : (m.link S x).ptr = some y := by
  rcases hm.linked S x y hn with h | ⟨h, -⟩
  · exact h
  · rw [hs] at h
    cases h

theorem Memory.Represents.nil_iff (hm : m.Represents l) : l = [] ↔ m.anchor.most S = none := by
  rw [hm.ends S]
  constructor
  · rintro rfl
    exact Side.first_nil S
  · intro h
    by_contra hl
    obtain ⟨x, hx⟩ := S.first_ne_none hl
    rw [h] at hx
    cases hx

theorem Memory.Represents.stable_of_short (hm : m.Represents l) (hl : l.length < 2) :
    m.anchor.status = .stable := by
  cases hs : m.anchor.status with
  | stable => rfl
  | push S => exact absurd (hm.pushed S hs) (by omega)

/-- The deque with only one node. -/
theorem Memory.Represents.singleton (hm : m.Represents l) (he : m.anchor.left = m.anchor.right)
    (hx : m.anchor.most S = some x) : l = [x] := by
  have hends (R : Side) : R.first l = some x := by
    rw [← hm.ends R, ← hx]
    cases R <;> cases S <;> first | rfl | exact he | exact he.symm
  have hl := Side.eq_add_of_first (hends .left)
  have hnodup := hm.nodup
  rw [hl, Side.nodup_add] at hnodup
  by_cases hr : Side.left.rest l = []
  · rw [hl, hr, Side.add_nil]
  · have hlast := Side.first_opposite_add .left x hr
    rw [← hl] at hlast
    exact absurd (Side.mem_of_first (hlast.symm.trans (hends .right))) hnodup.1

theorem Memory.Represents.two_le (hm : m.Represents l) (he : m.anchor.left ≠ m.anchor.right) :
    2 ≤ l.length := by
  have hleft : m.anchor.left = Side.left.first l := hm.ends .left
  have hright : m.anchor.right = Side.right.first l := hm.ends .right
  rw [hleft, hright] at he
  match l with
  | [] => exact absurd rfl he
  | [x] => exact absurd rfl he
  | x :: y :: l => simp

/-- The deque after a push onto an empty one. -/
theorem Memory.Represents.push_empty (hm : m.Represents []) {k : Life n} :
    ((m.setAnchor ⟨some node, some node, m.anchor.status⟩).setLife node k).Represents [node] where
  nodup := List.nodup_singleton node
  ends S := by cases S <;> rfl
  pushed S hs := by
    change m.anchor.status = _ at hs
    rw [hm.stable_of_short (by simp)] at hs
    cases hs
  linked S x y hn := by
    have hlen : [node].length < 2 := by simp
    exact absurd (hn.ne (List.nodup_singleton node)) (by
      rw [List.mem_singleton.mp hn.mem_source, List.mem_singleton.mp hn.mem_target]
      simp)

/-- The deque after a push onto one that is not empty: the link to the new node is missing. -/
theorem Memory.Represents.push (hm : m.Represents l) (hs : m.anchor.status = .stable)
    (hne : m.anchor.most S ≠ none) (hnode : node ∉ l)
    (hlink : (m.link S.opposite node).ptr = m.anchor.most S) {k : Life n} :
    ((m.setAnchor (m.anchor.set S (some node) (.push S))).setLife node k).Represents
      (S.add node l) where
  nodup := Side.nodup_add.mpr ⟨hnode, hm.nodup⟩
  ends R := by
    change (m.anchor.set S (some node) (.push S)).most R = _
    have hl : l ≠ [] := fun h => hne (hm.nil_iff.mp h)
    rcases Side.eq_or_eq_opposite S R with rfl | rfl
    · rw [most_set_self, Side.first_add]
    · rw [most_set_opposite, Side.first_opposite_add S node hl, hm.ends]
  pushed R hR := by
    have hl : l ≠ [] := fun h => hne (hm.nil_iff.mp h)
    have hpos := List.length_pos_iff.mpr hl
    rw [Side.length_add]
    omega
  linked R x y hn := by
    change (m.link R x).ptr = some y ∨ (m.anchor.set S (some node) (.push S)).status = _ ∧ _
    rw [status_set]
    rcases Side.eq_or_eq_opposite S R with rfl | rfl
    · rcases Side.next_add.mp hn with hn | ⟨rfl, -⟩
      · exact .inl (hm.agree hs hn)
      · exact .inr ⟨rfl, Side.first_add _ _ _⟩
    · rcases Side.next_add_opposite.mp hn with hn | ⟨rfl, hf⟩
      · exact .inl (hm.agree hs hn)
      · exact .inl (by rw [hlink, hm.ends, hf])

theorem Memory.Shape.push (hm : m.Shape l) (hnode : m.life node = .owned tid)
    (hrep : ((m.setAnchor a).setLife node .queued).Represents (S.add node l)) :
    ((m.setAnchor a).setLife node .queued).Shape (S.add node l) where
  rep := hrep
  queued x := by
    rw [Side.mem_add]
    by_cases hx : x = node
    · subst hx
      simp [Memory.setLife]
    · simp [hx, hm.queued, Memory.setLife, Memory.setAnchor]
  retired u x := by
    by_cases hx : x = node
    · subst hx
      simp [Memory.setLife, Memory.setAnchor, hm.retired, hnode]
    · simp [hx, hm.retired, Memory.setLife, Memory.setAnchor]
  retired_nodup := hm.retired_nodup
  range := hm.range

theorem later_push (hnode : m.life node = .owned tid) (hs : m.anchor.status = .stable)
    (ha : ∀ R, a.status = .push R → a.most R = some node) :
    Later tid m l ((m.setAnchor a).setLife node .queued) (S.add node l) := by
  have hne {x : Node} (hx : (m.life x).Past) : x ≠ node := by
    rintro rfl
    exact hx.ne_owned hnode
  have hlife {x : Node} (hx : x ≠ node) :
      ((m.setAnchor a).setLife node .queued).life x = m.life x := Function.update_of_ne hx _ _
  refine ⟨fun _ _ _ _ => rfl, ?_, ?_, ?_, ?_, fun _ _ _ => .inl rfl, ?_, ?_, ?_⟩
  · intro u i x _ hh
    exact ⟨⟨hh.guarded.bound, hh.guarded.holds, hh.guarded.spares⟩,
      by rw [hlife (hne hh.past)]; exact hh.past⟩
  · intro x hx hmem
    exact (Side.mem_add.mp hmem).resolve_left (hne hx)
  · intro seg x y _ _ _ _ _ _ hi
    exact hi.trans (Side.infix_add S node l)
  · intro R x hx hst hmost
    exact absurd (Option.some.inj (hmost.symm.trans (ha R hst))) (hne hx)
  · intro R x hst _
    rw [hs] at hst
    cases hst
  · intro u x hu hx
    have hxn : x ≠ node := by
      rintro rfl
      exact hu (Life.owned.inj (hx.symm.trans hnode))
    exact ⟨(hlife hxn).trans hx, rfl, fun _ => rfl⟩
  · intro u x _ hx
    have hxn : x ≠ node := by
      rintro rfl
      rw [hnode] at hx
      cases hx
    exact ⟨(hlife hxn).trans hx, rfl⟩

/-- The deque without the node at an end. -/
theorem Memory.Represents.pop (hm : m.Represents (S.add x l)) (hs : m.anchor.status = .stable)
    (ha : ∀ R, a.most R = R.first l) (hst : a.status = .stable) {k : Life n} :
    ((m.setAnchor a).setLife x k).Represents l where
  nodup := (Side.nodup_add.mp hm.nodup).2
  ends := ha
  pushed R hR := by
    change a.status = _ at hR
    rw [hst] at hR
    cases hR
  linked R y z hn := .inl (hm.agree hs (hn.add S x))

theorem Memory.Shape.pop (hm : m.Shape (S.add x l)) {u : Fin n}
    (hrep : ((m.setAnchor a).setLife x (.popped u)).Represents l) :
    ((m.setAnchor a).setLife x (.popped u)).Shape l where
  rep := hrep
  queued y := by
    have hq := hm.queued y
    rw [Side.mem_add] at hq
    by_cases hy : y = x
    · subst hy
      simp [Memory.setLife, (Side.nodup_add.mp hm.rep.nodup).1]
    · simpa [hy, Memory.setLife, Memory.setAnchor] using hq
  retired v y := by
    by_cases hy : y = x
    · subst hy
      have hq := (hm.queued y).mp (Side.mem_add.mpr (.inl rfl))
      simp [Memory.setLife, Memory.setAnchor, hm.retired, hq]
    · simp [hy, hm.retired, Memory.setLife, Memory.setAnchor]
  retired_nodup := hm.retired_nodup
  range := hm.range

theorem later_pop (hm : m.Shape (S.add x l)) (hs : m.anchor.status = .stable)
    (hst : a.status = .stable) :
    Later tid m (S.add x l) ((m.setAnchor a).setLife x (.popped tid)) l := by
  have hq : m.life x = .queued := (hm.queued x).mp (Side.mem_add.mpr (.inl rfl))
  have hlife {y : Node} (hy : y ≠ x) :
      ((m.setAnchor a).setLife x (.popped tid)).life y = m.life y := Function.update_of_ne hy _ _
  have hne {y : Node} {k : Life n} (hy : m.life y = k) (hk : k ≠ .queued) : y ≠ x := by
    rintro rfl
    exact hk (hy.symm.trans hq)
  refine ⟨fun _ _ _ _ => rfl, ?_, ?_, ?_, ?_, fun _ _ _ => .inl rfl, ?_, ?_, ?_⟩
  · intro u i y _ hh
    refine ⟨⟨hh.guarded.bound, hh.guarded.holds, hh.guarded.spares⟩, ?_⟩
    by_cases hy : y = x
    · subst hy
      simp [Memory.setLife, Life.Past]
    · rw [hlife hy]
      exact hh.past
  · intro y _ hy
    exact Side.mem_add.mpr (.inr hy)
  · intro seg y z hy hz _ _ hyl hzl hi
    exact Side.infix_of_infix_add hi hm.rep.nodup hy hz hyl hzl
  · intro R y _ hR
    change a.status = _ at hR
    rw [hst] at hR
    cases hR
  · intro R y hR _
    rw [hs] at hR
    cases hR
  · intro u y _ hy
    exact ⟨(hlife (hne hy (by simp))).trans hy, rfl, fun _ => rfl⟩
  · intro u y _ hy
    exact ⟨(hlife (hne hy (by simp))).trans hy, rfl⟩

end Ends

section Stabilize

/-- A helper's compare-exchange sets the link to the node that has been pushed. -/
theorem Memory.Shape.setLink (hm : m.Shape l) (hn : R.Next l x y) {sn : ℕ} :
    (m.setLink R x ⟨some y, sn⟩).Shape l where
  rep := by
    refine ⟨hm.rep.nodup, hm.rep.ends, hm.rep.pushed, fun S z w hz => ?_⟩
    by_cases he : S = R ∧ z = x
    · obtain ⟨rfl, rfl⟩ := he
      rw [setLink_self, hn.unique hm.rep.nodup hz]
      exact .inl rfl
    · have hkeep : (m.setLink R x ⟨some y, sn⟩).link S z = m.link S z := by
        by_cases hz : z = x
        · exact congrFun (Function.update_of_ne (fun hS => he ⟨hS, hz⟩) _ _) z
        · exact setLink_of_ne hz
      rw [hkeep]
      exact hm.rep.linked S z w hz
  queued := hm.queued
  retired := hm.retired
  retired_nodup := hm.retired_nodup
  range := hm.range

theorem later_setLink (tid : Fin n) (hm : m.Shape l) (hn : R.Next l x y) :
    Later tid m l (m.setLink R x ⟨some y, (m.link R x).sn + 1⟩) l := by
  have hlink (S : Side) (z : Node) :
      (m.setLink R x ⟨some y, (m.link R x).sn + 1⟩).link S z = m.link S z ∨ S = R ∧ z = x := by
    by_cases hz : z = x
    · by_cases hS : S = R
      · exact .inr ⟨hS, hz⟩
      · exact .inl (congrFun (Function.update_of_ne hS _ _) z)
    · exact .inl (setLink_of_ne hz)
  have hq : m.life x = .queued := (hm.queued x).mp hn.mem_source
  refine ⟨fun _ _ _ _ => rfl, fun _ _ _ _ h => ⟨h.guarded, h.past⟩, fun _ _ h => h,
    fun _ _ _ _ _ _ _ _ _ h => h, fun _ _ _ hs ht => ⟨hs, ht⟩, ?_, fun _ _ _ _ => .inl rfl, ?_,
    fun _ _ _ h => ⟨h, rfl⟩⟩
  · intro S z _
    rcases hlink S z with h | ⟨rfl, rfl⟩
    · exact .inl h
    · rw [setLink_self]
      exact .inr ⟨Nat.lt_succ_self _, y, rfl, hn⟩
  · intro u z _ hz
    refine ⟨hz, rfl, fun S => (hlink S z).resolve_right ?_⟩
    rintro ⟨-, rfl⟩
    rw [hq] at hz
    cases hz

/-- The deque is stable once the link to the node that has been pushed is there. -/
theorem Memory.Shape.settle (hm : m.Shape l) (hs : m.anchor.status = .push R)
    (hn : R.Next l x y) (hy : m.anchor.most R = some y) (hlink : (m.link R x).ptr = some y) :
    (m.setAnchor { m.anchor with status := .stable }).Shape l where
  rep := by
    refine ⟨hm.rep.nodup, fun S => ?_, fun S hS => ?_, fun S z w hz => .inl ?_⟩
    · rw [← hm.rep.ends S]
      cases S <;> rfl
    · cases hS
    · rcases hm.rep.linked S z w hz with h | ⟨hS, hw⟩
      · exact h
      · obtain rfl : R = S := Status.push.inj (hs.symm.trans hS)
        obtain rfl : y = w := Option.some.inj ((hy.symm.trans (hm.rep.ends R)).trans hw)
        rw [← hn.unique_source hm.rep.nodup hz]
        exact hlink
  queued := hm.queued
  retired := hm.retired
  retired_nodup := hm.retired_nodup
  range := hm.range

theorem later_settle (hs : m.anchor.status = .push R) (hn : R.Next l x y)
    (hy : m.anchor.most R = some y) (hlink : (m.link R x).ptr = some y) :
    Later tid m l (m.setAnchor { m.anchor with status := .stable }) l := by
  refine ⟨fun _ _ _ _ => rfl, fun _ _ _ _ h => ⟨h.guarded, h.past⟩, fun _ _ h => h,
    fun _ _ _ _ _ _ _ _ _ h => h, ?_, fun _ _ _ => .inl rfl, ?_,
    fun _ _ _ h => ⟨h, rfl, fun _ => rfl⟩, fun _ _ _ h => ⟨h, rfl⟩⟩
  · intro S z _ hS
    cases hS
  · intro S z hS hz
    obtain rfl : R = S := Status.push.inj (hs.symm.trans hS)
    obtain rfl : y = z := Option.some.inj (hy.symm.trans hz)
    exact .inr ⟨x, hn, hlink⟩

end Stabilize

end UnboundedDeque.MMDeque
