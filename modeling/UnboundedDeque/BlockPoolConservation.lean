import UnboundedDeque.BlockPoolInvariant

/-!
# The block pool conserves blocks

Each step keeps the invariant, so every block is in one place and no block is
handed out twice.
-/
namespace UnboundedDeque.BlockPool
open StepMachine

section Steps

variable {τ : Type*} [DecidableEq τ] {s t : State τ} {tid u : τ} {l g : List ℕ} {a b ng group stamp : ℕ}
  {oldp : CountedPtr} {c : Choice} {gs : List (List ℕ)}

omit [DecidableEq τ] in
/-- The place of a block after a change at some addresses. -/
theorem place_ite {p q : Place τ} {P : Prop} [Decidable P] :
    (if P then p else s.place a) = q ↔ (P ∧ p = q) ∨ (¬P ∧ s.place a = q) := by
  split_ifs with h <;> simp [h]

/-! ## A fresh group -/

theorem mem_array {base : ℕ} : a ∈ array base ↔ base ≤ a ∧ a < base + groupSize := by
  simp only [array, List.mem_map, List.mem_range]
  constructor
  · rintro ⟨i, hi, rfl⟩
    omega
  · rintro ⟨hle, hlt⟩
    exact ⟨a - base, by omega, by omega⟩

theorem array_eq (base : ℕ) : array base = base :: (List.range (groupSize - 1)).map (base + 1 + ·) := by
  rw [array, show groupSize = (groupSize - 1) + 1 from rfl, List.range_succ_eq_map, List.map_cons,
    List.map_map]
  simp only [Nat.add_zero, Nat.add_sub_cancel, List.cons.injEq, true_and]
  exact List.map_congr_left fun i _ => by simp only [Function.comp_apply]; omega

/-- The blocks of a fresh group are linked in their order. -/
theorem linked_array (s : State τ) (tid : τ) {base : ℕ} (h0 : base ≠ 0) :
    Linked (s.appendBlockGroup tid base).next (base + 1)
      ((List.range (groupSize - 1)).map (base + 1 + ·)) := by
  simp [groupSize, List.range_succ, State.appendBlockGroup_next, h0]
  omega

theorem sound_appendBlockGroup (h : Sound s) (hl : s.lists tid = []) {base : ℕ} (h0 : base ≠ 0)
    (hfresh : ∀ a ∈ array base, s.place a = .unused) : Sound (s.appendBlockGroup tid base) := by
  have hout {a : ℕ} (ha : s.place a ≠ .unused) : ¬(base ≤ a ∧ a < base + groupSize) :=
    fun hin => ha (hfresh a (mem_array.mpr hin))
  have hnext {a : ℕ} (ha : s.place a ≠ .unused) : (s.appendBlockGroup tid base).next a = s.next a :=
    if_neg (hout ha)
  have hpooled {a : ℕ} (ha : a ∈ s.groups.flatten) : s.place a ≠ .unused := by
    rw [(h.pooled a).mp ha]
    simp
  have hmem {g : List ℕ} {a : ℕ} (hg : g ∈ s.groups) (ha : a ∈ g) : a ∈ s.groups.flatten :=
    List.mem_flatten.mpr ⟨g, hg, ha⟩
  refine ⟨h.sn, ?_, fun g hg => ⟨(h.group g hg).1, ?_⟩, fun a => ?_, fun u a => ?_, h.nodupGroups,
    fun u => ?_, ?_⟩
  · refine h.pool.congr fun a ha => ?_
    obtain ⟨g, hg, rfl⟩ := List.mem_map.mp ha
    have hhead : g.headD 0 ∈ g := by
      have hlen := (h.group g hg).1
      cases g with
      | nil => cases hlen
      | cons x g => exact .head g
    exact if_neg (hout (hpooled (hmem hg hhead)))
  · exact (h.group g hg).2.congr fun a ha => hnext (hpooled (hmem hg ha))
  · rw [State.appendBlockGroup_groups, State.appendBlockGroup_place, place_ite]
    constructor
    · intro ha
      exact .inr ⟨hout (hpooled ha), (h.pooled a).mp ha⟩
    · rintro (⟨-, hp⟩ | ⟨-, hp⟩)
      · cases hp
      · exact (h.pooled a).mpr hp
  · rw [State.appendBlockGroup_lists, State.appendBlockGroup_place, place_ite, Function.update_apply]
    by_cases hu : u = tid
    · subst hu
      rw [if_pos rfl, mem_array]
      constructor
      · exact fun ha => .inl ⟨ha, rfl⟩
      · rintro (⟨ha, -⟩ | ⟨-, hp⟩)
        · exact ha
        · rw [← h.listed, hl] at hp
          cases hp
    · rw [if_neg hu, h.listed]
      constructor
      · intro hp
        exact .inr ⟨hout (by rw [hp]; simp), hp⟩
      · rintro (⟨-, hp⟩ | ⟨-, hp⟩)
        · exact absurd (Place.listed.inj hp).symm hu
        · exact hp
  · rw [State.appendBlockGroup_lists, Function.update_apply]
    split_ifs with hu
    · exact List.nodup_range.map fun i k hik => by simpa using hik
    · exact h.nodup u
  · rw [State.appendBlockGroup_place, if_neg (by omega)]
    exact h.null

theorem spares_appendBlockGroup (h : Sound s) {base : ℕ} (hu : u ≠ tid)
    (hfresh : ∀ a ∈ array base, s.place a = .unused) :
    Spares s (s.appendBlockGroup tid base) u := by
  have hout {a : ℕ} (ha : s.place a ≠ .unused) : ¬(base ≤ a ∧ a < base + groupSize) :=
    fun hin => ha (hfresh a (mem_array.mpr hin))
  have hlisted {a : ℕ} (ha : a ∈ s.lists u) : s.place a ≠ .unused := by
    rw [(h.listed u a).mp ha]
    simp
  refine ⟨Function.update_of_ne hu _ _, Function.update_of_ne hu _ _, fun a ha => ?_, fun a ha => ?_,
    .inl ⟨rfl, rfl, fun a ha => ?_⟩⟩
  · exact if_neg (hout (hlisted ha))
  · exact if_neg (hout (hlisted ha))
  · exact if_neg (hout (by rw [ha]; simp))

/-- The part of `alloc` that gets memory for a new group. -/
theorem inv_append (h : Inv s) (hpt : s.points tid = .allocLoad) {base : ℕ} (h0 : base ≠ 0)
    (hfresh : ∀ a ∈ array base, s.place a = .unused) :
    Inv ((s.appendBlockGroup tid base).takeTop tid) := by
  have hf := h.facts tid
  rw [hpt] at hf
  have hs := sound_appendBlockGroup h.sound hf.2 h0 hfresh
  have hhead : (s.appendBlockGroup tid base).headNodes tid = ⟨base, base, groupSize⟩ :=
    Function.update_self _ _ _
  have hlist : (s.appendBlockGroup tid base).lists tid =
      base :: (List.range (groupSize - 1)).map (base + 1 + ·) := by
    rw [State.appendBlockGroup_lists, Function.update_self, array_eq]
  have hnext : (s.appendBlockGroup tid base).next base = base + 1 := by
    rw [State.appendBlockGroup_next, if_pos ⟨le_rfl, by simp [groupSize]⟩, if_neg (by simp [groupSize])]
  apply h.step (sound_takeTop hs (by rw [hhead, hlist]))
  · rw [State.takeTop_points, Function.update_self, Facts, State.takeTop_headNodes,
      State.takeTop_lists, Function.update_self, Function.update_self, hhead, hlist, if_pos rfl, hnext]
    refine ⟨⟨linked_array s tid h0, ?_, ?_⟩, ?_⟩
    · rw [nthOf_of_length_le (by simp)]
    · simp [groupSize]
    · simp [groupSize]
  · exact fun u hu => (spares_appendBlockGroup h.sound hu hfresh).takeTop hu
  · exact fun u hu => Function.update_of_ne hu _ _

/-! ## A freed block -/

theorem sound_push (h : Sound s) (hb : s.place b = .held) : Sound (s.push tid b) := by
  have hnot {u : τ} : b ∉ s.lists u := by
    rw [h.listed, hb]
    simp
  have hgroups : b ∉ s.groups.flatten := by
    rw [h.pooled, hb]
    simp
  refine ⟨h.sn, h.pool, fun g hg => ⟨(h.group g hg).1, ?_⟩, fun a => ?_, fun u a => ?_,
    h.nodupGroups, fun u => ?_, ?_⟩
  · refine (h.group g hg).2.congr fun a ha => Function.update_of_ne ?_ _ _
    exact ne_of_mem_of_not_mem (List.mem_flatten.mpr ⟨g, hg, ha⟩) hgroups
  · rw [State.push_groups, State.push_place, Function.update_apply]
    split_ifs with ha
    · simp [ha, hgroups]
    · exact h.pooled a
  · rw [State.push_lists, State.push_place, Function.update_apply, Function.update_apply]
    by_cases hu : u = tid
    · subst hu
      rw [if_pos rfl, List.mem_cons, h.listed]
      split_ifs with ha <;> simp [ha]
    · rw [if_neg hu]
      split_ifs with ha
      · simp [ha, hnot, Ne.symm hu]
      · exact h.listed u a
  · rw [State.push_lists, Function.update_apply]
    split_ifs with hu
    · exact List.nodup_cons.mpr ⟨hnot, h.nodup tid⟩
    · exact h.nodup u
  · have h0 : (0 : ℕ) ≠ b := by
      intro h0
      rw [← h0, h.null] at hb
      cases hb
    rw [State.push_place, Function.update_of_ne h0]
    exact h.null

theorem spares_push (h : Sound s) (hb : s.place b = .held) (hu : u ≠ tid) :
    Spares s (s.push tid b) u := by
  refine ⟨Function.update_of_ne hu _ _, Function.update_of_ne hu _ _, fun a ha => ?_,
    fun _ _ => rfl, .inl ⟨rfl, rfl, fun _ _ => rfl⟩⟩
  refine Function.update_of_ne ?_ _ _
  rintro rfl
  rw [h.listed, hb] at ha
  cases ha

theorem describes_push (h : Inv s) (hpt : s.points tid = .idle) (hb : s.place b = .held) :
    ((s.push tid b).headNodes tid).Describes (s.push tid b).next ((s.push tid b).lists tid) := by
  have hf := h.facts tid
  rw [hpt] at hf
  have hnot : b ∉ s.lists tid := by
    rw [h.sound.listed, hb]
    simp
  have h0 : b ≠ 0 := by
    rintro rfl
    rw [h.sound.null] at hb
    cases hb
  have hnext : (s.push tid b).next = Function.update s.next b (s.headNodes tid).top := rfl
  rw [State.push_headNodes, State.push_lists, hnext, Function.update_self, Function.update_self]
  exact hf.1.push hnot h0

/-! ## Groups of the global pool -/

omit [DecidableEq τ] in
theorem sound_link (h : Sound s) (hng : ng ∈ s.lists tid) : Sound (s.link ng oldp) := by
  refine ⟨h.sn, h.pool.congr fun a ha => Function.update_of_ne ?_ _ _, h.group, h.pooled, h.listed,
    h.nodupGroups, h.nodup, h.null⟩
  rintro rfl
  obtain ⟨g, hg, hhead⟩ := List.mem_map.mp ha
  have hmem : a ∈ s.groups.flatten := by
    refine List.mem_flatten.mpr ⟨g, hg, ?_⟩
    have hlen := (h.group g hg).1
    cases g with
    | nil => cases hlen
    | cons x g => exact hhead ▸ List.mem_cons_self
  rw [h.pooled, (h.listed tid a).mp hng] at hmem
  cases hmem

theorem inv_freeStore (h : Inv s) (hpt : s.points tid = .freeStore ng oldp stamp) :
    Inv ((s.link ng oldp).goto tid (.freeCas ng oldp stamp)) := by
  have hf := h.facts tid
  rw [hpt] at hf
  obtain ⟨⟨hd, hlen, hng⟩, hseen⟩ := hf
  have hmem : ng ∈ s.lists tid := hng ▸ group_mem hlen
  apply h.step (sound_goto (sound_link h.sound hmem) _)
  · rw [points_goto]
    refine ⟨⟨hd, hlen, hng⟩, ⟨hseen.le, hseen.sn, hseen.current⟩, ?_⟩
    exact Function.update_self _ _ _
  · intro u hu
    refine ⟨rfl, rfl, fun _ _ => rfl, fun a ha => Function.update_of_ne ?_ _ _,
      .inl ⟨rfl, rfl, fun a ha => Function.update_of_ne ?_ _ _⟩⟩
    · rintro rfl
      rw [h.sound.listed, (h.sound.listed tid a).mp hmem] at ha
      exact hu (Place.listed.inj ha).symm
    · rintro rfl
      rw [(h.sound.listed tid a).mp hmem] at ha
      cases ha
  · exact fun u hu => points_goto_of_ne _ hu

omit [DecidableEq τ] in
/-- An exchange that succeeds finds the pool as the thread has loaded it. -/
theorem stamp_eq (h : Sound s) (hseen : Seen s oldp stamp) (hp : s.globalPool = oldp)
    (hwrap : s.swaps < stamp + 2 ^ 32) : stamp = s.swaps := by
  have hsn : UInt32.ofNat s.swaps = UInt32.ofNat stamp := by
    rw [← h.sn, hp, hseen.sn]
  have hmod := congrArg UInt32.toNat hsn
  rw [UInt32.toNat_ofNat', UInt32.toNat_ofNat'] at hmod
  have hle := hseen.le
  omega

omit [DecidableEq τ] in
theorem sn_next (h : Sound s) (hp : s.globalPool = oldp) : oldp.sn + 1 = UInt32.ofNat (s.swaps + 1) := by
  rw [← hp, h.sn, UInt32.ofNat_add]
  rfl

omit [DecidableEq τ] in
/-- The group at the head of a pool that is not empty. -/
theorem groups_eq (h : Sound s) (hp : s.globalPool.ptr ≠ 0) :
    ∃ g gs, s.groups = g :: gs ∧ g.headD 0 = s.globalPool.ptr := by
  obtain ⟨g, hg, hhead, -⟩ := h.place_global hp
  obtain ⟨gs, hgs⟩ := List.head?_eq_some_iff.mp hg
  exact ⟨g, gs, hgs, hhead⟩

theorem sound_grab (h : Sound s) (hl : s.lists tid = []) (hgs : s.groups = g :: gs)
    (hhead : g.headD 0 = s.globalPool.ptr) (hp : s.globalPool = oldp)
    (hgroup : group = s.nextGroup oldp.ptr) : Sound (s.grab tid oldp group) := by
  have hnodup := h.nodupGroups
  rw [hgs, List.flatten_cons, List.nodup_append] at hnodup
  have hpooled {a : ℕ} : a ∈ g ∨ a ∈ gs.flatten ↔ s.place a = .pooled := by
    rw [← h.pooled, hgs, List.flatten_cons, List.mem_append]
  have hpool := h.pool
  rw [hgs, List.map_cons, hhead] at hpool
  refine ⟨sn_next h hp, ?_, fun g' hg' => ?_, fun a => ?_, fun u a => ?_, ?_, fun u => ?_, ?_⟩
  · have hrest : Linked s.nextGroup group (gs.map (·.headD 0)) := by
      rw [hgroup, ← hp]
      exact hpool.2.2
    rw [State.grab_groups, hgs]
    exact hrest
  · rw [State.grab_groups, hgs] at hg'
    exact h.group g' (by rw [hgs]; exact .tail g hg')
  · rw [State.grab_groups, State.grab_place, hgs, List.tail_cons, List.headD_cons, place_ite]
    constructor
    · exact fun ha => .inr ⟨fun hag => hnodup.2.2 a hag a ha rfl, hpooled.mp (.inr ha)⟩
    · rintro (⟨-, hp⟩ | ⟨hag, hp⟩)
      · cases hp
      · exact (hpooled.mpr hp).resolve_left hag
  · rw [State.grab_lists, State.grab_place, hgs, List.headD_cons, place_ite, Function.update_apply]
    by_cases hu : u = tid
    · subst hu
      rw [if_pos rfl]
      constructor
      · exact fun ha => .inl ⟨ha, rfl⟩
      · rintro (⟨ha, -⟩ | ⟨-, hp⟩)
        · exact ha
        · rw [← h.listed, hl] at hp
          cases hp
    · rw [if_neg hu, h.listed]
      constructor
      · intro hp
        refine .inr ⟨fun hag => ?_, hp⟩
        rw [hpooled.mp (.inl hag)] at hp
        cases hp
      · rintro (⟨-, hp⟩ | ⟨-, hp⟩)
        · exact absurd (Place.listed.inj hp).symm hu
        · exact hp
  · rw [State.grab_groups, hgs]
    exact hnodup.2.1
  · rw [State.grab_lists, Function.update_apply, hgs]
    split_ifs with hu
    · exact hnodup.1
    · exact h.nodup u
  · rw [State.grab_place, hgs, List.headD_cons, if_neg]
    · exact h.null
    · intro h0
      have hpl := hpooled.mp (.inl h0)
      rw [h.null] at hpl
      cases hpl

theorem inv_grab (h : Inv s) (hpt : s.points tid = .allocCas oldp group stamp)
    (hp : s.globalPool = oldp) (hwrap : s.swaps < stamp + 2 ^ 32) :
    Inv ((s.grab tid oldp group).goto tid (.allocTake oldp.ptr)) := by
  have hf := h.facts tid
  rw [hpt] at hf
  obtain ⟨⟨hhn, hl⟩, hne, hseen, hgroup⟩ := hf
  obtain ⟨g, gs, hgs, hhead⟩ := groups_eq h.sound (by rw [hp]; exact hne)
  obtain ⟨hlen, hlink⟩ := h.sound.group g (by rw [hgs]; exact .head gs)
  have hgroup' := hgroup (stamp_eq h.sound hseen hp hwrap)
  apply h.step (sound_goto (sound_grab h.sound hl hgs hhead hp hgroup') _)
  · rw [points_goto]
    have hlists : (s.grab tid oldp group).lists tid = g := by
      rw [State.grab_lists, Function.update_self, hgs]
      rfl
    refine ⟨hhn, ?_, ?_⟩
    · rw [State.goto_lists, hlists]
      exact hlen
    · rw [State.goto_lists, hlists, ← hp, ← hhead]
      exact hlink
  · intro u hu
    exact ⟨rfl, Function.update_of_ne hu _ _, fun _ _ => rfl, fun _ _ => rfl, .inr rfl⟩
  · exact fun u hu => points_goto_of_ne _ hu

theorem sound_publish (h : Sound s) (hlink : Linked s.next (s.headNodes tid).top (s.lists tid))
    (hlen : (s.lists tid).length = groupSize * 2) (hng : ng = ((s.lists tid).drop groupSize).headD 0)
    (hp : s.globalPool = oldp) (hgroup : s.nextGroup ng = oldp.ptr) :
    Sound (s.publish tid oldp ng) := by
  have hsplit := List.take_append_drop groupSize (s.lists tid)
  have hnodup := h.nodup tid
  rw [← hsplit, List.nodup_append] at hnodup
  have hlisted {a : ℕ} : a ∈ (s.lists tid).take groupSize ∨ a ∈ (s.lists tid).drop groupSize ↔
      s.place a = .listed tid := by
    rw [← h.listed, ← List.mem_append, hsplit]
  have hng0 : ng ≠ 0 := hlink.ne_zero (hng ▸ group_mem hlen)
  have hdrop : ((s.lists tid).drop groupSize).length = groupSize := by
    rw [List.length_drop, hlen]
    rfl
  have hgrp : Linked s.next ng ((s.lists tid).drop groupSize) := by
    rw [← hsplit] at hlink
    obtain ⟨r, -, hr⟩ := path_append.mp hlink
    rwa [hng, ← Linked.eq_headD hr]
  have hold {a : ℕ} (ha : a ∈ s.groups.flatten) : a ∉ (s.lists tid).drop groupSize := by
    intro hin
    rw [h.pooled, hlisted.mp (.inr hin)] at ha
    cases ha
  refine ⟨sn_next h hp, ?_, fun g hg => ?_, fun a => ?_, fun u a => ?_, ?_, fun u => ?_, ?_⟩
  · have hall : Linked s.nextGroup ng (ng :: s.groups.map (·.headD 0)) := by
      refine ⟨rfl, hng0, ?_⟩
      rw [hgroup, ← hp]
      exact h.pool
    rw [State.publish_groups, List.map_cons, ← hng]
    exact hall
  · rcases List.mem_cons.mp hg with rfl | hg
    · exact ⟨hdrop, hng ▸ hgrp⟩
    · exact h.group g hg
  · rw [State.publish_groups, State.publish_place, place_ite, List.flatten_cons, List.mem_append]
    constructor
    · rintro (ha | ha)
      · exact .inl ⟨ha, rfl⟩
      · exact .inr ⟨hold ha, (h.pooled a).mp ha⟩
    · rintro (⟨ha, -⟩ | ⟨-, hpl⟩)
      · exact .inl ha
      · exact .inr ((h.pooled a).mpr hpl)
  · rw [State.publish_lists, State.publish_place, place_ite, Function.update_apply]
    by_cases hu : u = tid
    · subst hu
      rw [if_pos rfl]
      constructor
      · exact fun ha => .inr ⟨fun hin => hnodup.2.2 a ha a hin rfl, hlisted.mp (.inl ha)⟩
      · rintro (⟨-, hpl⟩ | ⟨hout, hpl⟩)
        · cases hpl
        · exact (hlisted.mpr hpl).resolve_right hout
    · rw [if_neg hu, h.listed]
      constructor
      · intro hpl
        refine .inr ⟨fun hin => ?_, hpl⟩
        rw [hlisted.mp (.inr hin)] at hpl
        exact hu (Place.listed.inj hpl).symm
      · rintro (⟨-, hpl⟩ | ⟨-, hpl⟩)
        · cases hpl
        · exact hpl
  · rw [State.publish_groups, List.flatten_cons, List.nodup_append]
    exact ⟨hnodup.2.1, h.nodupGroups, fun a ha b hb hab => hold (hab ▸ hb) ha⟩
  · rw [State.publish_lists, Function.update_apply]
    split_ifs with hu
    · exact hnodup.1
    · exact h.nodup u
  · rw [State.publish_place, if_neg]
    · exact h.null
    · intro h0
      have hpl := hlisted.mp (.inr h0)
      rw [h.null] at hpl
      cases hpl

/-- `nth` of a list with two groups is the lowest block of the upper one. -/
theorem nthOf_double (hl : l.length = groupSize * 2) : nthOf l = (l.take groupSize).getLast?.getD 0 := by
  rw [nthOf, List.getElem?_reverse (by rw [hl]; decide), hl, List.getLast?_eq_getElem?,
    List.length_take, hl, List.getElem?_take_of_lt (by decide)]
  rfl

theorem inv_publish (h : Inv s) (hpt : s.points tid = .freeCas ng oldp stamp)
    (hp : s.globalPool = oldp) : Inv ((s.publish tid oldp ng).goto tid .freeCut) := by
  have hf := h.facts tid
  rw [hpt] at hf
  obtain ⟨⟨hd, hlen, hng⟩, -, hgroup⟩ := hf
  apply h.step (sound_goto (sound_publish h.sound hd.linked hlen hng hp hgroup) _)
  · have hlists : (s.publish tid oldp ng).lists tid = (s.lists tid).take groupSize :=
      Function.update_self _ _ _
    have hlink := hd.linked
    rw [← List.take_append_drop groupSize (s.lists tid)] at hlink
    obtain ⟨q, hq, -⟩ := path_append.mp hlink
    rw [points_goto]
    refine ⟨⟨q, ?_⟩, ?_, ?_, ?_⟩
    · rw [State.goto_lists, hlists]
      exact hq
    · rw [State.goto_lists, hlists, ← nthOf_double hlen]
      exact hd.nth
    · exact hd.count.trans hlen
    · rw [State.goto_lists, hlists, List.length_take, hlen]
      rfl
  · intro u hu
    exact ⟨rfl, Function.update_of_ne hu _ _, fun _ _ => rfl, fun _ _ => rfl, .inr rfl⟩
  · exact fun u hu => points_goto_of_ne _ hu

/-! ## The ends of the calls -/

theorem inv_take (h : Inv s) (hpt : s.points tid = .allocTake b) : Inv (s.take tid b) := by
  have hf := h.facts tid
  rw [hpt] at hf
  obtain ⟨hhn, hlen, hlink⟩ := hf
  have hb : b ≠ 0 := by
    intro hb
    rw [(hlink.eq_nil_iff).mpr hb] at hlen
    cases hlen
  obtain ⟨l, hl, hrest⟩ := hlink.exists_cons hb
  rw [hl] at hlen
  have hsound : Sound (s.take tid b) :=
    h.sound.remove hl rfl rfl rfl rfl rfl rfl (by rw [State.take, hl]; rfl)
  apply h.step hsound
  · rw [State.take_points, Function.update_self, Facts, State.take_headNodes, State.take_lists,
      Function.update_self, Function.update_self, hhn, hl, List.tail_cons]
    refine ⟨⟨hrest, ?_, ?_⟩, ?_⟩
    · rw [nthOf_of_length_le (Nat.le_of_succ_le (Nat.le_of_eq hlen))]
    · exact (Nat.succ.inj hlen).symm
    · rw [Nat.succ.inj hlen]
      decide
  · intro u hu
    exact ⟨Function.update_of_ne hu _ _, Function.update_of_ne hu _ _, fun _ _ => rfl,
      fun _ _ => rfl, .inl ⟨rfl, rfl, fun _ _ => rfl⟩⟩
  · exact fun u hu => Function.update_of_ne hu _ _

theorem inv_cut (h : Inv s) (hpt : s.points tid = .freeCut) : Inv (s.cut tid) := by
  have hf := h.facts tid
  rw [hpt] at hf
  obtain ⟨⟨q, hq⟩, hnth, hcount, hlen⟩ := hf
  obtain ⟨l, x, hl⟩ : ∃ l x, s.lists tid = l ++ [x] := by
    rcases (s.lists tid).eq_nil_or_concat with hnil | ⟨l, x, hl⟩
    · rw [hnil] at hlen
      cases hlen
    · exact ⟨l, x, hl.trans (List.concat_eq_append ..)⟩
  have hx : (s.headNodes tid).nth = x := by simp [hnth, hl]
  have hmem : x ∈ s.lists tid := by rw [hl]; simp
  have hother {u : τ} {a : ℕ} (hu : u ≠ tid) (ha : a ∈ s.lists u) : a ≠ x := by
    rintro rfl
    rw [h.sound.listed, (h.sound.listed tid a).mp hmem] at ha
    exact hu (Place.listed.inj ha).symm
  have hnext (a : ℕ) (ha : a ≠ x) : (s.cut tid).next a = s.next a := by
    rw [State.cut_next, hx]
    exact Function.update_of_ne ha _ _
  have hsound : Sound (s.cut tid) := by
    refine ⟨h.sound.sn, h.sound.pool, fun g hg => ⟨(h.sound.group g hg).1, ?_⟩, h.sound.pooled,
      h.sound.listed, h.sound.nodupGroups, h.sound.nodup, h.sound.null⟩
    refine (h.sound.group g hg).2.congr fun a ha => hnext a ?_
    rintro rfl
    have hin := (h.sound.pooled a).mp (List.mem_flatten.mpr ⟨g, hg, ha⟩)
    rw [(h.sound.listed tid a).mp hmem] at hin
    cases hin
  apply h.step hsound
  · rw [State.cut_points, Function.update_self, Facts, State.cut_headNodes, Function.update_self,
      State.cut_lists]
    refine ⟨⟨?_, ?_, ?_⟩, ?_⟩
    · have hnodup := h.sound.nodup tid
      rw [hl] at hq hnodup ⊢
      have hcut := hq.cut hnodup
      rw [← hx] at hcut
      exact hx ▸ hcut
    · rw [nthOf_of_length_le hlen.le]
    · rw [hcount, hlen]
      rfl
    · rw [hlen]
      decide
  · intro u hu
    exact ⟨Function.update_of_ne hu _ _, rfl, fun a ha => hnext a (hother hu ha), fun _ _ => rfl,
      .inl ⟨rfl, rfl, fun _ _ => rfl⟩⟩
  · exact fun u hu => Function.update_of_ne hu _ _

/-! ## Runs -/

theorem inv_push (h : Inv s) (hpt : s.points tid = .idle) (hb : s.place b = .held)
    (hn : ((s.push tid b).headNodes tid).count ≠ groupSize * 2) : Inv (s.push tid b) := by
  have hd := describes_push h hpt hb
  have hf := h.facts tid
  rw [hpt] at hf
  apply h.step (sound_push h.sound hb)
  · rw [State.push_points, hpt]
    refine ⟨hd, ?_⟩
    have hlen : ((s.push tid b).lists tid).length = (s.lists tid).length + 1 := by
      rw [State.push_lists, Function.update_self]
      rfl
    rw [hd.count] at hn
    have := hf.2
    omega
  · exact fun u hu => spares_push h.sound hb hu
  · exact fun _ _ => rfl

/-- The successor of `nth` heads the lower one of two groups. -/
theorem next_nth {next : ℕ → ℕ} {p n : ℕ} (h : Linked next p l) (hn : n = nthOf l)
    (hl : l.length = groupSize * 2) : next n = (l.drop groupSize).headD 0 := by
  obtain ⟨i, x, hi⟩ : ∃ i x, l.take groupSize = i ++ [x] := by
    rcases (l.take groupSize).eq_nil_or_concat with hnil | ⟨i, x, hi⟩
    · have hlen := congrArg List.length hnil
      rw [List.length_take, hl] at hlen
      cases hlen
    · exact ⟨i, x, hi.trans (List.concat_eq_append ..)⟩
  rw [← List.take_append_drop groupSize l] at h
  obtain ⟨r, hr, hd⟩ := path_append.mp h
  rw [hi] at hr
  have hx : n = x := by rw [hn, nthOf_double hl, hi]; simp
  rw [hx, hr.next_last, ← Linked.eq_headD hd]

theorem inv_pushFull (h : Inv s) (hpt : s.points tid = .idle) (hb : s.place b = .held)
    (hn : ((s.push tid b).headNodes tid).count = groupSize * 2) :
    Inv ((s.push tid b).goto tid (.freeLoad ((s.push tid b).next ((s.push tid b).headNodes tid).nth))) := by
  have hd := describes_push h hpt hb
  have hlen : ((s.push tid b).lists tid).length = groupSize * 2 := by rw [← hd.count, hn]
  apply h.step (sound_goto (sound_push h.sound hb) _)
  · rw [points_goto]
    exact ⟨hd, hlen, next_nth hd.linked hd.nth hlen⟩
  · intro u hu
    have hs := spares_push h.sound hb hu
    exact ⟨hs.headNodes, hs.lists, hs.next, hs.nextGroup, hs.pool⟩
  · exact fun u hu => points_goto_of_ne _ hu

theorem inv_step (h : Inv s) (hw : NoWrap (tid, c) s) (hs : (machine τ).step (tid, c) s = some t) :
    Inv t := by
  have hf := h.facts tid
  simp only [machine, step] at hs
  split at hs
  · rename_i hpt
    split at hs
    · split_ifs at hs with htop
      · exact Option.some.inj hs ▸ inv_takeTop h hpt htop
      · rw [hpt] at hf
        refine Option.some.inj hs ▸ inv_goto h ?_
        have hl := (hf.1.linked.eq_nil_iff).mpr (not_not.mp htop)
        have hhead : s.headNodes tid = ⟨0, 0, 0⟩ := by
          have hnth := hf.1.nth
          have hcount := hf.1.count
          rw [hl] at hnth hcount
          cases hhn : s.headNodes tid
          simp_all [nthOf]
        exact ⟨hhead, hl⟩
    · split_ifs at hs with hb hn
      · exact Option.some.inj hs ▸ inv_pushFull h hpt hb hn
      · exact Option.some.inj hs ▸ inv_push h hpt hb hn
  · rename_i hpt
    split_ifs at hs with hp hfresh
    · rw [hpt] at hf
      exact Option.some.inj hs ▸ inv_goto h ⟨hf, hp, le_rfl, h.sound.sn, fun _ => rfl⟩
    · exact Option.some.inj hs ▸ inv_append h hpt hfresh.1 hfresh.2
  · rename_i oldp stamp hpt
    rw [hpt] at hf
    exact Option.some.inj hs ▸ inv_goto h ⟨hf.1, hf.2.1, hf.2.2, fun _ => rfl⟩
  · rename_i oldp group stamp hpt
    split_ifs at hs with hp
    · exact Option.some.inj hs ▸ inv_grab h hpt hp (hw stamp (by rw [hpt]; rfl))
    · rw [hpt] at hf
      exact Option.some.inj hs ▸ inv_goto h hf.1
  · rename_i b hpt
    exact Option.some.inj hs ▸ inv_take h hpt
  · rename_i ng hpt
    rw [hpt] at hf
    exact Option.some.inj hs ▸ inv_goto h ⟨hf, le_rfl, h.sound.sn, fun _ => rfl⟩
  · rename_i ng oldp stamp hpt
    exact Option.some.inj hs ▸ inv_freeStore h hpt
  · rename_i ng oldp stamp hpt
    split_ifs at hs with hp
    · exact Option.some.inj hs ▸ inv_publish h hpt hp
    · rw [hpt] at hf
      exact Option.some.inj hs ▸ inv_goto h hf.1
  · rename_i hpt
    exact Option.some.inj hs ▸ inv_cut h hpt

theorem run_inv (h : (machine τ).Run NoWrap s) : Inv s := by
  apply h.invariant
  · exact fun s hs => inv_init hs
  · rintro ⟨tid, c⟩ s t - hi hw hs
    exact inv_step hi hw hs

/-- Every block that has been created is held by a caller, in the list of exactly
one thread or in exactly one group of the global pool; between its calls a thread's
head node describes its list; and the groups of the pool are linked and full. -/
structure Conserved (s : State τ) : Prop where
  listed : ∀ tid a, a ∈ s.lists tid ↔ s.place a = .listed tid
  pooled : ∀ a, a ∈ s.groups.flatten ↔ s.place a = .pooled
  nodup : ∀ tid, (s.lists tid).Nodup
  nodupGroups : s.groups.flatten.Nodup
  headNode : ∀ tid, s.points tid = .idle → (s.headNodes tid).Describes s.next (s.lists tid)
  pool : Linked s.nextGroup s.globalPool.ptr (s.groups.map (·.headD 0))
  group : ∀ g ∈ s.groups, g.length = groupSize ∧ Linked s.next (g.headD 0) g

/-- The block that `alloc` returns in a step. -/
def returned (l : τ × Choice) (s : State τ) : Option ℕ :=
  match s.points l.1, l.2.call with
  | .idle, .alloc => if (s.headNodes l.1).top ≠ 0 then some (s.headNodes l.1).top else none
  | .allocLoad, _ => if s.globalPool.ptr ≠ 0 then none else some l.2.array
  | .allocTake b, _ => some b
  | _, _ => none

omit [DecidableEq τ] in
theorem conserved_of_inv (h : Inv s) : Conserved s where
  listed := h.sound.listed
  pooled := h.sound.pooled
  nodup := h.sound.nodup
  nodupGroups := h.sound.nodupGroups
  headNode tid hpt := by
    have hf := h.facts tid
    rw [hpt] at hf
    exact hf.1
  pool := h.sound.pool
  group := h.sound.group

/-- `alloc` hands out blocks that nobody holds. -/
theorem place_returned (h : Inv s) (hs : (machine τ).step (tid, c) s = some t)
    (hr : returned (tid, c) s = some b) : s.place b ≠ .held ∧ t.place b = .held := by
  have hf := h.facts tid
  simp only [machine, step] at hs
  unfold returned at hr
  split at hr
  · rename_i hpt hcall
    rw [hpt] at hs hf
    rw [hcall] at hs
    split_ifs at hr with htop
    cases hr
    obtain ⟨l, hl, -⟩ := hf.1.linked.exists_cons htop
    have hplace := (h.sound.listed tid _).mp (hl ▸ List.mem_cons_self)
    simp only [htop, ne_eq, not_false_eq_true, if_true, Option.some.injEq] at hs
    subst hs
    exact ⟨by simp [hplace], Function.update_self _ _ _⟩
  · rename_i hpt
    rw [hpt] at hs
    split_ifs at hr with hp
    cases hr
    simp only [hp, if_false] at hs
    split_ifs at hs with hfresh
    cases hs
    have hmem : c.array ∈ array c.array := mem_array.mpr ⟨le_rfl, by simp [groupSize]⟩
    refine ⟨by simp [hfresh.2 _ hmem], ?_⟩
    rw [State.takeTop_place, State.appendBlockGroup_headNodes, Function.update_self]
    exact Function.update_self _ _ _
  · rename_i hpt
    rw [hpt] at hs hf
    cases hr
    cases hs
    have hb : b ≠ 0 := by
      intro hb
      have hlen := hf.2.1
      rw [(hf.2.2.eq_nil_iff).mpr hb] at hlen
      cases hlen
    obtain ⟨l, hl, -⟩ := hf.2.2.exists_cons hb
    have hplace := (h.sound.listed tid b).mp (hl ▸ List.mem_cons_self)
    exact ⟨by simp [hplace], Function.update_self _ _ _⟩
  · cases hr

/-- In every run without a wrap of the counter blocks are conserved, and `alloc`
never returns a block that somebody holds. -/
theorem blocks_conserved (h : (machine τ).Run NoWrap s) :
    Conserved s ∧ ∀ tid c t b, (machine τ).step (tid, c) s = some t →
      returned (tid, c) s = some b → s.place b ≠ .held ∧ t.place b = .held :=
  ⟨conserved_of_inv (run_inv h), fun _ _ _ _ hs hr => place_returned (run_inv h) hs hr⟩

end Steps

instance (τ : Type*) [DecidableEq τ] (l : τ × Choice) (s : State τ) : Decidable (NoWrap l s) :=
  decidable_of_iff (∀ stamp ∈ (s.points l.1).stamp?, s.swaps < stamp + 2 ^ 32) Iff.rfl

/-- The pool as the constructor leaves it. -/
def constructed (τ : Type*) : State τ where
  next _ := 0
  nextGroup _ := 0
  globalPool := ⟨0, 0⟩
  headNodes _ := ⟨0, 0, 0⟩
  points _ := .idle
  place _ := .unused
  lists _ := []
  groups := []
  swaps := 0

theorem init_constructed (τ : Type*) : Init (constructed τ) :=
  ⟨rfl, fun _ => rfl, fun _ => rfl, fun _ => rfl, fun _ => rfl, rfl, rfl⟩

/-- `k` steps of a thread that allocates, with memory at `array` for a new group. -/
def allocRun (tid array k : ℕ) : List (ℕ × Choice) := List.replicate k (tid, ⟨.alloc, array⟩)

/-- The first nine blocks of two groups are freed again. -/
def freeNine : List (ℕ × Choice) := (List.range 9).map fun b => (0, ⟨.free (b + 1), 0⟩)

/-- A thread has published a group with the ninth block it freed, and another one has
taken this group from the pool and is about to return its first block. -/
def grabbed : State ℕ :=
  ((machine ℕ).exec NoWrap
    (allocRun 0 1 9 ++ allocRun 0 9 2 ++ freeNine ++ allocRun 0 0 4 ++ allocRun 1 0 4)
    (constructed ℕ)).getD (constructed ℕ)

theorem grabbed_conserved : Conserved grabbed ∧
    (grabbed.lists 0, grabbed.lists 1, grabbed.groups) =
      ([9, 8, 7, 6, 5, 4, 3, 2], [1, 10, 11, 12, 13, 14, 15, 16], []) ∧
    ∃ t, (machine ℕ).step (1, ⟨.alloc, 0⟩) grabbed = some t ∧
      grabbed.place 1 ≠ .held ∧ t.place 1 = .held := by
  have hrun : (machine ℕ).Run NoWrap grabbed :=
    Machine.Run.exec_getD _ (.start (init_constructed ℕ))
  have hstep : ((machine ℕ).step (1, ⟨.alloc, 0⟩) grabbed).isSome := by decide +kernel
  obtain ⟨t, ht⟩ := Option.isSome_iff_exists.mp hstep
  obtain ⟨hconserved, hreturn⟩ := blocks_conserved hrun
  exact ⟨hconserved, by decide +kernel, t, ht, hreturn 1 _ t 1 ht (by decide +kernel)⟩

end UnboundedDeque.BlockPool
