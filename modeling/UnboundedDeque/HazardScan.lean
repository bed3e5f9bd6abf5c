import UnboundedDeque.HazardTracker

/-!
# What a scan of the retired pointers does

The loop of `empty` erases from the list it runs over and then advances, so it
passes over the pointer after each one it frees. While the slots do not change, it
frees and keeps what it should exactly if every pointer to free is followed by one
to keep. What a slot holds all along is never freed, whatever else changes.
-/
namespace UnboundedDeque.HazardTracker

section Sweep

variable {α : Type*} (held : α → Prop) {l : List α}

/-- Every pointer to free is followed by a pointer to keep. -/
structure Spaced (l : List α) : Prop where
  next : l.IsChain fun x y => held x ∨ held y
  last : ∀ x, l.getLast? = some x → held x

variable {held}

theorem spaced_nil : Spaced held [] := ⟨.nil, fun _ hx => by cases hx⟩

theorem Spaced.tail {x y : α} (h : Spaced held (x :: y :: l)) : Spaced held (y :: l) where
  next := (List.isChain_cons_cons.mp h.next).2
  last z hz := h.last z (by rw [List.getLast?_cons_cons, hz])

theorem Spaced.cons {x y : α} (hxy : held x ∨ held y) (h : Spaced held (y :: l)) :
    Spaced held (x :: y :: l) where
  next := List.isChain_cons_cons.mpr ⟨hxy, h.next⟩
  last z hz := h.last z (by rw [← hz, List.getLast?_cons_cons])

theorem Spaced.of_tail {y : α} (hy : held y) (h : Spaced held l) : Spaced held (y :: l) := by
  cases l with
  | nil => exact ⟨List.isChain_singleton y, fun z hz => by rwa [← Option.some.inj hz]⟩
  | cons z l => exact .cons (.inl hy) h

variable (held) [DecidablePred held]

/-- The pointers one pass of the loop keeps and those it frees. -/
def sweep : List α → List α × List α
  | [] => ([], [])
  | [x] => if held x then ([x], []) else ([], [x])
  | x :: y :: l =>
    if held x then (x :: (sweep (y :: l)).1, (sweep (y :: l)).2)
    else (y :: (sweep l).1, x :: (sweep l).2)

/-- One pass erases the last pointer and advances from `end()`. -/
def sweepOverruns : List α → Bool
  | [] => false
  | [x] => !decide (held x)
  | x :: y :: l => if held x then sweepOverruns (y :: l) else sweepOverruns l

variable {held}

/-- A pass does what it should exactly on the spaced lists. -/
theorem sweep_exact_iff (l : List α) :
    (sweepOverruns held l = false ∧ (sweep held l).1 = l.filter (held ·) ∧
      (sweep held l).2 = l.filter (¬held ·)) ↔ Spaced held l := by
  induction l using sweep.induct held with
  | case1 => simp [sweep, sweepOverruns, spaced_nil]
  | case2 x hx => simp [sweep, sweepOverruns, hx, Spaced.of_tail hx spaced_nil]
  | case3 x hx =>
    have hn : ¬Spaced held [x] := fun h => hx (h.last x rfl)
    simp [sweepOverruns, hx, hn]
  | case4 x y l hx ih =>
    have hcons : Spaced held (x :: y :: l) ↔ Spaced held (y :: l) :=
      ⟨Spaced.tail, Spaced.cons (.inl hx)⟩
    rw [hcons, ← ih]
    simp [sweep, sweepOverruns, hx]
  | case5 x y l hx ih =>
    by_cases hy : held y
    · have hcons : Spaced held (x :: y :: l) ↔ Spaced held l := by
        refine ⟨fun h => ?_, fun h => .cons (.inr hy) (.of_tail hy h)⟩
        cases l with
        | nil => exact spaced_nil
        | cons z l => exact h.tail.tail
      rw [hcons, ← ih]
      simp [sweep, sweepOverruns, hx, hy]
    · have hn : ¬Spaced held (x :: y :: l) := fun h =>
        ((List.isChain_cons_cons.mp h.next).1).elim hx hy
      have hmem : y ∈ (sweep held (x :: y :: l)).1 := by simp [sweep, hx]
      refine iff_of_false ?_ hn
      rintro ⟨-, hkept, -⟩
      rw [hkept] at hmem
      simp [hy] at hmem

end Sweep

section Scans

variable {α : Type*} [DecidableEq α] {taskNum slotsPerThread freq : ℕ}
  {h h' : HazardTracker α taskNum slotsPerThread freq} {tid : Fin taskNum} {x : α} {pos i j : ℕ}
  {freed kept done rest l : List α} {past : Bool} {contents : ℕ → Option α}

/-- Some slot holds the pointer. -/
def Held (taskNum slotsPerThread : ℕ) (contents : ℕ → Option α) (x : α) : Prop :=
  ∃ i < taskNum * slotsPerThread, contents i = some x

instance : DecidablePred (Held taskNum slotsPerThread contents) := fun _ =>
  inferInstanceAs (Decidable (∃ i < taskNum * slotsPerThread, _))

/-- The entry of `empty`, which does nothing with no pointer retired. -/
def enter (h : HazardTracker α taskNum slotsPerThread freq) (tid : Fin taskNum) :
    HazardTracker α taskNum slotsPerThread freq :=
  if h.retired tid = [] then { h with scan := Function.update h.scan tid none }
  else { h with scan := Function.update h.scan tid (some (.compare 0 0)) }

/-- The next step of a scan advances from `end()`. -/
def overruns (h : HazardTracker α taskNum slotsPerThread freq) (tid : Fin taskNum) : Bool :=
  match h.scan tid with
  | some (.free pos) => pos + 1 = (h.retired tid).length
  | _ => false

/-- A scan to its end with nothing else happening: the pointers it frees, in order,
and whether it ever advances from `end()`. -/
inductive Scans (tid : Fin taskNum) : HazardTracker α taskNum slotsPerThread freq → List α →
    Bool → HazardTracker α taskNum slotsPerThread freq → Prop
  | done {h : HazardTracker α taskNum slotsPerThread freq} (idle : h.scan tid = none) :
      Scans tid h [] false h
  | step {h h' : HazardTracker α taskNum slotsPerThread freq} {freed : List α} {past : Bool}
      (busy : h.scan tid ≠ none) (rest : Scans tid (h.empty tid) freed past h') :
      Scans tid h ((h.freeing tid).toList ++ freed) (h.overruns tid || past) h'

/-- What `empty` should do: free each pointer that no slot holds, once, keep the
others in their order, stay inside the list, and leave at most one pointer a slot. -/
def Exact (h : HazardTracker α taskNum slotsPerThread freq) (tid : Fin taskNum) : Prop :=
  ∃ h', Scans tid (h.enter tid) ((h.retired tid).filter (¬Held taskNum slotsPerThread h.slots ·))
      false h' ∧
    h'.retired tid = (h.retired tid).filter (Held taskNum slotsPerThread h.slots ·) ∧
    ((h.retired tid).Nodup → (h'.retired tid).length ≤ taskNum * slotsPerThread)

theorem scans_of_none (hs : h.scan tid = none) :
    Scans tid h freed past h' ↔ freed = [] ∧ past = false ∧ h' = h := by
  constructor
  · intro hr
    cases hr with
    | done => exact ⟨rfl, rfl, rfl⟩
    | step busy => exact absurd hs busy
  · rintro ⟨rfl, rfl, rfl⟩
    exact .done hs

theorem scans_of_compare (hs : h.scan tid = some (.compare pos i)) :
    Scans tid h freed past h' ↔ Scans tid (h.empty tid) freed past h' := by
  have hf : h.freeing tid = none := by rw [freeing, hs]
  have ho : h.overruns tid = false := by rw [overruns, hs]
  constructor
  · intro hr
    cases hr with
    | done idle => rw [hs] at idle; cases idle
    | step _ rest => simpa [hf, ho] using rest
  · intro hr
    have hstep := Scans.step (by rw [hs]; exact Option.some_ne_none _) hr
    simpa [hf, ho] using hstep

theorem scans_of_free (hs : h.scan tid = some (.free pos)) :
    Scans tid h freed past h' ↔ ∃ fr o, freed = (h.retired tid)[pos]?.toList ++ fr ∧
      past = (decide (pos + 1 = (h.retired tid).length) || o) ∧ Scans tid (h.empty tid) fr o h' := by
  have hf : h.freeing tid = (h.retired tid)[pos]? := by rw [freeing, hs]
  have ho : h.overruns tid = decide (pos + 1 = (h.retired tid).length) := by rw [overruns, hs]
  rw [← hf, ← ho]
  constructor
  · intro hr
    cases hr with
    | done idle => rw [hs] at idle; cases idle
    | step _ rest => exact ⟨_, _, rfl, rfl, rest⟩
  · rintro ⟨fr, o, rfl, rfl, hr⟩
    exact .step (by rw [hs]; exact Option.some_ne_none _) hr

omit [DecidableEq α] in
theorem advance_scan (h : HazardTracker α taskNum slotsPerThread freq) (pos : ℕ)
    (k : Option Scan) :
    advance { h with scan := Function.update h.scan tid k } pos tid = h.advance pos tid := by
  unfold advance
  simp only [Function.update_idem]

/-- The loop past the slots: it finds the pointer in one that is left, or in none. -/
theorem scans_compare (hs : h.scan tid = some (.compare pos i))
    (hx : (h.retired tid)[pos]? = some x) :
    Scans tid h freed past h' ↔
      Scans tid (if ∃ k < taskNum * slotsPerThread, i ≤ k ∧ h.slots k = some x
        then h.advance pos tid
        else { h with scan := Function.update h.scan tid (some (.free pos)) }) freed past h' := by
  induction hn : taskNum * slotsPerThread - i generalizing h i with
  | zero =>
    have hi : ¬i < taskNum * slotsPerThread := by omega
    rw [scans_of_compare hs, if_neg (by rintro ⟨k, hk, hle, -⟩; omega)]
    simp only [empty, hs, hi, if_false]
  | succ n ih =>
    have hi : i < taskNum * slotsPerThread := by omega
    rw [scans_of_compare hs]
    by_cases he : h.slots i = some x
    · rw [if_pos ⟨i, hi, le_rfl, he⟩]
      simp only [empty, hs, hi, if_true, hx, he]
    · have hn' : taskNum * slotsPerThread - (i + 1) = n := by omega
      have hstep : h.empty tid =
          { h with scan := Function.update h.scan tid (some (.compare pos (i + 1))) } := by
        simp only [empty, hs, hi, if_true, hx, Ne.symm he, if_false]
      have hleft : (∃ k < taskNum * slotsPerThread, i ≤ k ∧ h.slots k = some x) ↔
          ∃ k < taskNum * slotsPerThread, i + 1 ≤ k ∧ h.slots k = some x := by
        refine exists_congr fun k => and_congr_right fun _ => and_congr_left fun hk => ?_
        constructor
        · intro hle
          have hne : i ≠ k := fun hik => he (hik ▸ hk)
          omega
        · omega
      have hnext := ih (h := h.empty tid) (i := i + 1) (by rw [hstep]; exact Function.update_self _ _ _)
        (by rw [hstep]; exact hx) hn'
      rw [hnext, hstep]
      simp only [hleft, advance_scan, Function.update_idem]

omit [DecidableEq α] in
/-- The iterator after a kept pointer. -/
theorem advance_at (hl : h.retired tid = done ++ x :: rest) :
    (h.advance done.length tid).scan tid =
      if rest = [] then none else some (.compare (done ++ [x]).length 0) := by
  have hlen : (h.retired tid).length = done.length + 1 + rest.length := by
    rw [hl, List.length_append, List.length_cons]
    omega
  have hinc : increment (h.retired tid).length done.length = done.length + 1 := by
    rw [increment, hlen]
    exact Nat.mod_eq_of_lt (by omega)
  unfold advance
  rw [hinc, List.length_append, List.length_singleton]
  cases rest with
  | nil =>
    rw [if_pos (by rw [hlen]; rfl), if_pos rfl]
    exact Function.update_self _ _ _
  | cons y rest =>
    rw [if_neg (by rw [hlen, List.length_cons]; omega), if_neg (List.cons_ne_nil _ _)]
    exact Function.update_self _ _ _

/-- A kept pointer is passed. -/
theorem scans_kept (hl : h.retired tid = done ++ x :: rest)
    (hs : h.scan tid = some (.compare done.length 0)) (hx : Held taskNum slotsPerThread h.slots x) :
    Scans tid h freed past h' ↔ Scans tid (h.advance done.length tid) freed past h' := by
  have hget : (h.retired tid)[done.length]? = some x := by
    rw [hl, List.getElem?_append_right le_rfl, Nat.sub_self, List.getElem?_cons_zero]
  obtain ⟨k, hk, hkx⟩ := hx
  rw [scans_compare hs hget, if_pos ⟨k, hk, Nat.zero_le k, hkx⟩]

/-- The tracker with the pointer at a position erased. -/
def erase (h : HazardTracker α taskNum slotsPerThread freq) (tid : Fin taskNum) (pos : ℕ) :
    HazardTracker α taskNum slotsPerThread freq :=
  { h with retired := Function.update h.retired tid ((h.retired tid).eraseIdx pos) }

omit [DecidableEq α] in
theorem retired_erase : (h.erase tid pos).retired tid = (h.retired tid).eraseIdx pos :=
  Function.update_self _ _ _

/-- A pointer no slot holds is freed. -/
theorem scans_freed (hl : h.retired tid = done ++ x :: rest)
    (hs : h.scan tid = some (.compare done.length 0))
    (hx : ¬Held taskNum slotsPerThread h.slots x) :
    Scans tid h freed past h' ↔ ∃ fr o, freed = x :: fr ∧ past = (decide (rest = []) || o) ∧
      Scans tid ((h.erase tid done.length).advance done.length tid) fr o h' := by
  have hget : (h.retired tid)[done.length]? = some x := by
    rw [hl, List.getElem?_append_right le_rfl, Nat.sub_self, List.getElem?_cons_zero]
  have hlen : decide (done.length + 1 = (h.retired tid).length) = decide (rest = []) := by
    rw [hl, List.length_append, List.length_cons]
    cases rest <;> simp
  rw [scans_compare hs hget, if_neg (by rintro ⟨k, hk, -, hkx⟩; exact hx ⟨k, hk, hkx⟩),
    scans_of_free (Function.update_self _ _ _)]
  have hempty : empty { h with scan := Function.update h.scan tid (some (.free done.length)) } tid =
      (h.erase tid done.length).advance done.length tid := by
    simp only [empty, Function.update_self]
    exact advance_scan (h.erase tid done.length) _ _
  simp only [hget, hlen, hempty, Option.toList_some, List.singleton_append]

/-- A scan that has passed `done` sweeps the rest. -/
theorem scans_iff_sweep (hc : h.slots = contents) (hl : h.retired tid = done ++ rest)
    (hs : h.scan tid = if rest = [] then none else some (.compare done.length 0)) :
    (∃ h', Scans tid h freed false h' ∧ h'.retired tid = l) ↔
      sweepOverruns (Held taskNum slotsPerThread contents) rest = false ∧
      freed = (sweep (Held taskNum slotsPerThread contents) rest).2 ∧
      l = done ++ (sweep (Held taskNum slotsPerThread contents) rest).1 := by
  induction rest using sweep.induct (Held taskNum slotsPerThread contents)
    generalizing h done freed with
  | case1 =>
    rw [if_pos rfl] at hs
    simp [scans_of_none hs, sweep, sweepOverruns, hl, eq_comm]
  | case2 x hx =>
    rw [if_neg (List.cons_ne_nil _ _)] at hs
    have hadv := advance_at hl
    rw [if_pos rfl] at hadv
    simp [scans_kept hl hs (hc ▸ hx), scans_of_none hadv, sweep, sweepOverruns, hx, hl, eq_comm]
  | case3 x hx =>
    rw [if_neg (List.cons_ne_nil _ _)] at hs
    simp [scans_freed hl hs (hc ▸ hx), sweepOverruns, hx]
  | case4 x y rest hx ih =>
    rw [if_neg (List.cons_ne_nil _ _)] at hs
    simp only [scans_kept hl hs (hc ▸ hx)]
    rw [ih (by rw [slots_advance, hc]) (by rw [retired_advance, hl, List.append_assoc]; rfl)
      (advance_at hl)]
    simp [sweep, sweepOverruns, hx]
  | case5 x y rest hx ih =>
    rw [if_neg (List.cons_ne_nil _ _)] at hs
    have herase : (h.retired tid).eraseIdx done.length = done ++ y :: rest := by
      rw [hl, List.eraseIdx_append_of_length_le le_rfl, Nat.sub_self, List.eraseIdx_cons_zero]
    have hl' : (h.erase tid done.length).retired tid = done ++ y :: rest := by
      rw [retired_erase, herase]
    simp only [scans_freed hl hs (hc ▸ hx)]
    have hrest (fr : List α) := @ih ((h.erase tid done.length).advance done.length tid) fr (done ++ [y])
      (by rw [slots_advance]; exact hc) (by rw [retired_advance, hl', List.append_assoc]; rfl)
      (advance_at hl')
    simp only [sweepOverruns, sweep, hx, if_false]
    constructor
    · rintro ⟨h', ⟨fr, o, rfl, ho, hr⟩, hret⟩
      obtain rfl : o = false := by simpa using ho.symm
      obtain ⟨hover, hfr, hlist⟩ := (hrest fr).mp ⟨h', hr, hret⟩
      exact ⟨hover, by rw [hfr], by rw [hlist, List.append_assoc]; rfl⟩
    · rintro ⟨hover, rfl, rfl⟩
      obtain ⟨h', hr, hret⟩ := (hrest _).mpr ⟨hover, rfl, by rw [List.append_assoc]; rfl⟩
      exact ⟨h', ⟨_, false, rfl, by simp, hr⟩, hret⟩

omit [DecidableEq α] in
/-- As many pointers without repetition as slots can hold. -/
theorem length_held_le [DecidableEq α] (hn : l.Nodup) :
    (l.filter (Held taskNum slotsPerThread contents ·)).length ≤ taskNum * slotsPerThread := by
  have hsub : (l.filter (Held taskNum slotsPerThread contents ·)).toFinset ⊆
      ((List.range (taskNum * slotsPerThread)).filterMap contents).toFinset := by
    intro x hx
    simp only [List.mem_toFinset, List.mem_filter, decide_eq_true_eq] at hx
    obtain ⟨-, i, hi, hix⟩ := hx
    exact List.mem_toFinset.mpr (List.mem_filterMap.mpr ⟨i, List.mem_range.mpr hi, hix⟩)
  calc (l.filter (Held taskNum slotsPerThread contents ·)).length
      = (l.filter (Held taskNum slotsPerThread contents ·)).toFinset.card :=
        (List.toFinset_card_of_nodup (hn.filter _)).symm
    _ ≤ ((List.range (taskNum * slotsPerThread)).filterMap contents).toFinset.card :=
        Finset.card_le_card hsub
    _ ≤ ((List.range (taskNum * slotsPerThread)).filterMap contents).length :=
        List.toFinset_card_le _
    _ ≤ (List.range (taskNum * slotsPerThread)).length := List.length_filterMap_le _ _
    _ = taskNum * slotsPerThread := List.length_range

/-- A scan from its start frees the pointers one pass frees. -/
theorem scans_enter_iff (h : HazardTracker α taskNum slotsPerThread freq) (tid : Fin taskNum) :
    (∃ h', Scans tid (h.enter tid) freed false h' ∧ h'.retired tid = l) ↔
      sweepOverruns (Held taskNum slotsPerThread h.slots) (h.retired tid) = false ∧
      freed = (sweep (Held taskNum slotsPerThread h.slots) (h.retired tid)).2 ∧
      l = (sweep (Held taskNum slotsPerThread h.slots) (h.retired tid)).1 := by
  have hslots : (h.enter tid).slots = h.slots := by unfold enter; split_ifs <;> rfl
  have hretired : (h.enter tid).retired tid = [] ++ h.retired tid := by
    unfold enter
    split_ifs <;> rfl
  have hscan : (h.enter tid).scan tid =
      if h.retired tid = [] then none else some (.compare 0 0) := by
    unfold enter
    split_ifs <;> exact Function.update_self _ _ _
  exact scans_iff_sweep hslots hretired hscan

theorem exact_iff_spaced (h : HazardTracker α taskNum slotsPerThread freq) (tid : Fin taskNum) :
    h.Exact tid ↔ Spaced (Held taskNum slotsPerThread h.slots) (h.retired tid) := by
  rw [← sweep_exact_iff]
  constructor
  · rintro ⟨h', hr, hret, -⟩
    obtain ⟨hover, hfreed, hkept⟩ := (scans_enter_iff h tid).mp ⟨h', hr, hret⟩
    exact ⟨hover, hkept.symm, hfreed.symm⟩
  · rintro ⟨hover, hkept, hfreed⟩
    obtain ⟨h', hr, hret⟩ := (scans_enter_iff h tid).mpr ⟨hover, hfreed.symm, hkept.symm⟩
    exact ⟨h', hr, hret, fun hn => hret ▸ length_held_le hn⟩

/-- The pointers a thread's scan frees while other threads act on the tracker, as
long as a slot holds a pointer. The others leave the thread's own list and locals alone. -/
inductive ScansWhile (tid : Fin taskNum) (j : ℕ) (x : α) :
    HazardTracker α taskNum slotsPerThread freq → List α →
    HazardTracker α taskNum slotsPerThread freq → Prop
  | start {h : HazardTracker α taskNum slotsPerThread freq} : ScansWhile tid j x h [] h
  | own {h h' : HazardTracker α taskNum slotsPerThread freq} {freed : List α}
      (prior : ScansWhile tid j x h freed h') :
      ScansWhile tid j x h (freed ++ (h'.freeing tid).toList) (h'.empty tid)
  | other {h h' t : HazardTracker α taskNum slotsPerThread freq} {freed : List α}
      (prior : ScansWhile tid j x h freed h') (scan : t.scan tid = h'.scan tid)
      (retired : t.retired tid = h'.retired tid) (holds : t.slots j = some x) :
      ScansWhile tid j x h freed t

/-- What a slot holds all along is spared all along. -/
theorem ScansWhile.spares (hr : ScansWhile tid j x h freed h') (hj : j < taskNum * slotsPerThread)
    (hs : h.slots j = some x) (hg : h.Spares tid j x) :
    h'.slots j = some x ∧ h'.Spares tid j x ∧ x ∉ freed := by
  induction hr with
  | start => exact ⟨hs, hg, List.not_mem_nil⟩
  | own _ ih =>
    obtain ⟨hold, hspare, hfreed⟩ := ih
    refine ⟨by rw [slots_empty, hold], hspare.empty hj hold, ?_⟩
    rw [List.mem_append, Option.mem_toList]
    exact fun hx => hx.elim hfreed hspare.not_freeing
  | other _ hscan hretired hold ih =>
    obtain ⟨-, hspare, hfreed⟩ := ih
    exact ⟨hold, hspare.congr hscan hretired, hfreed⟩

omit [DecidableEq α] in
theorem spares_enter : (h.enter tid).Spares tid j x := by
  have hscan : (h.enter tid).scan tid = none ∨ (h.enter tid).scan tid = some (.compare 0 0) := by
    unfold enter
    split_ifs
    · exact .inl (Function.update_self _ _ _)
    · exact .inr (Function.update_self _ _ _)
  constructor
  · intro pos i hs _
    rcases hscan with hn | hn <;> rw [hn] at hs <;> cases hs
    exact Nat.zero_le j
  · intro pos hs
    rcases hscan with hn | hn <;> rw [hn] at hs <;> cases hs

/-- What a slot holds throughout a scan is not freed by it; and with slots that do
not change a scan is exact if and only if every pointer to free is followed by one to keep. -/
theorem empty_exact_iff (h : HazardTracker α taskNum slotsPerThread freq) (tid : Fin taskNum) :
    (∀ j < taskNum * slotsPerThread, ∀ x, h.slots j = some x →
      ∀ freed h', ScansWhile tid j x (h.enter tid) freed h' → x ∉ freed) ∧
    (h.Exact tid ↔ Spaced (Held taskNum slotsPerThread h.slots) (h.retired tid)) := by
  constructor
  · intro j hj x hs freed h' hr
    have hslots : (h.enter tid).slots = h.slots := by unfold enter; split_ifs <;> rfl
    exact (hr.spares hj (by rw [hslots, hs]) spares_enter).2.2
  · exact exact_iff_spaced h tid

/-- Four retired pointers that no slot holds: the second and the last are kept. -/
theorem empty_not_exact : ¬Exact (⟨fun _ => none, fun _ => 3, fun _ => [1, 2, 3, 4], fun _ => none⟩ :
    HazardTracker ℕ 1 3 3) 0 := by
  rw [exact_iff_spaced]
  intro hs
  have hfirst := (List.isChain_cons_cons.mp hs.next).1
  have hnone (x : ℕ) : ¬Held 1 3 (fun _ => none) x := by
    rintro ⟨i, -, hi⟩
    cases hi
  exact hfirst.elim (hnone 1) (hnone 2)

end Scans
end UnboundedDeque.HazardTracker
