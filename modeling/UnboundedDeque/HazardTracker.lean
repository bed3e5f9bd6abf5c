import Mathlib

/-!
# The hazard pointers of `HazardTracker.cpp`

The tracker with its slots and, for each thread, its retired pointers, its counter
and the locals of a scan under way. A thread takes `empty` step by step: each load
of a slot and each `freeBlock` is a step of its own. The retired list is circular,
as in the standard library used: its `end()` is the position after the last element,
and the increment of that position is the first one.
-/
namespace UnboundedDeque

/-- The locals of `empty`: the position of `iterator`, with the number of slots its
pointer has been compared to, or with no slot found to hold it. -/
inductive Scan
  | compare (pos i : ℕ)
  | free (pos : ℕ)
  deriving DecidableEq, Repr

def Scan.pos : Scan → ℕ
  | .compare pos _ | .free pos => pos

/-- `HazardTracker(task_num, mem, slotsPerThread, emptyFreq)` for pointers of a
type, where `none` is `NULL`. -/
structure HazardTracker (α : Type*) (taskNum slotsPerThread freq : ℕ) where
  slots : ℕ → Option α
  cntrs : Fin taskNum → ℕ
  retired : Fin taskNum → List α
  scan : Fin taskNum → Option Scan

namespace HazardTracker

variable {α : Type*} {taskNum slotsPerThread freq : ℕ}
  {h : HazardTracker α taskNum slotsPerThread freq} {x y : α} {p : Option α} {j slot pos : ℕ}
  {tid u : Fin taskNum}

/-- The tracker as its constructor leaves it. -/
def initial : HazardTracker α taskNum slotsPerThread freq where
  slots _ := none
  cntrs _ := 0
  retired _ := []
  scan _ := none

/-- The index of a thread's slot. -/
def index (slotsPerThread : ℕ) (tid : Fin taskNum) (slot : ℕ) : ℕ := tid * slotsPerThread + slot

def reserve (h : HazardTracker α taskNum slotsPerThread freq) (p : Option α) (slot : ℕ)
    (tid : Fin taskNum) : HazardTracker α taskNum slotsPerThread freq :=
  { h with slots := Function.update h.slots (index slotsPerThread tid slot) p }

/-- `retire` of a pointer, up to the call of `empty`. -/
def retire (h : HazardTracker α taskNum slotsPerThread freq) (x : α) (tid : Fin taskNum) :
    HazardTracker α taskNum slotsPerThread freq :=
  let retired := Function.update h.retired tid (h.retired tid ++ [x])
  if h.cntrs tid = freq then
    { h with
      cntrs := Function.update h.cntrs tid 0
      retired
      scan := Function.update h.scan tid (some (.compare 0 0)) }
  else { h with cntrs := Function.update h.cntrs tid (h.cntrs tid + 1), retired }

/-- `++iterator` on a list of a length. -/
def increment (length pos : ℕ) : ℕ := (pos + 1) % (length + 1)

/-- `++iterator` with the test of the loop, and the end of `retire` after it. -/
def advance (h : HazardTracker α taskNum slotsPerThread freq) (pos : ℕ) (tid : Fin taskNum) :
    HazardTracker α taskNum slotsPerThread freq :=
  if increment (h.retired tid).length pos = (h.retired tid).length then
    { h with
      cntrs := Function.update h.cntrs tid (h.cntrs tid + 1)
      scan := Function.update h.scan tid none }
  else
    { h with
      scan := Function.update h.scan tid
        (some (.compare (increment (h.retired tid).length pos) 0)) }

/-- One step of the `empty` a thread is in. -/
def empty [DecidableEq α] (h : HazardTracker α taskNum slotsPerThread freq) (tid : Fin taskNum) :
    HazardTracker α taskNum slotsPerThread freq :=
  match h.scan tid with
  | none => h
  | some (.compare pos i) =>
    if i < taskNum * slotsPerThread then
      if (h.retired tid)[pos]? = h.slots i then h.advance pos tid
      else { h with scan := Function.update h.scan tid (some (.compare pos (i + 1))) }
    else { h with scan := Function.update h.scan tid (some (.free pos)) }
  | some (.free pos) =>
    advance { h with retired := Function.update h.retired tid ((h.retired tid).eraseIdx pos) }
      pos tid

/-- The pointer the next step of a scan passes to `freeBlock`. -/
def freeing (h : HazardTracker α taskNum slotsPerThread freq) (tid : Fin taskNum) : Option α :=
  match h.scan tid with
  | some (.free pos) => (h.retired tid)[pos]?
  | _ => none

/-- The scans under way are inside the retired lists. -/
def InRange (h : HazardTracker α taskNum slotsPerThread freq) : Prop :=
  ∀ u k, h.scan u = some k → k.pos < (h.retired u).length

/-- The scan of a thread has not found that no slot up to one holds a pointer. -/
structure Spares (h : HazardTracker α taskNum slotsPerThread freq) (u : Fin taskNum) (j : ℕ)
    (x : α) : Prop where
  compare : ∀ pos i, h.scan u = some (.compare pos i) → (h.retired u)[pos]? = some x → i ≤ j
  free : ∀ pos, h.scan u = some (.free pos) → (h.retired u)[pos]? ≠ some x

/-- A slot protects a pointer: it holds it, and every scan will find it there. -/
structure Guarded (h : HazardTracker α taskNum slotsPerThread freq) (j : ℕ) (x : α) : Prop where
  bound : j < taskNum * slotsPerThread
  holds : h.slots j = some x
  spares : ∀ u, h.Spares u j x

theorem index_lt {k : ℕ} (hk : slot < slotsPerThread) (tid : Fin taskNum)
    (he : k = index slotsPerThread tid slot) : k < taskNum * slotsPerThread := by
  have hle : (tid + 1) * slotsPerThread ≤ taskNum * slotsPerThread :=
    Nat.mul_le_mul_right _ tid.isLt
  rw [he, index]
  linarith

theorem index_injective {i k : ℕ} (hi : i < slotsPerThread) (hk : k < slotsPerThread)
    (he : index slotsPerThread tid i = index slotsPerThread u k) : tid = u ∧ i = k := by
  have hdiv (t : Fin taskNum) {l : ℕ} (hl : l < slotsPerThread) :
      index slotsPerThread t l / slotsPerThread = t := by
    rw [index, mul_comm, Nat.mul_add_div (by omega), Nat.div_eq_of_lt hl, add_zero]
  have htid : (tid : ℕ) = u := by rw [← hdiv tid hi, ← hdiv u hk, he]
  refine ⟨Fin.ext htid, ?_⟩
  rw [index, index, htid] at he
  omega

/-- What happens to a thread's scan when its iterator advances. -/
theorem scan_advance (h : HazardTracker α taskNum slotsPerThread freq) (pos : ℕ) (tid : Fin taskNum) :
    (h.advance pos tid).scan tid = none ∨
    ∃ k, k < (h.retired tid).length ∧ (h.advance pos tid).scan tid = some (.compare k 0) := by
  unfold advance
  split_ifs with hp
  · exact .inl (Function.update_self _ _ _)
  · refine .inr ⟨_, ?_, Function.update_self _ _ _⟩
    have hlt := Nat.mod_lt (pos + 1) (Nat.succ_pos (h.retired tid).length)
    change increment (h.retired tid).length pos < (h.retired tid).length + 1 at hlt
    omega

@[simp] theorem slots_advance : (h.advance pos tid).slots = h.slots := by
  unfold advance
  split_ifs <;> rfl

@[simp] theorem retired_advance : (h.advance pos tid).retired = h.retired := by
  unfold advance
  split_ifs <;> rfl

theorem scan_advance_of_ne (hu : u ≠ tid) : (h.advance pos tid).scan u = h.scan u := by
  unfold advance
  split_ifs <;> exact Function.update_of_ne hu _ _

@[simp] theorem slots_retire : (h.retire x tid).slots = h.slots := by
  unfold retire
  extract_lets
  split_ifs <;> rfl

@[simp] theorem retired_retire :
    (h.retire x tid).retired = Function.update h.retired tid (h.retired tid ++ [x]) := by
  unfold retire
  extract_lets
  split_ifs <;> rfl

theorem scan_retire_of_ne (hu : u ≠ tid) : (h.retire x tid).scan u = h.scan u := by
  unfold retire
  extract_lets
  split_ifs
  · exact Function.update_of_ne hu _ _
  · rfl

theorem scan_retire (h : HazardTracker α taskNum slotsPerThread freq) (x : α) (tid : Fin taskNum) :
    (h.retire x tid).scan tid = some (.compare 0 0) ∨
    (h.retire x tid).scan tid = h.scan tid := by
  unfold retire
  extract_lets
  split_ifs
  · exact .inl (Function.update_self _ _ _)
  · exact .inr rfl

theorem freeing_eq_some : h.freeing tid = some x ↔
    ∃ pos, h.scan tid = some (.free pos) ∧ (h.retired tid)[pos]? = some x := by
  unfold freeing
  split
  · rename_i pos hs
    constructor
    · exact fun hx => ⟨pos, hs, hx⟩
    · rintro ⟨k, hk, hx⟩
      rw [hs] at hk
      cases hk
      exact hx
  · rename_i hs
    constructor
    · intro hx
      cases hx
    · rintro ⟨k, hk, -⟩
      exact absurd hk (hs k)

theorem mem_of_freeing (hx : h.freeing tid = some x) : x ∈ h.retired tid := by
  obtain ⟨pos, -, hp⟩ := freeing_eq_some.mp hx
  exact List.mem_of_getElem? hp

theorem inRange_initial : (initial : HazardTracker α taskNum slotsPerThread freq).InRange := by
  intro u k hk
  cases hk

theorem inRange_retire (hr : h.InRange) : (h.retire x tid).InRange := by
  intro u k hk
  rw [retired_retire]
  rcases eq_or_ne u tid with rfl | hu
  · rw [Function.update_self, List.length_append, List.length_singleton]
    rcases scan_retire h x u with hs | hs
    · rw [hs] at hk
      cases hk
      exact Nat.succ_pos _
    · exact Nat.lt_succ_of_lt (hr u k (hs ▸ hk))
  · rw [Function.update_of_ne hu]
    exact hr u k (scan_retire_of_ne (h := h) (x := x) hu ▸ hk)

theorem Spares.congr {h' : HazardTracker α taskNum slotsPerThread freq} (hg : h.Spares u j x)
    (hs : h'.scan u = h.scan u) (hr : h'.retired u = h.retired u) : h'.Spares u j x := by
  constructor
  · rw [hs, hr]
    exact hg.compare
  · rw [hs, hr]
    exact hg.free

/-- A slot that holds a pointer nobody has retired protects it. -/
theorem guarded_of_not_retired (hj : j < taskNum * slotsPerThread) (hs : h.slots j = some x)
    (hx : ∀ u, x ∉ h.retired u) : h.Guarded j x where
  bound := hj
  holds := hs
  spares u := ⟨fun _ _ _ hp => absurd (List.mem_of_getElem? hp) (hx u),
    fun _ _ hp => absurd (List.mem_of_getElem? hp) (hx u)⟩

theorem Spares.retire (hg : h.Spares tid j x) (hr : h.InRange) : (h.retire y tid).Spares tid j x := by
  have hold {k : Scan} (hk : (h.retire y tid).scan tid = some k) :
      k = .compare 0 0 ∨ h.scan tid = some k ∧
        ((h.retire y tid).retired tid)[k.pos]? = (h.retired tid)[k.pos]? := by
    rcases scan_retire h y tid with hs | hs
    · exact .inl (Option.some.inj (hk.symm.trans hs))
    · rw [hs] at hk
      rw [retired_retire, Function.update_self, List.getElem?_append_left (hr tid k hk)]
      exact .inr ⟨hk, rfl⟩
  constructor
  · intro pos i hk hp
    rcases hold hk with h0 | ⟨hk, he⟩
    · cases h0
      exact Nat.zero_le j
    · exact hg.compare pos i hk (he.symm.trans hp)
  · intro pos hk hp
    rcases hold hk with h0 | ⟨hk, he⟩
    · cases h0
    · exact hg.free pos hk (he.symm.trans hp)

theorem Guarded.retire (hg : h.Guarded j x) (hr : h.InRange) : (h.retire y tid).Guarded j x where
  bound := hg.bound
  holds := by rw [slots_retire, hg.holds]
  spares u := by
    rcases eq_or_ne u tid with rfl | hu
    · exact (hg.spares u).retire hr
    · refine (hg.spares u).congr (scan_retire_of_ne hu) ?_
      rw [retired_retire, Function.update_of_ne hu]

theorem Spares.not_freeing (hg : h.Spares tid j x) : h.freeing tid ≠ some x := by
  intro hx
  obtain ⟨pos, hs, hp⟩ := freeing_eq_some.mp hx
  exact hg.free pos hs hp

/-- What a slot protects is not freed. -/
theorem Guarded.not_freeing (hg : h.Guarded j x) : h.freeing tid ≠ some x :=
  (hg.spares tid).not_freeing

variable [DecidableEq α]

@[simp] theorem slots_empty : (h.empty tid).slots = h.slots := by
  unfold empty
  split
  · rfl
  · split_ifs <;> simp
  · simp

theorem scan_empty_of_ne (hu : u ≠ tid) : (h.empty tid).scan u = h.scan u := by
  unfold empty
  split
  · rfl
  · split_ifs
    · exact scan_advance_of_ne hu
    · exact Function.update_of_ne hu _ _
    · exact Function.update_of_ne hu _ _
  · rw [scan_advance_of_ne hu]

theorem retired_empty_of_ne (hu : u ≠ tid) : (h.empty tid).retired u = h.retired u := by
  unfold empty
  split
  · rfl
  · split_ifs <;> simp
  · rw [retired_advance]
    exact Function.update_of_ne hu _ _

/-- A step of a scan erases the pointer it frees, and no other. -/
theorem retired_empty : (h.empty tid).retired tid =
    match h.scan tid with
    | some (.free pos) => (h.retired tid).eraseIdx pos
    | _ => h.retired tid := by
  unfold empty
  split
  · rename_i hs
    rw [hs]
  · rename_i hs
    rw [hs]
    split_ifs <;> simp
  · rename_i hs
    rw [hs, retired_advance]
    exact Function.update_self _ _ _

/-- The members of the retired list after a step of a scan. -/
theorem mem_retired_empty (hn : (h.retired tid).Nodup) (hr : h.InRange) :
    y ∈ (h.empty tid).retired tid ↔ y ∈ h.retired tid ∧ h.freeing tid ≠ some y := by
  rw [retired_empty, freeing]
  split
  · rename_i pos hs
    have hpos : pos < (h.retired tid).length := hr tid _ hs
    rw [← hn.erase_getElem pos hpos, hn.mem_erase_iff, List.getElem?_eq_getElem hpos, and_comm]
    simp [eq_comm]
  · simp

theorem nodup_retired_empty (hn : (h.retired tid).Nodup) : ((h.empty tid).retired tid).Nodup := by
  rw [retired_empty]
  split
  · exact hn.sublist (List.eraseIdx_sublist _ _)
  · exact hn

/-- What one step of a scan does to the scan. -/
theorem scan_empty (k : Scan) (hk : (h.empty tid).scan tid = some k) :
    (∃ pos, k = .compare pos 0 ∧ pos < ((h.empty tid).retired tid).length) ∨
    (∃ pos i, h.scan tid = some (.compare pos i) ∧ (h.retired tid)[pos]? ≠ h.slots i ∧
      k = .compare pos (i + 1)) ∨
    ∃ pos i, h.scan tid = some (.compare pos i) ∧ taskNum * slotsPerThread ≤ i ∧ k = .free pos := by
  have hadvance {h' : HazardTracker α taskNum slotsPerThread freq} {pos : ℕ}
      (hk : (h'.advance pos tid).scan tid = some k) :
      ∃ pos, k = .compare pos 0 ∧ pos < (h'.retired tid).length := by
    rcases scan_advance h' pos tid with hs | ⟨q, hq, hs⟩
    · rw [hs] at hk
      cases hk
    · rw [hs] at hk
      exact ⟨q, (Option.some.inj hk).symm, hq⟩
  rw [retired_empty]
  unfold empty at hk
  split at hk
  · rename_i hs
    rw [hs] at hk
    cases hk
  · rename_i pos i hs
    rw [hs]
    split_ifs at hk with hi he
    · exact .inl (hadvance hk)
    · replace hk := (Function.update_self _ _ _).symm.trans hk
      exact .inr (.inl ⟨pos, i, rfl, he, (Option.some.inj hk).symm⟩)
    · replace hk := (Function.update_self _ _ _).symm.trans hk
      exact .inr (.inr ⟨pos, i, rfl, not_lt.mp hi, (Option.some.inj hk).symm⟩)
  · rename_i pos hs
    rw [hs]
    obtain ⟨q, hq, hlt⟩ := hadvance hk
    refine .inl ⟨q, hq, ?_⟩
    simpa only [Function.update_self] using hlt

theorem retired_empty_of_compare {i : ℕ} (hs : h.scan tid = some (.compare pos i)) :
    (h.empty tid).retired tid = h.retired tid := by
  rw [retired_empty, hs]

theorem inRange_empty (hr : h.InRange) : (h.empty tid).InRange := by
  intro u k hk
  rcases eq_or_ne u tid with rfl | hu
  · rcases scan_empty k hk with ⟨pos, rfl, hlt⟩ | ⟨pos, i, hs, -, rfl⟩ | ⟨pos, i, hs, -, rfl⟩
    · exact hlt
    · rw [retired_empty_of_compare hs]
      exact hr u (.compare pos i) hs
    · rw [retired_empty_of_compare hs]
      exact hr u (.compare pos i) hs
  · rw [retired_empty_of_ne hu]
    rw [scan_empty_of_ne hu] at hk
    exact hr u k hk

theorem Spares.empty (hg : h.Spares tid j x) (hj : j < taskNum * slotsPerThread)
    (hold : h.slots j = some x) : (h.empty tid).Spares tid j x := by
  constructor
  · intro pos i hk hp
    rcases scan_empty _ hk with ⟨q, hq, -⟩ | ⟨q, l, hs, hne, hq⟩ | ⟨q, l, -, -, hq⟩
    · cases hq
      exact Nat.zero_le j
    · cases hq
      rw [retired_empty_of_compare hs] at hp
      -- The slot just compared is not the protecting one, so the scan has not passed that yet.
      have hle := hg.compare _ l hs hp
      have hlj : l ≠ j := by
        intro hlj
        exact hne (by rw [hp, hlj, hold])
      omega
    · cases hq
  · intro pos hk hp
    rcases scan_empty _ hk with ⟨q, hq, -⟩ | ⟨q, l, -, -, hq⟩ | ⟨q, l, hs, hle, hq⟩
    · cases hq
    · cases hq
    · cases hq
      rw [retired_empty_of_compare hs] at hp
      have hlj := hg.compare _ l hs hp
      omega

theorem Guarded.empty (hg : h.Guarded j x) : (h.empty tid).Guarded j x where
  bound := hg.bound
  holds := by rw [slots_empty, hg.holds]
  spares u := by
    rcases eq_or_ne u tid with rfl | hu
    · exact (hg.spares u).empty hg.bound hg.holds
    · exact (hg.spares u).congr (scan_empty_of_ne hu) (retired_empty_of_ne hu)

section Work

/-- The comparisons a scan has left at its position, and the step after them. -/
def scanLeft (slots : ℕ) : Scan → ℕ
  | .compare _ i => slots - i + 1
  | .free _ => 0

/-- A bound on the steps of a scan over a list of a length. A scan starts over at the end of
the list only when it has freed the pointer there, and then the list is shorter. -/
def scanBound (slots length : ℕ) (k : Scan) : ℕ :=
  (length * length + (length - k.pos)) * (slots + 3) + scanLeft slots k + 1

/-- A bound on the steps of the scan a thread is in. -/
def work (h : HazardTracker α taskNum slotsPerThread freq) (tid : Fin taskNum) : ℕ :=
  match h.scan tid with
  | none => 0
  | some k => scanBound (taskNum * slotsPerThread) (h.retired tid).length k

omit [DecidableEq α] in
theorem work_le (h : HazardTracker α taskNum slotsPerThread freq) (tid : Fin taskNum) :
    h.work tid ≤ scanBound (taskNum * slotsPerThread) (h.retired tid).length (.compare 0 0) := by
  unfold work
  cases h.scan tid with
  | none => exact Nat.zero_le _
  | some k =>
    have hleft : scanLeft (taskNum * slotsPerThread) k ≤ taskNum * slotsPerThread + 1 := by
      cases k <;> simp [scanLeft]
    have hpos : (h.retired tid).length - k.pos ≤ (h.retired tid).length := Nat.sub_le _ _
    have hmul := Nat.mul_le_mul_right (taskNum * slotsPerThread + 3)
      (Nat.add_le_add_left hpos ((h.retired tid).length * (h.retired tid).length))
    change _ ≤ ((h.retired tid).length * (h.retired tid).length + ((h.retired tid).length - 0)) *
      (taskNum * slotsPerThread + 3) + (taskNum * slotsPerThread - 0 + 1) + 1
    rw [Nat.sub_zero, Nat.sub_zero]
    change (_ + ((h.retired tid).length - k.pos)) * _ + _ + 1 ≤ _
    omega

omit [DecidableEq α] in
/-- The iterator goes one position on, or it comes to the end. -/
theorem work_advance (hp : pos < (h.retired tid).length) : (h.advance pos tid).work tid <
    scanBound (taskNum * slotsPerThread) (h.retired tid).length (.free pos) := by
  unfold advance
  split_ifs with he
  · simp [work, scanBound]
  · have hnext : increment (h.retired tid).length pos = pos + 1 := Nat.mod_eq_of_lt (by omega)
    simp only [work, Function.update_self, scanBound, Scan.pos, scanLeft, hnext, Nat.sub_zero]
    obtain ⟨d, hd⟩ := Nat.exists_eq_add_of_lt hp
    have hold : (h.retired tid).length - pos = d + 1 := by omega
    have hnew : (h.retired tid).length - (pos + 1) = d := by omega
    rw [hold, hnew]
    nlinarith

/-- A step of a scan leaves less of it to do. -/
theorem work_empty (hr : h.InRange) (hs : h.scan tid ≠ none) :
    (h.empty tid).work tid < h.work tid := by
  obtain ⟨k, hk⟩ := Option.ne_none_iff_exists'.mp hs
  have hpos := hr tid k hk
  have hwork : h.work tid = scanBound (taskNum * slotsPerThread) (h.retired tid).length k := by
    rw [work, hk]
  rw [hwork, empty, hk]
  cases k with
  | compare pos i =>
    have hfree : scanBound (taskNum * slotsPerThread) (h.retired tid).length (.free pos) <
        scanBound (taskNum * slotsPerThread) (h.retired tid).length (.compare pos i) := by
      simp only [scanBound, Scan.pos, scanLeft]
      omega
    dsimp only
    split_ifs with hi
    · exact (work_advance hpos).trans hfree
    · simp only [work, Function.update_self, scanBound, Scan.pos, scanLeft]
      omega
    · simp only [work, Function.update_self]
      exact hfree
  | free pos =>
    dsimp only
    refine (work_le _ tid).trans_lt ?_
    simp only [Scan.pos] at hpos
    obtain ⟨d, hd⟩ := Nat.exists_eq_add_of_lt hpos
    simp only [retired_advance, Function.update_self, List.length_eraseIdx_of_lt hpos, scanBound,
      Scan.pos, scanLeft, Nat.sub_zero]
    have hlen : (h.retired tid).length - 1 = pos + d := by omega
    have hold : (h.retired tid).length - pos = d + 1 := by omega
    rw [hlen, hold, hd]
    have hshort : (pos + d) * (pos + d) + (pos + d) + 1 ≤
        (pos + d + 1) * (pos + d + 1) + (d + 1) := by
      ring_nf
      omega
    have hmul := Nat.mul_le_mul_right (taskNum * slotsPerThread + 3) hshort
    rw [Nat.succ_mul] at hmul
    omega

end Work

end HazardTracker
end UnboundedDeque
