import Mathlib

/-!
# The blocks of `warmMemory`

The calls of `malloc` are numbered, and a block is the number of the call that returned
it. The pattern of successes and failures is a parameter.
-/
namespace UnboundedDeque.HarnessUtils

/-- The books of the allocator, the latest entries first. -/
structure Heap where
  calls : ℕ
  returned : List ℕ
  freed : List ℕ
  deriving DecidableEq

def malloc (ok : ℕ → Bool) (h : Heap) : Option ℕ × Heap :=
  if ok h.calls then (some h.calls, ⟨h.calls + 1, h.calls :: h.returned, h.freed⟩)
  else (none, { h with calls := h.calls + 1 })

def free (h : Heap) (ptr : ℕ) : Heap := { h with freed := ptr :: h.freed }

/-- `toAlloc`: `megabytes*(2<<20)` is computed in 32 bits, and the quotient becomes
an `int`. -/
def toAlloc (megabytes : UInt32) (blockSize : ℕ+) : ℤ :=
  ((megabytes * 2097152).toNat / (blockSize : ℕ) : ℤ).bmod (2 ^ 32)

/-- The loop that allocates, with the number of rounds that are left. `allocd` has its
back first. -/
def allocLoop (ok : ℕ → Bool) : ℕ → Heap → List ℕ → Heap × List ℕ × ℤ
  | 0, h, allocd => (h, allocd, 0)
  | rounds + 1, h, allocd =>
    let (ptr, h₁) := malloc ok h
    let (ptr2, h₂) := malloc ok h₁
    let (ptr3, h₃) := malloc ok h₂
    match ptr, ptr2, ptr3 with
    | some p, some p2, some p3 => allocLoop ok rounds (free (free h₃ p2) p3) (p :: allocd)
    | _, _, _ => (h₃, allocd, -1)

/-- The loop that frees; `none` when the empty list is popped. -/
def freeLoop : ℕ → Heap → List ℕ → Option Heap
  | 0, h, _ => some h
  | _ + 1, _, [] => none
  | rounds + 1, h, ptr :: allocd => freeLoop rounds (free h ptr) allocd

/-- Both loops for a number of blocks. -/
def warmBlocks (rounds : ℕ) (ok : ℕ → Bool) : Option (Heap × ℤ) :=
  let (h, allocd, ret) := allocLoop ok rounds ⟨0, [], []⟩ []
  (freeLoop rounds h allocd).map fun h => (h, ret)

def warmMemory (megabytes : UInt32) (blockSize : ℕ+) (ok : ℕ → Bool) : Option (Heap × ℤ) :=
  warmBlocks (toAlloc megabytes blockSize).toNat ok

/-- No empty list is popped, all blocks are freed once, and the result tells whether a
`malloc` has failed. -/
def KeepsBooks (ok : ℕ → Bool) (result : Option (Heap × ℤ)) : Prop :=
  ∃ h ret, result = some (h, ret) ∧ h.returned.Nodup ∧ h.freed.Perm h.returned ∧
    (ret = -1 ↔ ∃ k < h.calls, ok k = false)

variable {ok : ℕ → Bool} {h : Heap} {allocd : List ℕ} {rounds : ℕ}

/-- Blocks have the numbers of earlier calls, and those in the list are not freed. -/
structure Balanced (h : Heap) (allocd : List ℕ) : Prop where
  nodup : h.returned.Nodup
  earlier : ∀ b ∈ h.returned, b < h.calls
  perm : (allocd ++ h.freed).Perm h.returned

/-- The books after a round without a failure. -/
def Heap.afterRound (h : Heap) : Heap :=
  ⟨h.calls + 3, (h.calls + 2) :: (h.calls + 1) :: h.calls :: h.returned,
    (h.calls + 2) :: (h.calls + 1) :: h.freed⟩

theorem balanced_round (hb : Balanced h allocd) : Balanced h.afterRound (h.calls :: allocd) where
  nodup := by
    have hnew (k : ℕ) : h.calls + k ∉ h.returned := fun hk => by
      have hlt := hb.earlier _ hk
      omega
    simp only [Heap.afterRound, List.nodup_cons, List.mem_cons, not_or, hb.nodup, hnew 2, hnew 1]
    have hzero := hnew 0
    rw [add_zero] at hzero
    exact ⟨⟨by omega, by omega, not_false⟩, ⟨by omega, not_false⟩, hzero, trivial⟩
  earlier b hmem := by
    simp only [Heap.afterRound, List.mem_cons] at hmem ⊢
    rcases hmem with rfl | rfl | rfl | hmem
    · omega
    · omega
    · omega
    · have hlt := hb.earlier b hmem
      omega
  perm := by
    have hmid : (h.calls :: allocd ++ (h.calls + 2) :: (h.calls + 1) :: h.freed).Perm
        ((h.calls + 2) :: (h.calls + 1) :: h.calls :: (allocd ++ h.freed)) :=
      List.perm_middle.trans (List.perm_middle.cons _)
    exact hmid.trans (((hb.perm.cons _).cons _).cons _)

section Loops

theorem allocLoop_succ (h0 : ok h.calls = true) (h1 : ok (h.calls + 1) = true)
    (h2 : ok (h.calls + 2) = true) : allocLoop ok (rounds + 1) h allocd =
      allocLoop ok rounds h.afterRound (h.calls :: allocd) := by
  simp only [allocLoop, malloc, h0, h1, h2, if_true, free, Heap.afterRound]

/-- A failure ends the loop. -/
theorem allocLoop_stop (hfail : ¬(ok h.calls = true ∧ ok (h.calls + 1) = true ∧
    ok (h.calls + 2) = true)) : ∃ h', allocLoop ok (rounds + 1) h allocd = (h', allocd, -1) := by
  cases h0 : ok h.calls <;> cases h1 : ok (h.calls + 1) <;> cases h2 : ok (h.calls + 2)
  case true.true.true => exact absurd ⟨h0, h1, h2⟩ hfail
  all_goals simp [allocLoop, malloc, h0, h1, h2]

theorem allocLoop_all (hok : ∀ k < 3 * rounds, ok (h.calls + k) = true) (hb : Balanced h allocd) :
    ∃ h' allocd', allocLoop ok rounds h allocd = (h', allocd', 0) ∧ Balanced h' allocd' ∧
      allocd'.length = allocd.length + rounds ∧ h'.calls = h.calls + 3 * rounds := by
  induction rounds generalizing h allocd with
  | zero => exact ⟨h, allocd, rfl, hb, rfl, rfl⟩
  | succ rounds ih =>
    have hrest (k : ℕ) (hk : k < 3 * rounds) : ok (h.afterRound.calls + k) = true := by
      have hk' := hok (3 + k) (by omega)
      rwa [← add_assoc] at hk'
    obtain ⟨h', allocd', he, hb', hlen, hcalls⟩ := ih hrest (balanced_round hb)
    refine ⟨h', allocd', ?_, hb', ?_, ?_⟩
    · rw [allocLoop_succ (hok 0 (by omega)) (hok 1 (by omega)) (hok 2 (by omega)), he]
    · rw [hlen, List.length_cons]
      omega
    · rw [hcalls, Heap.afterRound]
      dsimp only
      omega

theorem allocLoop_short (hfail : ∃ k < 3 * rounds, ok (h.calls + k) = false) :
    ∃ h' allocd' ret, allocLoop ok rounds h allocd = (h', allocd', ret) ∧
      allocd'.length < allocd.length + rounds := by
  induction rounds generalizing h allocd with
  | zero =>
    obtain ⟨k, hk, -⟩ := hfail
    omega
  | succ rounds ih =>
    by_cases hround : ok h.calls = true ∧ ok (h.calls + 1) = true ∧ ok (h.calls + 2) = true
    · obtain ⟨h0, h1, h2⟩ := hround
      obtain ⟨k, hk, hbad⟩ := hfail
      have hlate : 3 ≤ k := by
        by_contra hlt
        have hcase : k = 0 ∨ k = 1 ∨ k = 2 := by omega
        rcases hcase with rfl | rfl | rfl
        · exact absurd (h0.symm.trans hbad) (by decide)
        · exact absurd (h1.symm.trans hbad) (by decide)
        · exact absurd (h2.symm.trans hbad) (by decide)
      have hnext : ok (h.afterRound.calls + (k - 3)) = false := by
        rw [← hbad, Heap.afterRound]
        congr 1
        dsimp only
        omega
      obtain ⟨h', allocd', ret, he, hlen⟩ := ih ⟨k - 3, by omega, hnext⟩
      refine ⟨h', allocd', ret, (allocLoop_succ h0 h1 h2).trans he, ?_⟩
      rw [List.length_cons] at hlen
      omega
    · obtain ⟨h', he⟩ : ∃ h', allocLoop ok (rounds + 1) h allocd = (h', allocd, -1) :=
        allocLoop_stop hround
      exact ⟨h', allocd, -1, he, by omega⟩

theorem freeLoop_short (hlen : allocd.length < rounds) : freeLoop rounds h allocd = none := by
  induction rounds generalizing h allocd with
  | zero => exact absurd hlen (Nat.not_lt_zero _)
  | succ rounds ih =>
    cases allocd with
    | nil => rfl
    | cons ptr allocd => exact ih (Nat.lt_of_succ_lt_succ hlen)

theorem freeLoop_all (hb : Balanced h allocd) (hlen : allocd.length = rounds) :
    ∃ h', freeLoop rounds h allocd = some h' ∧ Balanced h' [] ∧ h'.calls = h.calls := by
  induction allocd generalizing h rounds with
  | nil =>
    subst hlen
    exact ⟨h, rfl, hb, rfl⟩
  | cons ptr allocd ih =>
    subst hlen
    have hnext : Balanced (free h ptr) allocd :=
      ⟨hb.nodup, hb.earlier, List.perm_middle.trans hb.perm⟩
    exact ih hnext rfl

end Loops

theorem keepsBooks_blocks (hok : ∀ k < 3 * rounds, ok k = true) :
    KeepsBooks ok (warmBlocks rounds ok) := by
  have hstart : Balanced ⟨0, [], []⟩ [] :=
    ⟨List.nodup_nil, fun _ hb => absurd hb List.not_mem_nil, .refl _⟩
  have hok' (k : ℕ) (hk : k < 3 * rounds) : ok (0 + k) = true := by
    rw [zero_add]
    exact hok k hk
  obtain ⟨h, allocd, he, hb, hlen, hcalls⟩ := allocLoop_all hok' hstart
  rw [List.length_nil, zero_add] at hlen
  obtain ⟨h', hf, hb', hcalls'⟩ := freeLoop_all hb hlen
  refine ⟨h', 0, ?_, hb'.nodup, hb'.perm, iff_of_false (by decide) ?_⟩
  · simp only [warmBlocks, he, hf, Option.map_some]
  · rintro ⟨k, hk, hbad⟩
    rw [hcalls', hcalls, zero_add] at hk
    exact absurd ((hok k hk).symm.trans hbad) (by decide)

theorem warmBlocks_none (hfail : ∃ k < 3 * rounds, ok k = false) : warmBlocks rounds ok = none := by
  obtain ⟨k, hk, hbad⟩ := hfail
  have hbad' : ok (0 + k) = false := by rwa [zero_add]
  obtain ⟨h, allocd, ret, he, hlen⟩ : ∃ h allocd ret,
      allocLoop ok rounds ⟨0, [], []⟩ [] = (h, allocd, ret) ∧ allocd.length < [].length + rounds :=
    allocLoop_short ⟨k, hk, hbad'⟩
  rw [List.length_nil, zero_add] at hlen
  simp only [warmBlocks, he, freeLoop_short hlen, Option.map_none]

/-- `warmMemory` keeps its books exactly if no `malloc` fails. -/
theorem keepsBooks_iff (megabytes : UInt32) (blockSize : ℕ+) (ok : ℕ → Bool) :
    KeepsBooks ok (warmMemory megabytes blockSize ok) ↔
      ∀ k < 3 * (toAlloc megabytes blockSize).toNat, ok k = true := by
  constructor
  · rintro ⟨h, ret, hrun, -⟩ k hk
    by_contra hbad
    rw [Bool.not_eq_true] at hbad
    rw [warmMemory, warmBlocks_none ⟨k, hk, hbad⟩] at hrun
    cases hrun
  · exact keepsBooks_blocks

theorem toAlloc_one {blockSize : ℕ+} (hsize : (blockSize : ℕ) = 4096) :
    toAlloc 1 blockSize = 512 := by
  have hpreheat : ((1 : UInt32) * 2097152).toNat = 2097152 := by simp
  unfold toAlloc
  simp only [hpreheat, hsize]
  norm_num [Int.bmod]

/-- One megabyte in pages of 4096 bytes, and the first `malloc` fails. -/
theorem not_keepsBooks_of_failure : ¬∀ (megabytes : UInt32) (blockSize : ℕ+) (ok : ℕ → Bool),
    KeepsBooks ok (warmMemory megabytes blockSize ok) := by
  intro hall
  obtain ⟨blockSize, hsize⟩ : ∃ b : ℕ+, (b : ℕ) = 4096 := ⟨⟨4096, by norm_num⟩, rfl⟩
  obtain ⟨h, ret, hrun, -⟩ := hall 1 blockSize fun _ => false
  have hfail : ∃ k < 3 * (toAlloc 1 blockSize).toNat, (fun _ : ℕ => false) k = false := by
    rw [toAlloc_one hsize]
    exact ⟨0, by norm_num, rfl⟩
  rw [warmMemory, warmBlocks_none hfail] at hrun
  cases hrun

end UnboundedDeque.HarnessUtils
