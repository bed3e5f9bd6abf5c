import UnboundedDeque.ElimTableMachine

/-!
# Which slots the elimination scan visits

The scan count of a call starts at the number of threads and is doubled in 32 bits
after every round that fails, so it becomes zero or negative after enough of them.
-/
namespace UnboundedDeque.ElimTable

/-- `backoffScanCount` after a number of failed rounds. -/
def backoffScanCount (n : ℤ) (k : ℕ) : ℤ := (fun x => toInt (2 * x))^[k] n

/-- A scan visits the slot of every other thread exactly once, and no slot that
does not exist. -/
structure ScansAll (n tid : ℤ) (visited : List ℤ) : Prop where
  inRange : ∀ i ∈ visited, 0 ≤ i ∧ i < n
  once : ∀ i, 0 ≤ i → i < n → i ≠ tid → visited.count i = 1

theorem toInt_of_lt {x : ℤ} (h0 : 0 ≤ x) (h : x < 2 ^ 31) : toInt x = x :=
  Int.bmod_eq_of_le (by omega) (by omega)

theorem toInt_lt (x : ℤ) : toInt x < 2 ^ 31 := by
  have h := Int.bmod_lt (x := x) (m := 2 ^ 32) (by decide)
  rw [toInt]
  omega

theorem backoffScanCount_eq {n : ℤ} (h0 : 0 ≤ n) (h : n < 2 ^ 31) (k : ℕ) :
    backoffScanCount n k = toInt (n * 2 ^ k) := by
  induction k with
  | zero => rw [pow_zero, mul_one, toInt_of_lt h0 h]; rfl
  | succ k ih =>
    rw [backoffScanCount, Function.iterate_succ_apply', ← backoffScanCount, ih, toInt, toInt, toInt,
      Int.mul_bmod_bmod, pow_succ]
    congr 1
    ring

theorem nextRand_lt (r : UInt32) : (nextRand r).toNat < 32768 := by
  rw [nextRand, UInt32.toNat_mod]
  exact Nat.mod_lt _ (by decide)

section Indices

variable {n m s j j' : ℕ} {tid : ℤ}

/-- The index of a step of the scan while the sum stays within 31 bits. -/
theorem index_of_lt (h : s + j < 2 ^ 31) : (toInt ((s : ℤ) + j)).tmod n = ((s + j) % n : ℕ) := by
  rw [toInt_of_lt (by omega) (by exact_mod_cast h), Int.tmod_eq_emod_of_nonneg (by omega)]
  push_cast
  rfl

theorem index_injective (hj : j < n) (hj' : j' < n) (h : (s + j) % n = (s + j') % n) : j = j' := by
  have hm : j ≡ j' [MOD n] := Nat.ModEq.add_left_cancel' s h
  rwa [Nat.ModEq, Nat.mod_eq_of_lt hj, Nat.mod_eq_of_lt hj'] at hm

/-- Every index comes up once in a full round. -/
theorem exists_index (s : ℕ) {i : ℕ} (hi : i < n) : ∃ j < n, (s + j) % n = i := by
  have hs := Nat.mod_lt s (Nat.pos_of_ne_zero (by omega : n ≠ 0))
  have hdiv := Nat.div_add_mod s n
  by_cases hle : s % n ≤ i
  · refine ⟨i - s % n, by omega, ?_⟩
    rw [show s + (i - s % n) = i + n * (s / n) by omega, Nat.add_mul_mod_self_left,
      Nat.mod_eq_of_lt hi]
  · refine ⟨i + n - s % n, by omega, ?_⟩
    rw [show s + (i + n - s % n) = i + n * (s / n + 1) by rw [Nat.mul_add]; omega,
      Nat.add_mul_mod_self_left, Nat.mod_eq_of_lt hi]

/-- The number of times an index is visited. -/
theorem count_visited (hm : m ≤ n) (hs : s + m ≤ 2 ^ 31) {i : ℕ} (hi : (i : ℤ) ≠ tid) :
    (((List.range m).map fun j : ℕ => (toInt ((s : ℤ) + j)).tmod n).filter (· ≠ tid)).count (i : ℤ) =
      if ∃ j < m, (s + j) % n = i then 1 else 0 := by
  have hmap : (List.range m).map (fun j : ℕ => (toInt ((s : ℤ) + j)).tmod n) =
      (List.range m).map fun j => (((s + j) % n : ℕ) : ℤ) := by
    apply List.map_congr_left
    intro j hj
    exact index_of_lt (by have := List.mem_range.mp hj; omega)
  have hnodup : ((List.range m).map fun j => (((s + j) % n : ℕ) : ℤ)).Nodup := by
    refine List.Nodup.map_on (fun j hj j' hj' h => ?_) List.nodup_range
    rw [List.mem_range] at hj hj'
    exact index_injective (n := n) (s := s) (by omega) (by omega) (by exact_mod_cast h)
  rw [hmap, List.count_filter (by simpa using hi), hnodup.count]
  refine if_congr ?_ rfl rfl
  simp only [List.mem_map, List.mem_range, Nat.cast_inj]

/-- The indices a scan of a number of steps visits. -/
def visited (n m s : ℕ) (tid : ℤ) : List ℤ :=
  ((List.range m).map fun j : ℕ => (toInt ((s : ℤ) + j)).tmod n).filter (· ≠ tid)

/-- A sum beyond 31 bits gives a negative index. -/
theorem not_scansAll_of_overflow (hn : n < 2 ^ 31) (hs : s < 32768) (hm : m ≤ n)
    (ht : 0 ≤ tid) (h : 2 ^ 31 < s + m) : ¬ScansAll n tid (visited n m s tid) := by
  intro hall
  have hsum : ((s : ℤ) + (2 ^ 31 - s : ℕ)) = 2 ^ 31 := by omega
  have hneg : (toInt ((s : ℤ) + (2 ^ 31 - s : ℕ))).tmod n = -(2 ^ 31 - n) := by
    rw [hsum, show toInt (2 ^ 31) = -2 ^ 31 by decide, Int.neg_tmod,
      Int.tmod_eq_emod_of_nonneg (by decide), neg_inj, ← Int.sub_emod_right]
    exact Int.emod_eq_of_lt (by omega) (by omega)
  have hmem : -(2 ^ 31 - n : ℤ) ∈ visited n m s tid := by
    refine List.mem_filter.mpr ⟨List.mem_map.mpr ⟨2 ^ 31 - s, ?_, hneg⟩, ?_⟩
    · exact List.mem_range.mpr (by omega)
    · simp only [ne_eq, decide_eq_true_eq]
      omega
  have := (hall.inRange _ hmem).1
  omega

/-- Without such a sum the scan visits every other slot once if every index comes
up in its steps, its own apart. -/
theorem scansAll_iff (hm : m ≤ n) (hs : s + m ≤ 2 ^ 31) :
    ScansAll n tid (visited n m s tid) ↔
      ∀ i < n, (i : ℤ) ≠ tid → ∃ j < m, (s + j) % n = i := by
  constructor
  · intro hall i hi hne
    have hc := hall.once i (by omega) (by exact_mod_cast hi) hne
    rw [visited, count_visited hm hs hne] at hc
    by_contra hno
    rw [if_neg hno] at hc
    cases hc
  · intro hall
    constructor
    · intro i hi
      obtain ⟨hi, -⟩ := List.mem_filter.mp hi
      obtain ⟨j, hj, rfl⟩ := List.mem_map.mp hi
      rw [List.mem_range] at hj
      rw [index_of_lt (by omega)]
      exact ⟨by positivity, by exact_mod_cast Nat.mod_lt _ (by omega)⟩
    · intro i h0 hi hne
      lift i to ℕ using h0
      rw [visited, count_visited hm hs hne, if_pos (hall i (by exact_mod_cast hi) hne)]

/-- One index at most may be left out, and only the thread's own. -/
theorem covers_iff (hm : m ≤ n) (hn : 2 ≤ n) :
    (∀ i < n, (i : ℤ) ≠ tid → ∃ j < m, (s + j) % n = i) ↔
      m = n ∨ m = n - 1 ∧ ((s + (n - 1)) % n : ℕ) = tid := by
  constructor
  · intro hall
    have hout (j : ℕ) (hmj : m ≤ j) (hj : j < n) : (((s + j) % n : ℕ) : ℤ) = tid := by
      by_contra hne
      obtain ⟨l, hl, he⟩ := hall _ (Nat.mod_lt _ (by omega)) hne
      have := index_injective (by omega) hj he
      omega
    rcases Nat.lt_or_ge m n with hlt | hge
    · right
      have hlast := hout (n - 1) (by omega) (by omega)
      refine ⟨?_, hlast⟩
      by_contra hne
      have hprev := hout (n - 2) (by omega) (by omega)
      have := index_injective (show n - 2 < n by omega) (show n - 1 < n by omega)
        (by exact_mod_cast hprev.trans hlast.symm)
      omega
    · exact .inl (by omega)
  · rintro (rfl | ⟨rfl, htid⟩) i hi hne
    · exact exists_index s hi
    · obtain ⟨j, hj, he⟩ := exists_index s hi
      refine ⟨j, ?_, he⟩
      by_contra hge
      obtain rfl : j = n - 1 := by omega
      exact hne (by rw [← he, htid])

/-- The scan of the round after `k` failed ones visits every other slot once, and
none outside the table, exactly if there is no other thread, or the doubled count
is still at least the number of threads, or it is one less and the one index left
out is the thread's own; and no sum exceeds 31 bits. -/
theorem scan_visits_all_iff (n tid k : ℕ) (r : UInt32) (hn : 1 ≤ n) (hn' : n < 2 ^ 31)
    (htid : tid < n) :
    ScansAll n tid (scanIndices n (backoffScanCount n k) (nextRand r).toNat tid) ↔
      n = 1 ∨
      (n ≤ toInt (n * 2 ^ k) ∧ (nextRand r).toNat + n ≤ 2 ^ 31) ∨
      (toInt (n * 2 ^ k) = n - 1 ∧ (nextRand r).toNat + (n - 1) ≤ 2 ^ 31 ∧
        ((nextRand r).toNat + (n - 1)) % n = tid) := by
  have hs := nextRand_lt r
  have hc := toInt_lt (n * 2 ^ k)
  generalize (nextRand r).toNat = s at hs ⊢
  rw [backoffScanCount_eq (by omega) (by exact_mod_cast hn')]
  generalize toInt (n * 2 ^ k) = c at hc ⊢
  obtain ⟨m, hm⟩ : ∃ m, m = (if (n : ℤ) < c then (n : ℤ) else c).toNat := ⟨_, rfl⟩
  have hvisited : scanIndices n c s tid = visited n m s tid := by
    rw [hm]
    rfl
  have hmn : m ≤ n := by
    rw [hm]
    split_ifs <;> omega
  have hfull : m = n ↔ (n : ℤ) ≤ c := by
    rw [hm]
    split_ifs <;> omega
  rw [hvisited]
  rcases Nat.lt_or_ge 1 n with hlarge | hone
  · have hmiss : m = n - 1 ↔ c = n - 1 := by
      rw [hm]
      split_ifs <;> omega
    rcases Nat.lt_or_ge (2 ^ 31) (s + m) with hover | hin
    · refine iff_of_false (not_scansAll_of_overflow hn' hs hmn (by omega) hover) ?_
      rintro (rfl | ⟨hle, hsn⟩ | ⟨hcn, hsn, -⟩)
      · omega
      · have := hfull.mpr hle
        omega
      · have := hmiss.mpr hcn
        omega
    · rw [scansAll_iff hmn hin, covers_iff hmn (by omega), hfull, hmiss]
      constructor
      · rintro (hle | ⟨hcn, htid⟩)
        · have := hfull.mpr hle
          exact .inr (.inl ⟨hle, by omega⟩)
        · have := hmiss.mpr hcn
          exact .inr (.inr ⟨hcn, by omega, by exact_mod_cast htid⟩)
      · rintro (rfl | ⟨hle, -⟩ | ⟨hcn, -, htid⟩)
        · omega
        · exact .inl hle
        · exact .inr ⟨hcn, by exact_mod_cast htid⟩
  · obtain rfl : n = 1 := by omega
    refine iff_of_true ((scansAll_iff hmn (by omega)).mpr fun i hi hne => ?_) (.inl rfl)
    omega

end Indices

/-- With three threads the third round visits the slots of the other two. -/
theorem scan_visits_all_third :
    ScansAll (3 : ℕ) (1 : ℕ) (scanIndices (3 : ℕ) (backoffScanCount (3 : ℕ) 2) (nextRand 12345).toNat (1 : ℕ)) :=
  (scan_visits_all_iff 3 1 2 12345 (by decide) (by decide) (by decide)).mpr
    (.inr (.inl ⟨by decide, by decide⟩))

/-- With two threads nothing is visited after 31 failed rounds. -/
theorem scan_gives_up :
    ¬ScansAll (2 : ℕ) (0 : ℕ) (scanIndices (2 : ℕ) (backoffScanCount (2 : ℕ) 31) (nextRand 0).toNat (0 : ℕ)) := by
  intro hall
  have hnone : scanIndices (2 : ℕ) (backoffScanCount (2 : ℕ) 31) (nextRand 0).toNat (0 : ℕ) = [] := by
    decide +kernel
  have hone := hall.once 1 (by decide) (by decide) (by decide)
  rw [hnone] at hone
  cases hone

end UnboundedDeque.ElimTable
