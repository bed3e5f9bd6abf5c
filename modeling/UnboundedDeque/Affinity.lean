import Mathlib

/-!
# The affinity policies of `TestConfig.cpp`

`readAffinity` assigns a core to every thread by one of four policies or by a list in the
affinity file. An `int` is an integer here: the vector of the affinities bounds the number
of threads long before these formulas leave the range of an `int`.
-/
namespace UnboundedDeque.TestConfig

/-- The policies with a name. -/
inductive Policy
  | ordered | single | evenOdds | evenOddsLowHi
  deriving DecidableEq, Repr

/-- The first line of an affinity file that selects the policy. -/
def Policy.name : Policy → String
  | .ordered => "ORDERED"
  | .single => "SINGLE"
  | .evenOdds => "EVEN_ODDS"
  | .evenOddsLowHi => "EVEN_ODDS_LOW_HI"

/-- `buildEvenOddAffinity` for one thread. -/
def evenOddCore (num_procs i : ℤ) : ℤ :=
  if i < num_procs.tdiv 2 then i * 2 else (i - num_procs.tdiv 2) * 2 + 1

/-- `buildEvenOddLoHiAffinity` for one thread. -/
def evenOddLoHiCore (num_procs i : ℤ) : ℤ :=
  if i < num_procs.tdiv 4 then i * 2
  else if i < num_procs.tdiv 2 then (i - num_procs.tdiv 4) * 2 + 1
  else if i < (3 * num_procs).tdiv 4 then (i - num_procs.tdiv 2) * 2 + num_procs.tdiv 2
  else (i - num_procs.tdiv 2) * 2 + 1

def Policy.core (num_procs i : ℤ) : Policy → ℤ
  | .ordered => i.tmod num_procs
  | .single => 0
  | .evenOdds => evenOddCore num_procs i
  | .evenOddsLowHi => evenOddLoHiCore num_procs i

/-- `buildOrderedAffinity`, `buildSingleAffinity`, `buildEvenOddAffinity` and
`buildEvenOddLoHiAffinity`. -/
def Policy.build (policy : Policy) (task_num : ℕ) (num_procs : ℤ) : List ℤ :=
  (List.range task_num).map fun i : ℕ => policy.core num_procs i

/-- A sign and digits. -/
def isInteger (token : List Char) : Bool :=
  let digits := match token with
    | '-' :: rest | '+' :: rest => rest
    | rest => rest
  !digits.isEmpty && digits.all Char.isDigit

/-- `atoi` for the numbers of an `int`; for others C does not say what it returns. -/
def atoi (token : List Char) : ℤ :=
  let number (digits : List Char) : ℤ :=
    digits.foldl (fun n d => 10 * n + (d.toNat - '0'.toNat : ℕ)) 0
  match token with
  | '-' :: rest => -number rest
  | '+' :: rest => number rest
  | rest => number rest

/-- The tokens `std::getline` reads: nothing follows a comma at the end. -/
def tokens (input : String) : List (List Char) :=
  let parts := input.toList.splitOn ','
  if parts.getLast? = some [] then parts.dropLast else parts

/-- The list in an affinity file. -/
def listedAffinity (input : String) (task_num : ℕ) : Except String (List ℤ) :=
  let read := (tokens input).take task_num
  if read.all isInteger then
    if read.length = task_num then .ok (read.map atoi)
    else .error "Affinity file is not long enough for all threads."
  else .error "Affinity file contains illegal value."

/-- `readAffinity` with the first line of the affinity file, if there is one. -/
def readAffinity (file : Option String) (task_num : ℕ) (num_procs : ℤ) :
    Except String (List ℤ) :=
  match file with
  | none => .error "Affinity file does not exist."
  | some input =>
    let affinities :=
      if input = "ORDERED" then .ok (Policy.ordered.build task_num num_procs)
      else if input = "SINGLE" then .ok (Policy.single.build task_num num_procs)
      else if input = "EVEN_ODDS" then .ok (Policy.evenOdds.build task_num num_procs)
      else if input = "EVEN_ODDS_LOW_HI" then .ok (Policy.evenOddsLowHi.build task_num num_procs)
      else listedAffinity input task_num
    affinities.map fun l => l.map fun c => c.tmod num_procs

/-- All threads have a core, and the first ones have different cores. -/
def Spread (task_num : ℕ) (num_procs : ℤ) (result : Except String (List ℤ)) : Prop :=
  ∃ affinities, result = .ok affinities ∧ affinities.length = task_num ∧
    (∀ c ∈ affinities, 0 ≤ c ∧ c < num_procs) ∧
      (affinities.take (min task_num num_procs.toNat)).Nodup

/-- The numbers of cores and threads for which a policy spreads the threads. -/
def Policy.Fits (task_num : ℕ) (num_procs : ℤ) : Policy → Prop
  | .ordered => True
  | .single => task_num ≤ 1 ∨ num_procs = 1
  | .evenOdds => num_procs % 2 = 0 ∨ num_procs = 1 ∨ task_num < num_procs
  | .evenOddsLowHi => num_procs % 4 = 0 ∨ num_procs = 1 ∨
    (num_procs % 4 = 1 ∧ task_num < num_procs) ∨ task_num ≤ num_procs / 2

variable {task_num : ℕ} {num_procs i j : ℤ} {policy : Policy}

theorem readAffinity_name (policy : Policy) (task_num : ℕ) (num_procs : ℤ) :
    readAffinity (some policy.name) task_num num_procs =
      .ok ((policy.build task_num num_procs).map fun c => c.tmod num_procs) := by
  cases policy <;> rfl

section Cores

theorem core_evenOdds (h : 1 ≤ num_procs) : Policy.evenOdds.core num_procs i =
    if i < num_procs / 2 then i * 2 else (i - num_procs / 2) * 2 + 1 := by
  change evenOddCore num_procs i = _
  rw [evenOddCore, Int.tdiv_eq_ediv_of_nonneg (by omega)]

theorem core_evenOddsLowHi (h : 1 ≤ num_procs) : Policy.evenOddsLowHi.core num_procs i =
    if i < num_procs / 4 then i * 2
    else if i < num_procs / 2 then (i - num_procs / 4) * 2 + 1
    else if i < 3 * num_procs / 4 then (i - num_procs / 2) * 2 + num_procs / 2
    else (i - num_procs / 2) * 2 + 1 := by
  change evenOddLoHiCore num_procs i = _
  rw [evenOddLoHiCore, Int.tdiv_eq_ediv_of_nonneg (by omega), Int.tdiv_eq_ediv_of_nonneg (by omega),
    Int.tdiv_eq_ediv_of_nonneg (by omega)]

theorem core_nonneg (h : 1 ≤ num_procs) (hi : 0 ≤ i) : 0 ≤ policy.core num_procs i := by
  cases policy with
  | ordered => exact Int.tmod_nonneg _ hi
  | single => exact le_rfl
  | evenOdds =>
    rw [core_evenOdds h]
    split_ifs <;> omega
  | evenOddsLowHi =>
    rw [core_evenOddsLowHi h]
    split_ifs <;> omega

/-- Where a policy spreads the threads, no formula gives the core after the last one. -/
theorem core_lt (h : 2 ≤ num_procs) (hfit : policy.Fits task_num num_procs)
    (hlt : i < num_procs) (ht : i < task_num) :
    policy.core num_procs i < num_procs := by
  cases policy with
  | ordered => exact Int.tmod_lt_of_pos _ (by omega)
  | single => exact (by omega : (0 : ℤ) < num_procs)
  | evenOdds =>
    simp only [Policy.Fits] at hfit
    rw [core_evenOdds (by omega)]
    split_ifs <;> omega
  | evenOddsLowHi =>
    simp only [Policy.Fits] at hfit
    rw [core_evenOddsLowHi (by omega)]
    split_ifs <;> omega

theorem core_ne (h : 2 ≤ num_procs) (hfit : policy.Fits task_num num_procs) (hi : 0 ≤ i)
    (hij : i < j) (hj : j < num_procs) (ht : j < task_num) :
    policy.core num_procs i ≠ policy.core num_procs j := by
  cases policy with
  | ordered =>
    change i.tmod num_procs ≠ j.tmod num_procs
    rw [Int.tmod_eq_of_lt hi (by omega), Int.tmod_eq_of_lt (by omega) hj]
    exact hij.ne
  | single =>
    simp only [Policy.Fits] at hfit
    omega
  | evenOdds =>
    simp only [Policy.Fits] at hfit
    rw [core_evenOdds (by omega), core_evenOdds (by omega)]
    split_ifs <;> omega
  | evenOddsLowHi =>
    simp only [Policy.Fits] at hfit
    rw [core_evenOddsLowHi (by omega), core_evenOddsLowHi (by omega)]
    split_ifs <;> omega

/-- Two of the first threads have different cores. -/
theorem tmod_core_ne (hfit : policy.Fits task_num num_procs) (hi : 0 ≤ i)
    (hij : i < j) (hj : j < num_procs) (ht : j < task_num) :
    (policy.core num_procs i).tmod num_procs ≠ (policy.core num_procs j).tmod num_procs := by
  have h : 2 ≤ num_procs := by omega
  have hcore (k : ℤ) (hk : 0 ≤ k) (hkj : k ≤ j) :
      (policy.core num_procs k).tmod num_procs = policy.core num_procs k :=
    Int.tmod_eq_of_lt (core_nonneg (by omega) hk) (core_lt h hfit (by omega) (by omega))
  rw [hcore i hi hij.le, hcore j (by omega) le_rfl]
  exact core_ne h hfit hi hij hj ht

/-- The first and the last of the first threads share a core if a formula gives the core after
the last one. -/
theorem shared_core_of_last (h : 2 ≤ num_procs) (ht : num_procs ≤ task_num)
    (hfirst : policy.core num_procs 0 = 0)
    (hlast : policy.core num_procs (num_procs - 1) = num_procs) :
    ∃ i j : ℕ, i < j ∧ (j : ℤ) < num_procs ∧ j < task_num ∧
      (policy.core num_procs i).tmod num_procs = (policy.core num_procs j).tmod num_procs := by
  have hcast : ((num_procs - 1).toNat : ℤ) = num_procs - 1 := Int.toNat_of_nonneg (by omega)
  refine ⟨0, (num_procs - 1).toNat, by omega, by omega, by omega, ?_⟩
  rw [hcast, Nat.cast_zero, hfirst, hlast, Int.zero_tmod, Int.tmod_self]

/-- Otherwise two of the first threads share a core. -/
theorem exists_shared_core (h : 1 ≤ num_procs) (hfit : ¬policy.Fits task_num num_procs) :
    ∃ i j : ℕ, i < j ∧ (j : ℤ) < num_procs ∧ j < task_num ∧
      (policy.core num_procs i).tmod num_procs = (policy.core num_procs j).tmod num_procs := by
  cases policy with
  | ordered => exact absurd trivial hfit
  | single =>
    simp only [Policy.Fits, not_or, not_le] at hfit
    exact ⟨0, 1, by omega, by omega, hfit.1, rfl⟩
  | evenOdds =>
    simp only [Policy.Fits, not_or, not_lt] at hfit
    refine shared_core_of_last (by omega) hfit.2.2 ?_ ?_
    · rw [core_evenOdds h]
      split_ifs <;> omega
    · rw [core_evenOdds h]
      split_ifs <;> omega
  | evenOddsLowHi =>
    simp only [Policy.Fits, not_or, not_and, not_lt, not_le] at hfit
    by_cases hone : num_procs % 4 = 1
    · refine shared_core_of_last (by omega) (hfit.2.2.1 hone) ?_ ?_
      · rw [core_evenOddsLowHi h]
        split_ifs <;> omega
      · rw [core_evenOddsLowHi h]
        split_ifs <;> omega
    · -- the last thread of the lower half and the first one of the upper half
      have hlower : Policy.evenOddsLowHi.core num_procs (num_procs / 2 - 1) = num_procs / 2 := by
        rw [core_evenOddsLowHi h]
        split_ifs <;> omega
      have hupper : Policy.evenOddsLowHi.core num_procs (num_procs / 2) = num_procs / 2 := by
        rw [core_evenOddsLowHi h]
        split_ifs <;> omega
      have hi : ((num_procs / 2 - 1).toNat : ℤ) = num_procs / 2 - 1 :=
        Int.toNat_of_nonneg (by omega)
      have hj : ((num_procs / 2).toNat : ℤ) = num_procs / 2 := Int.toNat_of_nonneg (by omega)
      refine ⟨(num_procs / 2 - 1).toNat, (num_procs / 2).toNat, by omega, by omega, by omega, ?_⟩
      rw [hi, hj, hlower, hupper]

end Cores

/-- A policy spreads the threads exactly for these numbers of cores and threads. -/
theorem spread_iff (h : 1 ≤ num_procs) (policy : Policy) (task_num : ℕ) :
    Spread task_num num_procs (readAffinity (some policy.name) task_num num_procs) ↔
      policy.Fits task_num num_procs := by
  rw [readAffinity_name, Policy.build, List.map_map]
  have htake : (((List.range task_num).map ((fun c : ℤ => c.tmod num_procs) ∘
      fun i : ℕ => policy.core num_procs i)).take (min task_num num_procs.toNat)) =
      (List.range (min task_num num_procs.toNat)).map ((fun c : ℤ => c.tmod num_procs) ∘
        fun i : ℕ => policy.core num_procs i) := by
    rw [← List.map_take, List.take_range, min_eq_left (min_le_left _ _)]
  constructor
  · rintro ⟨affinities, he, -, -, hnodup⟩
    cases he
    rw [htake] at hnodup
    by_contra hfit
    obtain ⟨i, j, hij, hj, ht, hcore⟩ := exists_shared_core h hfit
    have heq := List.inj_on_of_nodup_map hnodup (List.mem_range.mpr (by omega : i < _))
      (List.mem_range.mpr (by omega : j < _)) hcore
    omega
  · intro hfit
    refine ⟨_, rfl, by rw [List.length_map, List.length_range], ?_, ?_⟩
    · intro c hc
      obtain ⟨i, -, rfl⟩ := List.mem_map.mp hc
      exact ⟨Int.tmod_nonneg _ (core_nonneg h (by omega)), Int.tmod_lt_of_pos _ h⟩
    · rw [htake]
      refine List.Nodup.map_on (fun i hi j hj he => ?_) List.nodup_range
      rw [List.mem_range] at hi hj
      rcases lt_trichotomy i j with hlt | heq | hgt
      · exact absurd he (tmod_core_ne hfit (by omega) (by omega) (by omega) (by omega))
      · exact heq
      · exact absurd he.symm (tmod_core_ne hfit (by omega) (by omega) (by omega) (by omega))

theorem spread_six_cores : Spread 6 6 (readAffinity (some "EVEN_ODDS") 6 6) :=
  (spread_iff (by decide) .evenOdds 6).mpr (.inl (by decide))

/-- With three cores the first and the third thread share a core. -/
theorem not_spread_three_cores : ¬∀ policy, policy ≠ Policy.single → ∀ num_procs : ℤ, 1 ≤ num_procs →
    ∀ task_num : ℕ, 1 ≤ task_num →
      Spread task_num num_procs (readAffinity (some policy.name) task_num num_procs) := by
  intro hall
  obtain ⟨affinities, he, -, -, hnodup⟩ := hall .evenOdds (by decide) 3 (by decide) 3 (by decide)
  have hread : readAffinity (some Policy.evenOdds.name) 3 3 = .ok [0, 1, 0] := by
    rw [readAffinity_name]
    decide
  rw [hread] at he
  cases he
  exact absurd hnodup (by decide)

end UnboundedDeque.TestConfig
