import Mathlib

/-!
# The ids of `UIDGenerator`

An id holds the number of its thread in the low bits and its position in the
thread's sequence above them.
-/
namespace UnboundedDeque.UIDGenerator

/-- `tidBits = log2(taskNum)+1` -/
def tidBits (taskNum : ℕ) : ℕ := Nat.log 2 taskNum + 1

/-- `inc = 1<<tidBits` -/
def inc (taskNum : ℕ) : UInt32 := 1 <<< UInt32.ofNat (tidBits taskNum)

def initial (taskNum tid : ℕ) : UInt32 := UInt32.ofNat tid + inc taskNum

def next (taskNum : ℕ) (prev : UInt32) : UInt32 :=
  let ret := prev + inc taskNum
  if ret ||| (inc taskNum - 1) = 0xFFFFFFFF then 0 else ret

def count (taskNum : ℕ) (val : UInt32) : UInt32 := val >>> UInt32.ofNat (tidBits taskNum)

def id (taskNum : ℕ) (val : UInt32) : UInt32 := val % inc taskNum

variable {n tid c d : ℕ} {v w : UInt32}

/-- A value is the id of a thread at a position, and not the last one. -/
structure Nth (n tid c : ℕ) (v : UInt32) : Prop where
  pos : 1 ≤ c
  val : v.toNat = tid + c * 2 ^ tidBits n
  room : (c + 1) * 2 ^ tidBits n < 2 ^ 32

theorem tidBits_le (hn : n < 2 ^ 30) : tidBits n ≤ 30 := by
  rw [tidBits, Nat.succ_le_iff]
  rcases Nat.eq_zero_or_pos n with rfl | h0
  · simp
  · exact (Nat.log_lt_iff_lt_pow (by decide) h0.ne').mpr hn

theorem tidBits_two_pow (k : ℕ) : tidBits (2 ^ k) = k + 1 := by
  rw [tidBits, Nat.log_pow (by decide)]

theorem lt_two_pow_tidBits (n : ℕ) : n < 2 ^ tidBits n := Nat.lt_pow_succ_log_self (by decide) n

theorem two_pow_tidBits_le (hn : n < 2 ^ 30) : 2 ^ tidBits n ≤ 2 ^ 30 :=
  Nat.pow_le_pow_right (by decide) (tidBits_le hn)

theorem toNat_tidBits (hn : n < 2 ^ 30) : (UInt32.ofNat (tidBits n)).toNat = tidBits n := by
  have hle := tidBits_le hn
  rw [UInt32.toNat_ofNat']
  omega

theorem toNat_inc (hn : n < 2 ^ 30) : (inc n).toNat = 2 ^ tidBits n := by
  have hle := tidBits_le hn
  have hpow := two_pow_tidBits_le hn
  have hbits : tidBits n % 32 = tidBits n := Nat.mod_eq_of_lt (by omega)
  rw [inc, UInt32.toNat_shiftLeft, toNat_tidBits hn, hbits, Nat.shiftLeft_eq, UInt32.toNat_one, one_mul]
  exact Nat.mod_eq_of_lt (by omega)

theorem nth_initial (hn : n < 2 ^ 30) (ht : tid < n) : Nth n tid 1 (initial n tid) := by
  have hpow := two_pow_tidBits_le hn
  refine ⟨le_rfl, ?_, by omega⟩
  have htid : tid % 2 ^ 32 = tid := Nat.mod_eq_of_lt (by omega)
  rw [initial, UInt32.toNat_add, toNat_inc hn, UInt32.toNat_ofNat', htid, one_mul]
  exact Nat.mod_eq_of_lt (by omega)

/-- Setting the low bits. -/
theorem lor_low (k q r : ℕ) (hr : r < 2 ^ k) : (r + q * 2 ^ k) ||| (2 ^ k - 1) = (q + 1) * 2 ^ k - 1 := by
  have hpos := Nat.two_pow_pos k
  have hlow : r ||| (2 ^ k - 1) = 2 ^ k - 1 := by
    apply Nat.eq_of_testBit_eq
    intro i
    rw [Nat.testBit_lor, Nat.testBit_two_pow_sub_one]
    by_cases hi : i < k
    · simp [hi]
    · simp [hi, Nat.testBit_lt_two_pow (lt_of_lt_of_le hr (Nat.pow_le_pow_right (by decide) (not_lt.mp hi)))]
  rw [add_comm r, mul_comm q, Nat.two_pow_add_eq_or_of_lt hr, Nat.lor_assoc, hlow,
    ← Nat.two_pow_add_eq_or_of_lt (by omega), Nat.succ_mul, mul_comm q]
  omega

/-- A multiple of the increment below the range leaves room for another increment. -/
theorem room_of_lt (hn : n < 2 ^ 30) (h : c * 2 ^ tidBits n < 2 ^ 32) :
    (c + 1) * 2 ^ tidBits n ≤ 2 ^ 32 := by
  have hle := tidBits_le hn
  have hsplit : 2 ^ 32 = 2 ^ (32 - tidBits n) * 2 ^ tidBits n := by
    rw [← pow_add, Nat.sub_add_cancel (by omega)]
  rw [hsplit] at h ⊢
  exact Nat.mul_le_mul_right _ (Nat.lt_of_mul_lt_mul_right h)

theorem nth_next (hn : n < 2 ^ 30) (ht : tid < n) (h : Nth n tid c v) (h0 : next n v ≠ 0) :
    Nth n tid (c + 1) (next n v) := by
  have hlt := lt_two_pow_tidBits n
  have hroom := room_of_lt hn h.room
  have hmul : (c + 1 + 1) * 2 ^ tidBits n = c * 2 ^ tidBits n + 2 ^ tidBits n + 2 ^ tidBits n := by ring
  have hval : (v + inc n).toNat = tid + (c + 1) * 2 ^ tidBits n := by
    rw [UInt32.toNat_add, toNat_inc hn, h.val, Nat.succ_mul, ← Nat.add_assoc]
    exact Nat.mod_eq_of_lt (by omega)
  have hlor : ((v + inc n) ||| (inc n - 1)).toNat = (c + 1 + 1) * 2 ^ tidBits n - 1 := by
    have hsub : (inc n - 1).toNat = 2 ^ tidBits n - 1 := by
      rw [UInt32.toNat_sub_of_le, toNat_inc hn]
      · rfl
      · rw [UInt32.le_iff_toNat_le, toNat_inc hn]
        exact Nat.one_le_two_pow
    rw [UInt32.toNat_or, hval, hsub, lor_low _ _ _ (by omega)]
  unfold next at h0 ⊢
  dsimp only at h0 ⊢
  split_ifs at h0 ⊢ with hfull
  · exact absurd rfl h0
  · refine ⟨by omega, hval, lt_of_le_of_ne hroom fun heq => hfull ?_⟩
    rw [← UInt32.toNat_inj, hlor, heq]
    rfl

theorem toNat_count (hn : n < 2 ^ 30) (ht : tid < n) (h : Nth n tid c v) : (count n v).toNat = c := by
  have hle := tidBits_le hn
  have hlt := lt_two_pow_tidBits n
  rw [count, UInt32.toNat_shiftRight, toNat_tidBits hn, Nat.mod_eq_of_lt (by omega),
    Nat.shiftRight_eq_div_pow, h.val, Nat.add_mul_div_right _ _ (by positivity),
    Nat.div_eq_of_lt (by omega), zero_add]

theorem toNat_id (hn : n < 2 ^ 30) (ht : tid < n) (h : Nth n tid c v) : (id n v).toNat = tid := by
  have hlt := lt_two_pow_tidBits n
  rw [id, UInt32.toNat_mod, toNat_inc hn, h.val, Nat.add_mul_mod_self_right, Nat.mod_eq_of_lt (by omega)]

theorem Nth.ne_zero (h : Nth n tid c v) : v ≠ 0 := by
  rintro rfl
  have hv := h.val
  have hpos := Nat.mul_pos h.pos (Nat.two_pow_pos (tidBits n))
  rw [UInt32.toNat_zero] at hv
  omega

section Sequences

/-- The values of a thread: the first one and those `next` makes of it. -/
def value (n tid : ℕ) : ℕ → UInt32
  | 0 => initial n tid
  | k + 1 => next n (value n tid k)

/-- No value up to this one is 0. -/
def Issued (n tid k : ℕ) : Prop := ∀ j ≤ k, value n tid j ≠ 0

theorem tidBits_eq_floor (n : ℕ) : (tidBits n : ℤ) = ⌊Real.logb 2 n⌋ + 1 := by
  have hlog := Real.floor_logb_natCast (b := 2) (r := n) (Nat.cast_nonneg n)
  rw [Int.log_natCast] at hlog
  rw [tidBits, Nat.cast_succ, ← hlog]
  rfl

theorem nth_value (hn : n < 2 ^ 30) (ht : tid < n) {k : ℕ} (h : Issued n tid k) :
    Nth n tid (k + 1) (value n tid k) := by
  induction k with
  | zero => exact nth_initial hn ht
  | succ k ih =>
    have hprev : Issued n tid k := fun j hj => h j (Nat.le_succ_of_le hj)
    exact nth_next hn ht (ih hprev) (h (k + 1) le_rfl)

theorem Nth.add_lt (hn : n < 2 ^ 30) (ht : tid < n) (h : Nth n tid c v) :
    v.toNat + (inc n).toNat < 2 ^ 32 := by
  have hlt := lt_two_pow_tidBits n
  have hroom := room_of_lt hn h.room
  rw [toNat_inc hn, h.val]
  have hmul : (c + 1 + 1) * 2 ^ tidBits n = c * 2 ^ tidBits n + 2 ^ tidBits n + 2 ^ tidBits n := by ring
  omega

theorem exists_value_eq_zero (hn : n < 2 ^ 30) (ht : tid < n) : ∃ k, value n tid k = 0 := by
  by_contra hnone
  have hissued : Issued n tid (2 ^ 32) := fun j _ hj => hnone ⟨j, hj⟩
  have hroom := (nth_value hn ht hissued).room
  have hpos := Nat.two_pow_pos (tidBits n)
  have hle : 2 ^ 32 * 1 ≤ (2 ^ 32 + 1 + 1) * 2 ^ tidBits n := Nat.mul_le_mul (by omega) hpos
  omega

/-- The values of all threads up to their first 0 are different, and thread and position
can be read from them. -/
theorem values_unique_and_decodable {n : ℕ} (hn : n < 2 ^ 30) :
    (tidBits n : ℤ) = ⌊Real.logb 2 n⌋ + 1 ∧
    (∀ tid < n, value n tid 0 ≠ 0 ∧ (UInt32.ofNat tid).toNat = tid ∧
      tid + (inc n).toNat < 2 ^ 32 ∧ ∃ k, value n tid k = 0) ∧
    (∀ tid < n, ∀ k, Issued n tid k → (id n (value n tid k)).toNat = tid ∧
      (count n (value n tid k)).toNat = k + 1 ∧
        (value n tid k).toNat + (inc n).toNat < 2 ^ 32) ∧
    ∀ tid < n, ∀ tid' < n, ∀ k k', Issued n tid k → Issued n tid' k' →
      value n tid k = value n tid' k' → tid = tid' ∧ k = k' := by
  refine ⟨tidBits_eq_floor n, fun tid ht => ?_, fun tid ht k hk => ?_, ?_⟩
  · have hpow := two_pow_tidBits_le hn
    refine ⟨(nth_initial hn ht).ne_zero, ?_, ?_, exists_value_eq_zero hn ht⟩
    · rw [UInt32.toNat_ofNat']
      exact Nat.mod_eq_of_lt (by omega)
    · rw [toNat_inc hn]
      omega
  · have hv := nth_value hn ht hk
    exact ⟨toNat_id hn ht hv, toNat_count hn ht hv, hv.add_lt hn ht⟩
  · intro tid ht tid' ht' k k' hk hk' heq
    have hv := nth_value hn ht hk
    have hv' := nth_value hn ht' hk'
    have hid := toNat_id hn ht hv
    have hcount := toNat_count hn ht hv
    rw [heq, toNat_id hn ht' hv'] at hid
    rw [heq, toNat_count hn ht' hv'] at hcount
    exact ⟨hid.symm, Nat.succ_injective hcount.symm⟩

theorem values_of_three : value 3 2 1 = 10 ∧ (id 3 (value 3 2 1)).toNat = 2 ∧
    (count 3 (value 3 2 1)).toNat = 2 := by
  have hissued : Issued 3 2 1 := by
    intro j hj
    interval_cases j
    · decide
    · decide
  obtain ⟨hid, hcount, -⟩ :=
    (values_unique_and_decodable (n := 3) (by decide)).2.2.1 2 (by decide) 1 hissued
  exact ⟨by decide, hid, hcount⟩

end Sequences

end UnboundedDeque.UIDGenerator
