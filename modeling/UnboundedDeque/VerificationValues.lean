import UnboundedDeque.ElimTableMachine
import UnboundedDeque.SideList
import UnboundedDeque.UIDGenerator

/-!
# The values of the verification tests

The tests push the ids of their threads on a deque with atomic operations. Each
value tells the thread that pushed it and its position among that thread's values.
-/
namespace UnboundedDeque.VerificationTests
open UIDGenerator

/-- `EMPTY` of `RContainer.hpp`. -/
def EMPTY : UInt32 := 0

/-- The value a pop at a side returns. -/
def popped (S : Side) (deque : List UInt32) : UInt32 := (S.first deque).getD EMPTY

variable {n p c : ℕ} {v w x y : UInt32} {l : List UInt32} {S : Side}

/-- The index of a value's thread. -/
def key (n : ℕ) (v : UInt32) : ℕ := (id n v).toNat

/-- The values are ids of the threads, and those of each thread stand in the order
in which it has generated them. -/
structure Stamped (n : ℕ) (l : List UInt32) : Prop where
  issued : ∀ x ∈ l, ∃ p < n, ∃ c, Nth n p c x
  ordered : l.Pairwise fun x y => key n x = key n y → count n x < count n y

theorem key_eq (hn : n < 2 ^ 30) (hp : p < n) (h : Nth n p c v) : key n v = p := toNat_id hn hp h

theorem count_pos (hn : n < 2 ^ 30) (hp : p < n) (h : Nth n p c v) : 0 < count n v := by
  rw [UInt32.lt_iff_toNat_lt, toNat_count hn hp h]
  exact h.pos

theorem count_lt_next (hn : n < 2 ^ 30) (hp : p < n) (h : Nth n p c v) (h0 : next n v ≠ 0) :
    count n v < count n (next n v) := by
  rw [UInt32.lt_iff_toNat_lt, toNat_count hn hp h, toNat_count hn hp (nth_next hn hp h h0)]
  exact Nat.lt_succ_self c

theorem Stamped.push (h : Stamped n l) (hp : p < n) (hv : Nth n p c v)
    (hl : ∀ x ∈ l, key n x = key n v → count n x < count n v) : Stamped n (l ++ [v]) := by
  constructor
  · intro x hx
    rcases List.mem_append.mp hx with hx | hx
    · exact h.issued x hx
    · rw [List.mem_singleton.mp hx]
      exact ⟨p, hp, c, hv⟩
  · rw [List.pairwise_append]
    refine ⟨h.ordered, List.pairwise_singleton _ _, fun x hx y hy => ?_⟩
    rw [List.mem_singleton.mp hy]
    exact hl x hx

theorem Stamped.rest (h : Stamped n l) (S : Side) : Stamped n (S.rest l) := by
  have hsub : (S.rest l).Sublist l := by
    cases S with
    | left => exact List.tail_sublist l
    | right => exact List.dropLast_sublist l
  exact ⟨fun x hx => h.issued x (hsub.subset hx), h.ordered.sublist hsub⟩

theorem mem_of_mem_rest (S : Side) (hx : x ∈ S.rest l) : x ∈ l := by
  cases S with
  | left => exact List.mem_of_mem_tail hx
  | right => exact List.mem_of_mem_dropLast hx

/-- A pop that does not find `EMPTY` returns the value at the end. -/
theorem first_of_popped (h : popped S l ≠ EMPTY) : S.first l = some (popped S l) := by
  unfold popped at h ⊢
  cases hf : S.first l with
  | none => simp [hf] at h
  | some x => rfl

/-- A value popped at the left comes before the rest. -/
theorem Stamped.first_left (h : Stamped n l) (hf : Side.left.first l = some v)
    (hx : x ∈ Side.left.rest l) (hk : key n x = key n v) : count n v < count n x := by
  have ho := h.ordered
  rw [Side.eq_add_of_first hf] at ho
  exact (List.pairwise_cons.mp ho).1 x hx hk.symm

/-- A value popped at the right comes after the rest. -/
theorem Stamped.first_right (h : Stamped n l) (hf : Side.right.first l = some v)
    (hx : x ∈ Side.right.rest l) (hk : key n x = key n v) : count n x < count n v := by
  have ho := h.ordered
  rw [Side.eq_add_of_first hf, Side.add_right, List.pairwise_append] at ho
  exact ho.2.2 x hx v (List.mem_singleton_self v) hk

end UnboundedDeque.VerificationTests
