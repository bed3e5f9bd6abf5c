import Mathlib

/-!
# The two ends of a deque

All algorithms treat their ends alike, so operations are indexed by a side. The
abstract deque is a list whose head is its left end.
-/
namespace UnboundedDeque

inductive Side
  | left | right
  deriving DecidableEq, Repr

variable {T : Type*}

def Side.opposite : Side → Side
  | .left => .right
  | .right => .left

@[simp] theorem Side.opposite_opposite (S : Side) : S.opposite.opposite = S := by
  cases S <;> rfl

theorem Side.opposite_ne (S : Side) : S.opposite ≠ S := by
  cases S <;> decide

theorem Side.eq_or_eq_opposite (S R : Side) : R = S ∨ R = S.opposite := by
  cases S <;> cases R <;> decide

/-- The list with a value added at an end. -/
def Side.add : Side → T → List T → List T
  | .left, v, l => v :: l
  | .right, v, l => l ++ [v]

@[simp] theorem Side.add_left (v : T) (l : List T) : Side.left.add v l = v :: l := rfl

@[simp] theorem Side.add_right (v : T) (l : List T) : Side.right.add v l = l ++ [v] := rfl

theorem Side.add_ne_nil (S : Side) (v : T) (l : List T) : S.add v l ≠ [] := by
  cases S <;> simp

/-- What a thread asks of a deque. -/
inductive Call (T : Type*)
  | push (value : T)
  | pop
  deriving DecidableEq, Repr

end UnboundedDeque
