import UnboundedDeque.DequeSide

/-!
# The atomic deque

What a concurrent deque is to its callers: a list that each call changes at one
end by at most one indivisible effect, and results that tell which effect it was.
Calls made one after another have the results of a plain list.
-/
namespace UnboundedDeque

variable {T : Type*} {S : Side} {v w : T} {l l' : List T}

/-- What a call returns. -/
inductive Result (T : Type*)
  | pushed
  | popped (value : T)
  | empty
  deriving DecidableEq, Repr

/-- An indivisible change of the contents. -/
inductive Effect (T : Type*)
  | add (S : Side) (value : T)
  | remove (S : Side) (value : T)
  deriving DecidableEq, Repr

/-- The contents before and after an effect. -/
def Effect.Changes : Effect T → List T → List T → Prop
  | .add S v, l, l' => l' = S.add v l
  | .remove S v, l, l' => l = S.add v l'

/-- The contents before and after a step with at most one effect. -/
def Changes : Option (Effect T) → List T → List T → Prop
  | some e, l, l' => e.Changes l l'
  | none, l, l' => l' = l

/-- The result of a call at an end that has had these effects. -/
def Call.Returns (S : Side) : Call T → Result T → List (Effect T) → Prop
  | .push v, r, es => r = .pushed ∧ es = [.add S v]
  | .pop, r, es => (∃ v, r = .popped v ∧ es = [.remove S v]) ∨ (r = .empty ∧ es = [])

section Sequential

/-- The value at an end of a list and the list without it. -/
def Side.take : Side → List T → Option (T × List T)
  | .left, [] => none
  | .left, v :: l => some (v, l)
  | .right, l => l.getLast?.map fun v => (v, l.dropLast)

@[simp] theorem Side.take_nil (S : Side) : S.take ([] : List T) = none := by
  cases S <;> rfl

@[simp] theorem Side.take_add (S : Side) (v : T) (l : List T) : S.take (S.add v l) = some (v, l) := by
  cases S <;> simp [take]

/-- A call on a plain list. -/
def Call.onList (S : Side) : Call T → List T → Result T × List T
  | .push v, l => (.pushed, S.add v l)
  | .pop, l =>
    match S.take l with
    | none => (.empty, l)
    | some (v, l) => (.popped v, l)

/-- The results of calls on a plain list, which is empty at first, and what it holds in
the end. -/
def onList (calls : List (Side × Call T)) : List (Result T) × List T :=
  calls.foldl (fun x call =>
    let y := call.2.onList call.1 x.2
    (x.1 ++ [y.1], y.2)) ([], [])

theorem onList_snoc (calls : List (Side × Call T)) (call : Side × Call T) :
    onList (calls ++ [call]) = ((onList calls).1 ++ [(call.2.onList call.1 (onList calls).2).1],
      (call.2.onList call.1 (onList calls).2).2) := by
  rw [onList, List.foldl_append]
  rfl

end Sequential

end UnboundedDeque
