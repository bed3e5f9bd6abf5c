import UnboundedDeque.AtomicDeque
import UnboundedDeque.Linearizability
import UnboundedDeque.SideList

/-!
# Linearizability of deques

The sequential deque as an object, and the phases of the calls of a deque that logs the
effects of each thread's current call.
-/
namespace UnboundedDeque
open Linearizability

variable {T : Type*} {S : Side} {c : Call T} {r : Result T} {e : Effect T} {l l' : List T}

/-- The deque of one thread: a list, and calls at its ends. -/
def dequeObject (T : Type*) : Object (Side × Call T) (Result T) (List T) where
  init := []
  apply o l := o.2.onList o.1 l

/-- The same where a push has no result and a pop of the empty deque has the result `empty`. -/
def valueObject (empty : T) : Object (Side × Call T) (Option T) (List T) where
  init := []
  apply o l :=
    match o.2 with
    | .push v => (none, o.1.add v l)
    | .pop => (some ((o.1.first l).getD empty), o.1.rest l)

/-- The result that tells an effect. -/
def Effect.result : Effect T → Result T
  | .add _ _ => .pushed
  | .remove _ v => .popped v

/-- The call may have the effect. -/
def Call.Has (S : Side) (c : Call T) (e : Effect T) : Prop := c.Returns S e.result [e]

/-- A call that has an effect does what it does on a plain list. -/
theorem Call.Has.onList (h : c.Has S e) (he : e.Changes l l') : c.onList S l = (e.result, l') := by
  cases c with
  | push v =>
    obtain ⟨-, hes⟩ := h
    obtain rfl := List.singleton_injective hes
    obtain rfl : l' = S.add v l := he
    rfl
  | pop =>
    rcases h with ⟨v, -, hes⟩ | ⟨-, hes⟩
    · obtain rfl := List.singleton_injective hes
      obtain rfl : l = S.add v l' := he
      simp [Call.onList, Effect.result]
    · cases hes

theorem pop_onList_nil (S : Side) : (Call.pop : Call T).onList S [] = (.empty, []) := by
  simp [Call.onList]

/-- A call that returns with a log of one effect returns its result. -/
theorem Call.Returns.eq_result (h : c.Returns S r [e]) : r = e.result := by
  cases c with
  | push v =>
    obtain ⟨rfl, hes⟩ := h
    rw [List.singleton_injective hes]
    rfl
  | pop =>
    rcases h with ⟨v, rfl, hes⟩ | ⟨-, hes⟩
    · rw [List.singleton_injective hes]
      rfl
    · cases hes

theorem Call.Returns.eq_empty (h : c.Returns S r []) : r = .empty ∧ c = .pop := by
  cases c with
  | push v => cases h.2
  | pop =>
    rcases h with ⟨v, -, hes⟩ | ⟨rfl, -⟩
    · cases hes
    · exact ⟨rfl, rfl⟩

/-- The phase of a call with the log of its effects; `found` tells that it has found the
deque empty. -/
def phaseOf (log : List (Effect T)) (found : Bool) :
    Option (Side × Call T) → Phase (Side × Call T) (Result T)
  | none => .idle
  | some o =>
    match log with
    | e :: _ => .done o e.result
    | [] => if found then .done o .empty else .pending o

theorem phaseOf_ne_idle (log : List (Effect T)) (found : Bool) (o : Side × Call T) :
    phaseOf log found (some o) ≠ .idle := by
  cases log <;> cases found <;> simp [phaseOf]

theorem eq_of_phaseOf {log : List (Effect T)} {found : Bool} {o o' : Side × Call T}
    (h : phaseOf log found (some o) = .pending o') : o' = o := by
  cases log with
  | nil =>
    cases found <;> cases h
    rfl
  | cons e log => cases h

/-- Inside a call there is neither a call nor a return. -/
theorem event_phaseOf {τ : Type*} (p : τ) (log log' : List (Effect T)) (found found' : Bool)
    (o : Side × Call T) :
    Phase.event p (phaseOf log found (some o)) (phaseOf log' found' (some o)) = none := by
  cases log <;> cases log' <;> cases found <;> cases found' <;> rfl

/-- What a step inside a call does to its log: an effect is the only one and belongs to the
call, and a pop may find the deque empty. -/
structure Effective (seen : Prop) (S : Side) (c : Call T) (effect : Option (Effect T))
    (log : List (Effect T)) (found found' : Bool) (l : List T) : Prop where
  fits : ∀ e, effect = some e → log = [] ∧ found = false ∧ c.Has S e
  finds : effect = none → log = [] → found' = found ∨
    found = false ∧ found' = true ∧ c = .pop ∧ (l = [] ∨ seen)

/-- A step inside a call moves its thread as an object's operation does. -/
theorem Effective.moves {effect : Option (Effect T)} {log : List (Effect T)} {found found' : Bool}
    {seen : Result T → Prop} (h : Effective (seen .empty) S c effect log found found' l)
    (hl : Changes effect l l') :
    (phaseOf log found (some (S, c))).Moves (dequeObject T) seen
      (phaseOf (log ++ effect.toList) found' (some (S, c))) l l' := by
  cases effect with
  | some e =>
    obtain ⟨rfl, rfl, hc⟩ := h.fits e rfl
    exact .of_apply (hc.onList hl)
  | none =>
    obtain rfl : l' = l := hl
    rw [Option.toList_none, List.append_nil]
    cases log with
    | cons e log => exact .stay
    | nil =>
      rcases h.finds rfl rfl with rfl | ⟨rfl, rfl, rfl, rfl | hs⟩
      · exact .stay
      · exact .of_apply (pop_onList_nil S)
      · exact .hindsight hs

/-- The return of a call with the log it tells. -/
theorem Call.Returns.phase_eq {log : List (Effect T)} {found : Bool} (h : c.Returns S r log)
    (hfound : log = [] → found = true) : phaseOf log found (some (S, c)) = .done (S, c) r := by
  have hlen : log.length ≤ 1 := by
    cases c with
    | push v => rw [h.2]; rfl
    | pop =>
      rcases h with ⟨v, -, hes⟩ | ⟨-, hes⟩ <;> rw [hes] <;> simp
  cases log with
  | nil =>
    rw [hfound rfl, (h.eq_empty).1]
    rfl
  | cons e log =>
    obtain rfl : log = [] := List.length_eq_zero_iff.mp (by simpa using hlen)
    rw [h.eq_result]
    rfl

end UnboundedDeque
