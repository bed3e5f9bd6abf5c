import UnboundedDeque.StepMachine
import UnboundedDeque.AtomicDeque
import UnboundedDeque.SideList

/-!
# The flat-combining deque of `FCDeque.hpp` as a step machine

Each load and store of a request or of the lock is one step of a thread, and so is
each access of a combiner to `m_deque`, which nobody else touches while it holds the
lock. The test of a loop is a step of its own.
-/
namespace UnboundedDeque.FCDeque
open StepMachine

/-- `REQUEST_STATUS` -/
inductive Status
  | push (S : Side)
  | pop (S : Side)
  | complete
  deriving DecidableEq, Repr

/-- `request_t` -/
structure Request (T : Type*) where
  value : T
  status : Status
  deriving DecidableEq, Repr

/-- The locals of `doCombining`. `poppers` are `leftPoppers` and `rightPoppers` as far
as `numLeftPops` and `numRightPops`. -/
structure Combine (n : ℕ) where
  finished : Bool
  j : ℕ
  poppers : Side → List (Fin n)

/-- Program points. -/
inductive Point (n : ℕ) (T : Type*)
  -- `right_push`, `left_push`, `right_pop` and `left_pop`
  | setValue
  | setStatus
  | wait
  | isLocked
  | tryLock
  | unlock
  | readValue
  | ret (result : Option T)
  -- `doCombining`
  | round (c : Combine n)
  | scan (c : Combine n) (i : ℕ)
  | apply (c : Combine n) (i : Fin n) (S : Side)
  | ackPush (c : Combine n) (i : Fin n)
  | take (c : Combine n) (S : Side) (k : ℕ)
  | store (c : Combine n) (S : Side) (k : ℕ) (u : Fin n) (value : T)
  | ackPop (c : Combine n) (S : Side) (k : ℕ) (u : Fin n)

/-- A call under way. -/
structure Frame (n : ℕ) (T : Type*) where
  side : Side
  call : Call T
  point : Point n T

structure State (n : ℕ) (T : Type*) where
  deque : List T
  lock : Bool
  requests : Fin n → Request T
  frames : Fin n → Option (Frame n T)

/-- `MAX_COMBINING_ROUNDS` -/
def maxCombiningRounds : ℕ := 10

variable {n : ℕ} {T : Type*}

/-- The status a call publishes. -/
def Frame.status (f : Frame n T) : Status :=
  match f.call with
  | .push _ => .push f.side
  | .pop => .pop f.side

/-- The locals at the start of `doCombining`. -/
def Combine.fresh : Combine n := ⟨false, 0, fun _ => []⟩

/-- `req == myRequest` -/
def Combine.visit (c : Combine n) (tid i : Fin n) : Combine n :=
  if i = tid then { c with finished := true } else c

def Combine.addPopper (c : Combine n) (S : Side) (i : Fin n) : Combine n :=
  { c with poppers := Function.update c.poppers S (c.poppers S ++ [i]) }

@[simps] def State.goto (s : State n T) (tid : Fin n) (f : Frame n T) (p : Point n T) : State n T :=
  { s with frames := Function.update s.frames tid (some { f with point := p }) }

@[simps] def State.setValue (s : State n T) (u : Fin n) (value : T) : State n T :=
  { s with requests := Function.update s.requests u { s.requests u with value } }

@[simps] def State.setStatus (s : State n T) (u : Fin n) (status : Status) : State n T :=
  { s with requests := Function.update s.requests u { s.requests u with status } }

/-- The start of a call, up to its first access to the request. -/
@[simps] def State.call (s : State n T) (tid : Fin n) (S : Side) (c : Call T) : State n T :=
  { s with
    frames := Function.update s.frames tid (some ⟨S, c,
      match c with
      | .push _ => .setValue
      | .pop => .setStatus⟩) }

@[simps] def State.return (s : State n T) (tid : Fin n) : State n T :=
  { s with frames := Function.update s.frames tid none }

/-- Where a combiner goes with the status of request `i` loaded. -/
def afterStatus (c : Combine n) (i : Fin n) : Status → Point n T
  | .push S => .apply c i S
  | .pop S => .scan (c.addPopper S i) (i + 1)
  | .complete => .scan c (i + 1)

/-- Stage two of a combining round goes from the left to the right poppers. -/
def afterTake (c : Combine n) : Side → Point n T
  | .left => .take c .right 0
  | .right => .round { c with j := c.j + 1 }

/-- The value a pop takes from the deque. -/
def popped (empty : T) (S : Side) (d : List T) : T := (S.first d).getD empty

/-- One step of a thread with a call under way. -/
def frameStep (empty : T) (s : State n T) (tid : Fin n) (f : Frame n T) : Option (State n T) :=
  match f.point with
  | .setValue =>
    match f.call with
    | .push value => some ((s.setValue tid value).goto tid f .setStatus)
    | .pop => none
  | .setStatus => some ((s.setStatus tid f.status).goto tid f .wait)
  | .wait =>
    if (s.requests tid).status = .complete then
      match f.call with
      | .push _ => some (s.goto tid f (.ret none))
      | .pop => some (s.goto tid f .readValue)
    else some (s.goto tid f .isLocked)
  | .isLocked => some (s.goto tid f (if s.lock then .wait else .tryLock))
  | .tryLock =>
    some ({ s with lock := true }.goto tid f (if s.lock then .wait else .round .fresh))
  | .unlock => some ({ s with lock := false }.goto tid f .wait)
  | .readValue => some (s.goto tid f (.ret (some (s.requests tid).value)))
  | .ret _ => some (s.return tid)
  | .round c =>
    some (s.goto tid f (if c.j < maxCombiningRounds ∧ c.finished = false then .scan c 0
      else .unlock))
  | .scan c i =>
    some (s.goto tid f (if hi : i < n then
      afterStatus (c.visit tid ⟨i, hi⟩) ⟨i, hi⟩ (s.requests ⟨i, hi⟩).status
      else .take c .left 0))
  | .apply c i S =>
    some ({ s with deque := S.add (s.requests i).value s.deque }.goto tid f (.ackPush c i))
  | .ackPush c i => some ((s.setStatus i .complete).goto tid f (.scan c (i + 1)))
  | .take c S k =>
    match (c.poppers S)[k]? with
    | some u =>
      some ({ s with deque := S.rest s.deque }.goto tid f
        (.store c S k u (popped empty S s.deque)))
    | none => some (s.goto tid f (afterTake c S))
  | .store c S k u value => some ((s.setValue u value).goto tid f (.ackPop c S k u))
  | .ackPop c S k u => some ((s.setStatus u .complete).goto tid f (.take c S (k + 1)))

/-- One step of a thread; an idle thread makes the call of the label. -/
def step (empty : T) : Fin n × Side × Call T → State n T → Option (State n T)
  | (tid, S, c), s =>
    match s.frames tid with
    | none => some (s.call tid S c)
    | some f => frameStep empty s tid f

/-- `FCDeque(threadCount, empty)` -/
structure Init (empty : T) (s : State n T) : Prop where
  deque : s.deque = []
  lock : s.lock = false
  requests : ∀ u, s.requests u = ⟨empty, .complete⟩
  frames : ∀ u, s.frames u = none

def machine (n : ℕ) (empty : T) : Machine (Fin n × Side × Call T) (State n T) where
  init := Init empty
  step := step empty

/-- What a combiner does to the deque for a request. -/
inductive Applied (T : Type*)
  | push (S : Side) (value : T)
  | pop (S : Side) (value : T)
  deriving DecidableEq, Repr

/-- The application of a request that a step of a thread makes, with the thread whose
request it is. -/
def State.applied (empty : T) (s : State n T) (tid : Fin n) : Option (Fin n × Applied T) :=
  (s.frames tid).bind fun f =>
    match f.point with
    | .apply _ i S => some (i, .push S (s.requests i).value)
    | .take c S k => (c.poppers S)[k]?.map fun u => (u, .pop S (popped empty S s.deque))
    | _ => none

/-- For each thread the applications of its requests since its call began, and the
poppers served since the lock was last taken. -/
structure Account (n : ℕ) (T : Type*) where
  log : Fin n → List (Applied T)
  served : List (Fin n)

/-- An application goes into the account; a new call starts with an empty log and a
combiner that takes the lock with no popper served. -/
def note (empty : T) : Fin n × Side × Call T → State n T → State n T → Account n T → Account n T
  | (tid, _), s, _, a =>
    match s.applied empty tid with
    | some (u, e) =>
      ⟨Function.update a.log u (a.log u ++ [e]),
        match e with
        | .push _ _ => a.served
        | .pop _ _ => a.served ++ [u]⟩
    | none =>
      match s.frames tid with
      | none => { a with log := Function.update a.log tid [] }
      | some f =>
        match f.point with
        | .tryLock => if s.lock then a else { a with served := [] }
        | _ => a

/-- The machine with its account. -/
def logged (n : ℕ) (empty : T) : Machine (Fin n × Side × Call T) (State n T × Account n T) :=
  (machine n empty).account ⟨fun _ => [], []⟩ (note empty)

end UnboundedDeque.FCDeque
