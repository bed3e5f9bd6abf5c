import UnboundedDeque.StepMachine
import UnboundedDeque.DequeSide

/-!
# The elimination table of `ElimTable.hpp` as a step machine

Threads run `doPush` and `doPop` of `OFDeque.hpp` with the attempts on the deque
itself left open: an attempt succeeds, with any value for a pop, or fails. Every
load, store, exchange and compare-exchange of the table is one step. Words the
constructors of `Slot` leave uninitialised come from the label of the step.
-/
namespace UnboundedDeque.ElimTable
open StepMachine

inductive Flag
  | inactive | eliminated | push | pop
  deriving DecidableEq, Repr

structure Slot (T : Type*) where
  value : T
  flag : Flag
  deriving DecidableEq, Repr

variable {T : Type*} {threadCount : ℕ}

/-- `nextRand` of `HarnessUtils.cpp`. -/
def nextRand (last : UInt32) : UInt32 := (last * 1103515245 + 12345) / 65536 % 32768

/-- The value of a 32-bit `int` that an unbounded result is stored in. -/
def toInt (x : ℤ) : ℤ := x.bmod (2 ^ 32)

/-- The indices `i = (s + n) % m_threadCount` of the outer loop of
`tryEliminatePush` and `tryEliminatePop`, with 32-bit `int` arithmetic. -/
def scanIndices (threadCount scanCount s tid : ℤ) : List ℤ :=
  let scanCount := if threadCount < scanCount then threadCount else scanCount
  ((List.range scanCount.toNat).map fun n : ℕ => (toInt (s + n)).tmod threadCount).filter (· ≠ tid)

/-- The flag a call looks for. -/
def partnerOf : Call T → Flag
  | .push _ => .pop
  | .pop => .push

/-- `Slot(value, FLAG_PUSH)` of `insertPush` and `Slot(FLAG_POP)` of `insertPop`. -/
def inserted (junk : T) : Call T → Slot T
  | .push value => ⟨value, .push⟩
  | .pop => ⟨junk, .pop⟩

/-- What the compare-exchange of `tryEliminatePush` (`tryEliminatePop`) leaves
in the partner's slot. -/
def eliminated (junk : T) : Call T → Slot T
  | .push value => ⟨value, .eliminated⟩
  | .pop => ⟨junk, .eliminated⟩

/-- The value an eliminated call hands over: a push its own, a pop the one it
found in a slot. -/
def exchanged (found : T) : Call T → T
  | .push value => value
  | .pop => found

/-- Program points. The points of a scan keep the indices still to visit. -/
inductive Point (T : Type*) (threadCount : ℕ)
  | insert
  | removeLoad
  | removeExchange
  | attempt
  | insertAgain
  | scanStart
  | scan (todo : List (Fin threadCount))
  | scanRemoveLoad (i : Fin threadCount) (slot : Slot T) (todo : List (Fin threadCount))
  | scanRemoveExchange (i : Fin threadCount) (slot : Slot T) (todo : List (Fin threadCount))
  | scanCas (i : Fin threadCount) (slot : Slot T) (todo : List (Fin threadCount))
  | scanInsert (i : Fin threadCount) (todo : List (Fin threadCount))

/-- A call of `doPush<S>` or `doPop<S>` under way. -/
structure Frame (T : Type*) (threadCount : ℕ) where
  side : Side
  call : Call T
  backoffScanCount : ℤ
  point : Point T threadCount

/-- Operations are numbered thread by thread. -/
abbrev OpId (threadCount : ℕ) := Fin threadCount × ℕ

/-- How a call returned: by its attempt on the deque or by elimination, with the
value pushed or returned. -/
inductive Outcome (T : Type*)
  | direct (value : T)
  | eliminated (value : T)
  deriving DecidableEq, Repr

/-- A successful compare-exchange on a partner's slot. -/
structure Pair (T : Type*) (threadCount : ℕ) where
  side : Side
  pusher : OpId threadCount
  popper : OpId threadCount
  value : T

/-- The two tables, one a side, the random numbers and the threads' calls.
`serial`, `calls`, `outcomes` and `pairs` are ghosts: the number of calls each
thread has finished, and for each operation its call, its outcome and the
eliminations it took part in. -/
structure State (T : Type*) (threadCount : ℕ) where
  table : Side → Fin threadCount → Slot T
  rand : Side → Fin threadCount → UInt32
  threads : Fin threadCount → Option (Frame T threadCount)
  serial : Fin threadCount → ℕ
  calls : OpId threadCount → Option (Side × Call T)
  outcomes : OpId threadCount → Option (Outcome T)
  pairs : List (Pair T threadCount)

/-- What a step leaves open: the call an idle thread makes, whether an attempt
on the deque succeeds and with which value, and uninitialised words. -/
structure Choice (T : Type*) where
  call : Side × Call T
  attempt : Option T
  junk : T

def State.op (s : State T threadCount) (tid : Fin threadCount) : OpId threadCount :=
  (tid, s.serial tid)

def State.start (s : State T threadCount) (tid : Fin threadCount) (side : Side) (call : Call T) :
    State T threadCount :=
  { s with
    threads := Function.update s.threads tid (some ⟨side, call, threadCount, .insert⟩)
    calls := Function.update s.calls (s.op tid) (some (side, call)) }

def State.goto (s : State T threadCount) (tid : Fin threadCount) (f : Frame T threadCount)
    (point : Point T threadCount) : State T threadCount :=
  { s with threads := Function.update s.threads tid (some { f with point }) }

def State.store (s : State T threadCount) (side : Side) (i : Fin threadCount) (slot : Slot T) :
    State T threadCount :=
  { s with table := Function.update s.table side (Function.update (s.table side) i slot) }

def State.finish (s : State T threadCount) (tid : Fin threadCount) (outcome : Outcome T) :
    State T threadCount :=
  { s with
    threads := Function.update s.threads tid none
    serial := Function.update s.serial tid (s.serial tid + 1)
    outcomes := Function.update s.outcomes (s.op tid) (some outcome) }

def State.pair (s : State T threadCount) (side : Side) (call : Call T)
    (tid i : Fin threadCount) (found : T) : State T threadCount :=
  match call with
  | .push value => { s with pairs := ⟨side, s.op tid, s.op i, value⟩ :: s.pairs }
  | .pop => { s with pairs := ⟨side, s.op i, s.op tid, found⟩ :: s.pairs }

/-- The exchange of `removePush` and `removePop` with its test of the old flag. -/
def State.removeExchange (s : State T threadCount) (tid : Fin threadCount)
    (f : Frame T threadCount) (junk : T) (next : Point T threadCount) : State T threadCount :=
  let old := s.table f.side tid
  let s := s.store f.side tid ⟨junk, .inactive⟩
  if old.flag = .inactive then s.finish tid (.eliminated (exchanged old.value f.call))
  else s.goto tid f next

/-- The load of `removePush` and `removePop` with its test of the flag. -/
def State.removeLoad (s : State T threadCount) (tid : Fin threadCount)
    (f : Frame T threadCount) (next : Point T threadCount) : State T threadCount :=
  let slot := s.table f.side tid
  if slot.flag = .eliminated then s.finish tid (.eliminated (exchanged slot.value f.call))
  else s.goto tid f next

/-- One step of the call a thread is in. -/
def callStep [DecidableEq T] (c : Choice T) (tid : Fin threadCount) (f : Frame T threadCount)
    (s : State T threadCount) : State T threadCount :=
  match f.point with
  | .insert => (s.store f.side tid (inserted c.junk f.call)).goto tid f .removeLoad
  | .removeLoad => s.removeLoad tid f .removeExchange
  | .removeExchange => s.removeExchange tid f c.junk .attempt
  | .attempt =>
    match c.attempt with
    | some v => s.finish tid (.direct (exchanged v f.call))
    | none => s.goto tid f .insertAgain
  | .insertAgain => (s.store f.side tid (inserted c.junk f.call)).goto tid f .scanStart
  | .scanStart =>
    let r := nextRand (s.rand f.side tid)
    let todo := (scanIndices threadCount f.backoffScanCount r.toNat tid).filterMap fun i : ℤ =>
      if h : 0 ≤ i ∧ i < (threadCount : ℤ) then some ⟨i.toNat, by omega⟩ else none
    { s with rand := Function.update s.rand f.side (Function.update (s.rand f.side) tid r) }.goto
      tid f (.scan todo)
  | .scan [] =>
    s.goto tid { f with backoffScanCount := toInt (2 * f.backoffScanCount) } .removeLoad
  | .scan (i :: todo) =>
    let slot := s.table f.side i
    if slot.flag = partnerOf f.call then s.goto tid f (.scanRemoveLoad i slot todo)
    else s.goto tid f (.scan todo)
  | .scanRemoveLoad i slot todo => s.removeLoad tid f (.scanRemoveExchange i slot todo)
  | .scanRemoveExchange i slot todo => s.removeExchange tid f c.junk (.scanCas i slot todo)
  | .scanCas i slot todo =>
    if s.table f.side i = slot then
      ((s.pair f.side f.call tid i slot.value).store f.side i (eliminated c.junk f.call)).finish
        tid (.eliminated (exchanged slot.value f.call))
    else s.goto tid f (.scanInsert i todo)
  | .scanInsert i todo =>
    (s.store f.side tid (inserted c.junk f.call)).goto tid f (.scan (i :: todo))

def step [DecidableEq T] : Fin threadCount × Choice T → State T threadCount →
    Option (State T threadCount)
  | (tid, c), s =>
    match s.threads tid with
    | none => some (s.start tid c.call.1 c.call.2)
    | some f => some (callStep c tid f s)

/-- `ElimTable(threadCount)`. -/
structure Init (s : State T threadCount) : Prop where
  table : ∀ S i, (s.table S i).flag = .inactive
  threads : ∀ i, s.threads i = none
  serial : ∀ i, s.serial i = 0
  calls : ∀ id, s.calls id = none
  outcomes : ∀ id, s.outcomes id = none
  pairs : s.pairs = []

def machine (threadCount : ℕ) (T : Type*) [DecidableEq T] :
    Machine (Fin threadCount × Choice T) (State T threadCount) where
  init := Init
  step := step

/-- `removePush` or `removePop` of the call under way has returned false, and
the slot has not been inserted again. -/
def Point.removed : Point T threadCount → Bool
  | .attempt | .insertAgain | .scanCas .. | .scanInsert .. => true
  | _ => false

/-- The operation takes part in the elimination. -/
def Pair.Includes (p : Pair T threadCount) (id : OpId threadCount) : Prop :=
  p.pusher = id ∨ p.popper = id

/-- No operation takes part in both. -/
def Pair.Disjoint (p q : Pair T threadCount) : Prop := ∀ id, p.Includes id → ¬ q.Includes id

def State.Paired (s : State T threadCount) (id : OpId threadCount) : Prop :=
  ∃ p ∈ s.pairs, p.Includes id

/-- An operation of an elimination has returned that way, or its slot shows that
it will: it is marked and holds, for a pop, the value. -/
def State.Settles (s : State T threadCount) (p : Pair T threadCount)
    (id : OpId threadCount) : Prop :=
  s.outcomes id = some (.eliminated p.value) ∨
    ∃ f, s.threads id.1 = some f ∧ s.op id.1 = id ∧ f.side = p.side ∧
      (s.table f.side id.1).flag = .eliminated ∧
      exchanged (s.table f.side id.1).value f.call = p.value

/-- Elimination hands every value over exactly once. -/
structure State.ExactlyOnce (s : State T threadCount) : Prop where
  removed : ∀ tid f, s.threads tid = some f → f.point.removed = true → ¬ s.Paired (s.op tid)
  returned : ∀ id c, s.calls id = some c →
    (∃ f, s.threads id.1 = some f ∧ s.op id.1 = id) ∨ ∃ r, s.outcomes id = some r
  direct : ∀ id v, s.outcomes id = some (.direct v) →
    ¬ s.Paired id ∧ ∀ S w, s.calls id = some (S, .push w) → v = w
  eliminated : ∀ id v, s.outcomes id = some (.eliminated v) →
    (∃! p, p ∈ s.pairs ∧ p.Includes id) ∧ ∀ p ∈ s.pairs, p.Includes id → p.value = v
  distinct : s.pairs.Pairwise Pair.Disjoint
  opposite : ∀ p ∈ s.pairs, s.calls p.pusher = some (p.side, .push p.value) ∧
    s.calls p.popper = some (p.side, .pop)
  settles : ∀ p ∈ s.pairs, ∀ id, p.Includes id → s.Settles p id
  outside : ∀ tid S, (∀ f, s.threads tid = some f → f.side ≠ S) →
    (s.table S tid).flag ≠ .push ∧ (s.table S tid).flag ≠ .pop

/-- The exchange of `removePush` or `removePop` comes next. -/
def Point.exchanges : Point T threadCount → Bool
  | .removeExchange | .scanRemoveExchange .. => true
  | _ => false

/-- The partner's compare-exchange does not fall between the load and the
exchange of a remove. -/
def InTime (l : Fin threadCount × Choice T) (s : State T threadCount) : Prop :=
  ∀ f ∈ s.threads l.1, f.point.exchanges = true → (s.table f.side l.1).flag ≠ .eliminated

instance (l : Fin threadCount × Choice T) (s : State T threadCount) : Decidable (InTime l s) :=
  inferInstanceAs (Decidable (∀ f ∈ s.threads l.1, _))

end UnboundedDeque.ElimTable
