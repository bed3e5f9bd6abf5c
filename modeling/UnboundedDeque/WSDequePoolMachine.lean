import UnboundedDeque.Components
import UnboundedDeque.WSDequeConservation

/-!
# The work-stealing deques of all threads

`WSDeque` gives every thread a `deque_t` of its own. A thread enqueues at its own deque; to
dequeue it pops there and, if that fails, tries ten times to steal from a deque drawn at
random. No value is lost or returned twice among all of them, under the condition under
which no single deque loses one.
-/
namespace UnboundedDeque.WSDequePool
open StepMachine WSDeque

variable {T : Type*} {n : ℕ}

/-- Program points of a thread; inside `push`, `pop` and `steal` the deque knows the rest. -/
inductive Point (T : Type*) (n : ℕ)
  | idle
  | push (t : T)
  | pop
  | loop (i : ℕ)
  | steal (i : ℕ) (r : Fin n)

/-- The calls that have returned. `none` stands for `m_empty`. -/
inductive Call (T : Type*) (n : ℕ)
  | enqueue (tid : Fin n) (t : T)
  | dequeue (tid : Fin n) (out : Option T)

/-- `m_pDeques` and the threads. Ring addresses are those of one deque: where `new` gives a
deque an address that a ring of another deque had, it is a new address there, and no hazard
slot that still names the old ring keeps it from being freed. `log` is a ghost, with the
latest return first. -/
structure State (T : Type*) (n : ℕ) where
  pDeques : Fin n → WSDeque.State T (Fin n)
  point : Fin n → Point T n
  log : List (Call T n)

/-- A thread moves, an idle one with the call that the choice names and a drawing one with
the result of `rand_r(&st_nSeed) % m_nThreadCount`; or the tracker deletes a ring. -/
inductive Label (T : Type*) (n : ℕ)
  | thread (tid : Fin n) (c : Choice T) (r : Fin n)
  | free (i : Fin n) (a : Address)

def State.goto (s : State T n) (tid i : Fin n) (d : WSDeque.State T (Fin n)) (p : Point T n) :
    State T n :=
  { s with pDeques := Function.update s.pDeques i d, point := Function.update s.point tid p }

def State.ret (s : State T n) (tid i : Fin n) (d : WSDeque.State T (Fin n)) (c : Call T n) :
    State T n :=
  { s.goto tid i d .idle with log := c :: s.log }

/-- The call of the owner: `none` between calls, else what it pushes, `none` for a pop. -/
def doing : OwnerPc T → Option (Option T)
  | .idle => none
  | .pushBottom o | .pushTop o _ | .pushRing o _ _ | .pushNew o _ _ _ | .pushGrow o _ _ _ _
  | .pushPublish o _ _ _ | .pushRetire o _ _ _ | .pushPut o _ _ | .pushSetBottom o _ =>
    some (some o)
  | _ => some none

def stealing : ThiefPc T → Bool
  | .idle => false
  | _ => true

/-- The value that a pop which returns with this step returns. -/
def popped (d : WSDeque.State T (Fin n)) : Option T :=
  match d.owner with
  | .popGet b t ring => if 0 < b - t then (d.rings ring).map (·.get b) else none
  | .popSetBottomTop _ o => some o
  | _ => none

def stolen (d : WSDeque.State T (Fin n)) (k : Fin n) : Option T :=
  match d.thief k with
  | .clear _ out => out
  | _ => none

/-- `enqueue` and `dequeue`, one step of a deque at a time. -/
def step : Label T n → State T n → Option (State T n)
  | .thread tid c r, s =>
    match s.point tid with
    | .idle =>
      (ownerStep c (s.pDeques tid)).map fun d =>
        s.goto tid tid d (match c.call with | some t => .push t | none => .pop)
    | .push t =>
      (ownerStep c (s.pDeques tid)).map fun d =>
        if (doing d.owner).isNone then s.ret tid tid d (.enqueue tid t)
        else s.goto tid tid d (.push t)
    | .pop =>
      (ownerStep c (s.pDeques tid)).map fun d =>
        if (doing d.owner).isNone then
          match popped (s.pDeques tid) with
          | some out => s.ret tid tid d (.dequeue tid (some out))
          | none => s.goto tid tid d (.loop 0)
        else s.goto tid tid d .pop
    | .loop i =>
      if i < 10 then
        some (s.goto tid tid (s.pDeques tid) (if r = tid then .loop (i + 1) else .steal i r))
      else some (s.ret tid tid (s.pDeques tid) (.dequeue tid none))
    | .steal i v =>
      (thiefStep tid c.spurious (s.pDeques v)).map fun d =>
        if stealing (d.thief tid) then s.goto tid v d (.steal i v)
        else match stolen (s.pDeques v) tid with
          | some out => s.ret tid v d (.dequeue tid (some out))
          | none => s.goto tid v d (.loop (i + 1))
  | .free i a, s =>
    (WSDeque.step (.free a) (s.pDeques i)).map fun d =>
      { s with pDeques := Function.update s.pDeques i d }

/-- `WSDeque(numThreads, glibc, empty)`: rings of `1 << 10` cells. -/
structure Init (s : State T n) : Prop where
  deques : ∀ i, WSDeque.Init 10 (s.pDeques i)
  hazard : ∀ i k, (s.pDeques i).hazard k = none
  point : ∀ tid, s.point tid = .idle
  log : s.log = []

def machine (T : Type*) (n : ℕ) : Machine (Label T n) (State T n) where
  init := Init
  step := step

/-- No push starts at a deque whose `bottom` is below `top`, and no compare-exchange of an
owner fails spuriously. -/
def PushesRestored (l : Label T n) (s : State T n) : Prop :=
  match l with
  | .thread tid c _ =>
    match s.point tid with
    | .loop _ | .steal _ _ => True
    | _ => Restored (.owner c) (s.pDeques tid)
  | .free _ _ => True

def enqueued (log : List (Call T n)) : List T :=
  log.filterMap fun | .enqueue _ t => some t | .dequeue _ _ => none

def dequeued (log : List (Call T n)) : List T :=
  log.filterMap fun | .enqueue _ _ => none | .dequeue _ out => out

/-- The value that an owner or a thief has secured and has not returned yet. -/
def ownerHas : OwnerPc T → Multiset T
  | .popSetBottomTop _ o => {o}
  | _ => 0

def thiefHas : ThiefPc T → Multiset T
  | .clear _ (some o) => {o}
  | _ => 0

/-- The values taken from a deque and not returned yet. -/
def inHand (d : WSDeque.State T (Fin n)) : Multiset T :=
  ownerHas d.owner + ∑ k, thiefHas (d.thief k)

end UnboundedDeque.WSDequePool
