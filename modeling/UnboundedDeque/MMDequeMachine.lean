import UnboundedDeque.AtomicDeque
import UnboundedDeque.HazardTracker
import UnboundedDeque.SideList
import UnboundedDeque.StepMachine

/-!
# The deque of `MMDeque.hpp` as a step machine

Every load, store and compare-exchange of the source is one step, the comparisons of a
scan of the hazard tracker included. The two directions are one definition with a side.
A block the pool hands out has arbitrary contents. Counts of links are unbounded.
-/
namespace UnboundedDeque.MMDeque
open StepMachine

abbrev Node := ℕ

/-- `cptr<node_t>`; `none` is `NULL`. -/
structure Link where
  ptr : Option Node
  sn : ℕ
  deriving DecidableEq, Repr

/-- `StatusType`. `RPUSH` and `LPUSH` are `push .right` and `push .left`. -/
inductive Status
  | stable
  | push (S : Side)
  deriving DecidableEq, Repr

/-- `anchor_t` -/
structure Anchor where
  left : Option Node
  right : Option Node
  status : Status
  deriving DecidableEq, Repr

/-- `getLeft` and `getRight` -/
def Anchor.most (a : Anchor) : Side → Option Node
  | .left => a.left
  | .right => a.right

/-- The anchor with another pointer at one end. -/
def Anchor.set (a : Anchor) (S : Side) (p : Option Node) (status : Status) : Anchor :=
  match S with
  | .left => ⟨p, a.right, status⟩
  | .right => ⟨a.left, p, status⟩

/-- Where a node is: with the pool, with the thread that pushes it, in the deque, with the
thread that has popped it, or in a thread's retired list. -/
inductive Life (n : ℕ)
  | free
  | owned (tid : Fin n)
  | queued
  | popped (tid : Fin n)
  | retired (tid : Fin n)
  deriving DecidableEq

/-- The threads' shared memory. -/
structure Memory (T : Type*) (n : ℕ) where
  anchor : Anchor
  link : Side → Node → Link
  data : Node → T
  haz : HazardTracker Node n 3 3
  life : Node → Life n

/-- Where a call goes on after `stabilize`: it has pushed its node, or it starts over. -/
inductive Exit
  | pushed
  | push (node : Node)
  | pop
  deriving DecidableEq, Repr

/-- The locals of `stabilizeRight` and `stabilizeLeft`. -/
structure Helper where
  side : Side
  a : Anchor
  exit : Exit
  deriving DecidableEq, Repr

/-- Program points of a call with the locals that are still read. -/
inductive Point (T : Type*)
  | alloc
  | store (node : Node)
  | pushLoad (node : Node)
  | casEmpty (node : Node) (a : Anchor)
  | init (node : Node) (a : Anchor)
  | casPush (node : Node) (a : Anchor)
  | popLoad
  | casSingle (a : Anchor)
  | reserveLeft (a : Anchor)
  | reserveRight (a : Anchor)
  | validate (a : Anchor)
  | neighbor (a : Anchor)
  | casPop (a : Anchor) (prev : Option Node)
  | read (a : Anchor)
  | retire (a : Anchor) (data : T)
  | scan (data : T)
  | clear (slot : ℕ) (data : T)
  | stabLeft (h : Helper)
  | stabRight (h : Helper)
  | stabValidate (h : Helper)
  | stabPrev (h : Helper)
  | stabReserve (h : Helper) (prev : Option Node)
  | stabRevalidate (h : Helper) (prev : Option Node)
  | stabNext (h : Helper) (prev : Option Node)
  | stabCheck (h : Helper) (prev : Option Node) (prevNext : Link)
  | stabCas (h : Helper) (prev : Option Node) (prevNext : Link)
  | stabSettle (h : Helper) (prev : Option Node)
  | stabClear (h : Helper) (slot : ℕ)
  | done (result : Result T)
  deriving DecidableEq

structure Frame (T : Type*) where
  side : Side
  call : Call T
  point : Point T

structure State (T : Type*) (n : ℕ) where
  mem : Memory T n
  frames : Fin n → Option (Frame T)

/-- What a step leaves open: the call an idle thread makes, the block the pool hands out and
its contents, and whether a weak compare-exchange fails although the values agree. -/
structure Choice (T : Type*) where
  call : Side × Call T
  node : Node
  links : Side → Link
  junk : T
  spurious : Bool

variable {T : Type*} {n : ℕ}

def Exit.point : Exit → Point T
  | .pushed => .done .pushed
  | .push node => .pushLoad node
  | .pop => .popLoad

/-- `stabilize` -/
def stabilize (a : Anchor) (exit : Exit) : Point T :=
  match a.status with
  | .stable => exit.point
  | .push S => .stabLeft ⟨S, a, exit⟩

/-- What a push does after it has loaded the anchor. -/
def pushLoaded (S : Side) (node : Node) (a : Anchor) : Point T :=
  if a.most S = none then .casEmpty node a
  else if a.status = .stable then .init node a
  else stabilize a (.push node)

/-- What a pop does after it has loaded the anchor. -/
def popLoaded (S : Side) (a : Anchor) : Point T :=
  if a.most S = none then .done .empty
  else if a.left = a.right then .casSingle a
  else if a.status = .stable then .reserveLeft a
  else stabilize a .pop

namespace Memory

def alloc (m : Memory T n) (tid : Fin n) (c : Choice T) : Memory T n :=
  { m with
    link := fun S => Function.update (m.link S) c.node (c.links S)
    data := Function.update m.data c.node c.junk
    life := Function.update m.life c.node (.owned tid) }

def store (m : Memory T n) (node : Node) (t : T) : Memory T n :=
  { m with data := Function.update m.data node t }

/-- `cptr::init` and a successful `cptr::CAS` -/
def setLink (m : Memory T n) (S : Side) (node : Node) (x : Link) : Memory T n :=
  { m with link := Function.update m.link S (Function.update (m.link S) node x) }

def setAnchor (m : Memory T n) (a : Anchor) : Memory T n := { m with anchor := a }

def setLife (m : Memory T n) (node : Node) (life : Life n) : Memory T n :=
  { m with life := Function.update m.life node life }

def reserve (m : Memory T n) (p : Option Node) (slot : ℕ) (tid : Fin n) : Memory T n :=
  { m with haz := m.haz.reserve p slot tid }

def retire (m : Memory T n) (node : Node) (tid : Fin n) : Memory T n :=
  { m with
    haz := m.haz.retire node tid
    life := Function.update m.life node (.retired tid) }

/-- A step of `HazardTracker::empty`; the pointer it frees goes back to the pool. -/
def scan (m : Memory T n) (tid : Fin n) : Memory T n :=
  { m with
    haz := m.haz.empty tid
    life := match m.haz.freeing tid with
      | some x => Function.update m.life x .free
      | none => m.life }

end Memory

/-- The next step of a call: the memory after it and the next point, or `none` when the call
returns. A step that would read at `NULL` is not enabled. -/
def next (m : Memory T n) (c : Choice T) (tid : Fin n) (S : Side) (call : Call T) :
    Point T → Option (Memory T n × Option (Point T))
  | .alloc =>
    if m.life c.node = .free then some (m.alloc tid c, some (.store c.node)) else none
  | .store node =>
    match call with
    | .push t => some (m.store node t, some (.pushLoad node))
    | .pop => none
  | .pushLoad node => some (m, some (pushLoaded S node m.anchor))
  | .casEmpty node a =>
    if m.anchor = a ∧ c.spurious = false then
      some ((m.setAnchor ⟨some node, some node, a.status⟩).setLife node .queued,
        some (.done .pushed))
    else some (m, some (.pushLoad node))
  | .init node a =>
    some (m.setLink S.opposite node ⟨a.most S, 0⟩, some (.casPush node a))
  | .casPush node a =>
    if m.anchor = a ∧ c.spurious = false then
      let a2 := a.set S (some node) (.push S)
      some ((m.setAnchor a2).setLife node .queued, some (.stabLeft ⟨S, a2, .pushed⟩))
    else some (m, some (.pushLoad node))
  | .popLoad => some (m, some (popLoaded S m.anchor))
  | .casSingle a =>
    match a.most S with
    | some x =>
      if m.anchor = a ∧ c.spurious = false then
        some ((m.setAnchor ⟨none, none, a.status⟩).setLife x (.popped tid), some (.read a))
      else some (m, some .popLoad)
    | none => none
  | .reserveLeft a => some (m.reserve a.left 0 tid, some (.reserveRight a))
  | .reserveRight a => some (m.reserve a.right 1 tid, some (.validate a))
  | .validate a => some (m, some (if a = m.anchor then .neighbor a else .popLoad))
  | .neighbor a => (a.most S).map fun x => (m, some (.casPop a (m.link S.opposite x).ptr))
  | .casPop a prev =>
    match a.most S with
    | some x =>
      if m.anchor = a ∧ c.spurious = false then
        some ((m.setAnchor (a.set S prev a.status)).setLife x (.popped tid), some (.read a))
      else some (m, some .popLoad)
    | none => none
  | .read a => (a.most S).map fun x => (m, some (.retire a (m.data x)))
  | .retire a data => (a.most S).map fun x =>
    (m.retire x tid,
      some (if ((m.retire x tid).haz.scan tid).isSome then .scan data else .clear 0 data))
  | .scan data =>
    some (m.scan tid,
      some (if ((m.scan tid).haz.scan tid).isSome then .scan data else .clear 0 data))
  | .clear slot data =>
    some (m.reserve none slot tid,
      some (if slot + 1 < 3 then .clear (slot + 1) data else .done (.popped data)))
  | .stabLeft h => some (m.reserve h.a.left 0 tid, some (.stabRight h))
  | .stabRight h => some (m.reserve h.a.right 1 tid, some (.stabValidate h))
  | .stabValidate h => some (m, some (if h.a = m.anchor then .stabPrev h else h.exit.point))
  | .stabPrev h => (h.a.most h.side).map fun x =>
    (m, some (.stabReserve h (m.link h.side.opposite x).ptr))
  | .stabReserve h prev => some (m.reserve prev 2 tid, some (.stabRevalidate h prev))
  | .stabRevalidate h prev =>
    some (m, some (if h.a = m.anchor then .stabNext h prev else h.exit.point))
  | .stabNext h prev => prev.map fun p =>
    (m, some (if (m.link h.side p).ptr = h.a.most h.side then .stabSettle h prev
      else .stabCheck h prev (m.link h.side p)))
  | .stabCheck h prev prevNext =>
    some (m, some (if h.a = m.anchor then .stabCas h prev prevNext else h.exit.point))
  | .stabCas h prev prevNext => prev.map fun p =>
    if m.link h.side p = prevNext then
      (m.setLink h.side p ⟨h.a.most h.side, prevNext.sn + 1⟩, some (.stabSettle h prev))
    else (m, some h.exit.point)
  | .stabSettle h _ =>
    some (if m.anchor = h.a ∧ c.spurious = false then
      m.setAnchor { h.a with status := .stable } else m, some (.stabClear h 0))
  | .stabClear h slot =>
    some (m.reserve none slot tid,
      some (if slot + 1 < 3 then .stabClear h (slot + 1) else h.exit.point))
  | .done _ => some (m, none)

/-- A step of a thread: it makes a call or takes the next step of the one it is in. -/
def step (l : Fin n × Choice T) (s : State T n) : Option (State T n) :=
  match s.frames l.1 with
  | none =>
    let point : Point T :=
      match l.2.call.2 with
      | .push _ => .alloc
      | .pop => .popLoad
    some { s with frames := Function.update s.frames l.1 (some ⟨l.2.call.1, l.2.call.2, point⟩) }
  | some f =>
    (next s.mem l.2 l.1 f.side f.call f.point).map fun x =>
      ⟨x.1, Function.update s.frames l.1 (x.2.map fun p => { f with point := p })⟩

/-- `MMDeque(threadCount, glibc, empty)` -/
structure Init (s : State T n) : Prop where
  anchor : s.mem.anchor = ⟨none, none, .stable⟩
  haz : s.mem.haz = .initial
  life : ∀ x, s.mem.life x = .free
  frames : ∀ tid, s.frames tid = none

def machine (T : Type*) (n : ℕ) : Machine (Fin n × Choice T) (State T n) where
  init := Init
  step := step

end UnboundedDeque.MMDeque
