import UnboundedDeque.StepMachine
import UnboundedDeque.LinkedList

/-!
# The block pool of `BlockPool.hpp` as a step machine

Threads run `alloc` and `free` with `glibc_mem` false. Each load, store and
compare-exchange of the global pool and of `next_group` is a step; head nodes and
`next` of blocks are accessed by one thread at a time and go along with a step. The
block of a pointer stands for its payload. Memory for a new group comes from the
label of the step.
-/
namespace UnboundedDeque.BlockPool
open StepMachine

/-- `GROUP_SIZE` -/
def groupSize : ℕ := 8

/-- `block_head_node_t` -/
structure HeadNode where
  top : ℕ
  nth : ℕ
  count : ℕ
  deriving DecidableEq, Repr

/-- `cptr<shared_block_t>` with its counter of 32 bits. -/
structure CountedPtr where
  ptr : ℕ
  sn : UInt32
  deriving DecidableEq, Repr

/-- What an idle thread does. -/
inductive Call
  | alloc
  | free (block : ℕ)
  deriving DecidableEq, Repr

/-- Program points. A point that keeps an old value of the global pool also keeps
the number of changes the pool had then. -/
inductive Point
  | idle
  -- `alloc`
  | allocLoad
  | allocGroup (oldp : CountedPtr) (stamp : ℕ)
  | allocCas (oldp : CountedPtr) (group : ℕ) (stamp : ℕ)
  | allocTake (b : ℕ)
  -- `free`
  | freeLoad (ng : ℕ)
  | freeStore (ng : ℕ) (oldp : CountedPtr) (stamp : ℕ)
  | freeCas (ng : ℕ) (oldp : CountedPtr) (stamp : ℕ)
  | freeCut
  deriving DecidableEq, Repr

/-- The whereabouts of an address. -/
inductive Place (τ : Type*)
  | unused
  | held
  | listed (tid : τ)
  | pooled
  deriving DecidableEq

/-- The fields of the blocks, the global pool, the head nodes and the threads'
points. `place`, `lists`, `groups` and `swaps` are ghosts: where each block is, the
blocks each thread has, the groups of the global pool, and the number of its changes. -/
structure State (τ : Type*) where
  next : ℕ → ℕ
  nextGroup : ℕ → ℕ
  globalPool : CountedPtr
  headNodes : τ → HeadNode
  points : τ → Point
  place : ℕ → Place τ
  lists : τ → List ℕ
  groups : List (List ℕ)
  swaps : ℕ

/-- What a step leaves open: the call of an idle thread and the memory `memalign`
returns for a new group. -/
structure Choice where
  call : Call
  array : ℕ

variable {τ : Type*} [DecidableEq τ]

@[simps] def State.goto (s : State τ) (tid : τ) (pt : Point) : State τ :=
  { s with points := Function.update s.points tid pt }

/-- The removal of the block at the top, which `alloc` returns. -/
@[simps] def State.takeTop (s : State τ) (tid : τ) : State τ :=
  { s with
    headNodes := Function.update s.headNodes tid
      { top := s.next (s.headNodes tid).top
        nth := if (s.headNodes tid).top = (s.headNodes tid).nth then 0 else (s.headNodes tid).nth
        count := (s.headNodes tid).count - 1 }
    points := Function.update s.points tid .idle
    place := Function.update s.place (s.headNodes tid).top .held
    lists := Function.update s.lists tid (s.lists tid).tail }

/-- The memory of a new group. -/
def array (base : ℕ) : List ℕ := (List.range groupSize).map (base + ·)

@[simps] def State.appendBlockGroup (s : State τ) (tid : τ) (base : ℕ) : State τ :=
  { s with
    next := fun a =>
      if base ≤ a ∧ a < base + groupSize then if a = base + (groupSize - 1) then 0 else a + 1
      else s.next a
    nextGroup := fun a => if base ≤ a ∧ a < base + groupSize then 0 else s.nextGroup a
    headNodes := Function.update s.headNodes tid ⟨base, base, groupSize⟩
    place := fun a => if base ≤ a ∧ a < base + groupSize then .listed tid else s.place a
    lists := Function.update s.lists tid (array base) }

/-- `free` up to the test of the count. -/
@[simps] def State.push (s : State τ) (tid : τ) (b : ℕ) : State τ :=
  { s with
    next := Function.update s.next b (s.headNodes tid).top
    headNodes := Function.update s.headNodes tid
      { top := b
        nth := if (s.headNodes tid).count + 1 = groupSize + 1 then b else (s.headNodes tid).nth
        count := (s.headNodes tid).count + 1 }
    place := Function.update s.place b (.listed tid)
    lists := Function.update s.lists tid (b :: s.lists tid) }

/-- The compare-exchange of `alloc` that takes a group. -/
@[simps] def State.grab (s : State τ) (tid : τ) (oldp : CountedPtr) (group : ℕ) : State τ :=
  { s with
    globalPool := ⟨group, oldp.sn + 1⟩
    place := fun a => if a ∈ s.groups.headD [] then .listed tid else s.place a
    lists := Function.update s.lists tid (s.groups.headD [])
    groups := s.groups.tail
    swaps := s.swaps + 1 }

/-- The store of `free` to `next_group`. -/
@[simps] def State.link (s : State τ) (ng : ℕ) (oldp : CountedPtr) : State τ :=
  { s with nextGroup := Function.update s.nextGroup ng oldp.ptr }

/-- The compare-exchange of `free` that publishes a group. -/
@[simps] def State.publish (s : State τ) (tid : τ) (oldp : CountedPtr) (ng : ℕ) : State τ :=
  { s with
    globalPool := ⟨ng, oldp.sn + 1⟩
    place := fun a => if a ∈ (s.lists tid).drop groupSize then .pooled else s.place a
    lists := Function.update s.lists tid ((s.lists tid).take groupSize)
    groups := (s.lists tid).drop groupSize :: s.groups
    swaps := s.swaps + 1 }

/-- The end of `alloc` with a block of a grabbed group. -/
@[simps] def State.take (s : State τ) (tid : τ) (b : ℕ) : State τ :=
  { s with
    headNodes := Function.update s.headNodes tid
      { s.headNodes tid with top := s.next b, count := groupSize - 1 }
    points := Function.update s.points tid .idle
    place := Function.update s.place b .held
    lists := Function.update s.lists tid (s.lists tid).tail }

/-- The end of `free` after a group has been published. -/
@[simps] def State.cut (s : State τ) (tid : τ) : State τ :=
  { s with
    next := Function.update s.next (s.headNodes tid).nth 0
    headNodes := Function.update s.headNodes tid
      { s.headNodes tid with nth := 0, count := (s.headNodes tid).count - groupSize }
    points := Function.update s.points tid .idle }

def step : τ × Choice → State τ → Option (State τ)
  | (tid, c), s =>
    match s.points tid with
    | .idle =>
      match c.call with
      | .alloc =>
        if (s.headNodes tid).top ≠ 0 then some (s.takeTop tid) else some (s.goto tid .allocLoad)
      | .free b =>
        if s.place b = .held then
          let t := s.push tid b
          if (t.headNodes tid).count = groupSize * 2 then
            some (t.goto tid (.freeLoad (t.next (t.headNodes tid).nth)))
          else some t
        else none
    | .allocLoad =>
      if s.globalPool.ptr ≠ 0 then some (s.goto tid (.allocGroup s.globalPool s.swaps))
      else if c.array ≠ 0 ∧ ∀ a ∈ array c.array, s.place a = .unused then
        some ((s.appendBlockGroup tid c.array).takeTop tid)
      else none
    | .allocGroup oldp stamp => some (s.goto tid (.allocCas oldp (s.nextGroup oldp.ptr) stamp))
    | .allocCas oldp group _ =>
      if s.globalPool = oldp then some ((s.grab tid oldp group).goto tid (.allocTake oldp.ptr))
      else some (s.goto tid .allocLoad)
    | .allocTake b => some (s.take tid b)
    | .freeLoad ng => some (s.goto tid (.freeStore ng s.globalPool s.swaps))
    | .freeStore ng oldp stamp =>
      some ((s.link ng oldp).goto tid (.freeCas ng oldp stamp))
    | .freeCas ng oldp _ =>
      if s.globalPool = oldp then some ((s.publish tid oldp ng).goto tid .freeCut)
      else some (s.goto tid (.freeLoad ng))
    | .freeCut => some (s.cut tid)

/-- The constructor. -/
structure Init (s : State τ) : Prop where
  globalPool : s.globalPool = ⟨0, 0⟩
  headNodes : ∀ tid, s.headNodes tid = ⟨0, 0, 0⟩
  points : ∀ tid, s.points tid = .idle
  place : ∀ a, s.place a = .unused
  lists : ∀ tid, s.lists tid = []
  groups : s.groups = []
  swaps : s.swaps = 0

def machine (τ : Type*) [DecidableEq τ] : Machine (τ × Choice) (State τ) where
  init := Init
  step := step

/-- The number of changes the pool had when a thread loaded it. -/
def Point.stamp? : Point → Option ℕ
  | .allocCas _ _ stamp | .freeCas _ _ stamp => some stamp
  | _ => none

/-- Fewer than `2 ^ 32` compare-exchanges have succeeded between a thread's load of
the global pool and its compare-exchange. -/
def NoWrap (l : τ × Choice) (s : State τ) : Prop :=
  ∀ stamp, (s.points l.1).stamp? = some stamp → s.swaps < stamp + 2 ^ 32

end UnboundedDeque.BlockPool
