import UnboundedDeque.StepMachine
import UnboundedDeque.AtomicDeque
import UnboundedDeque.OFDequeMemory

/-!
# The operations of `OFDeque.hpp` as a step machine

`Elimination` is false. Every load, store, compare-exchange and `fetch_add` of
shared memory is one step of a thread; an access to the thread's own buffer
cache goes along with the step before or after it. A point holds the locals that
are still read. The calls of the hazard tracker are steps that do nothing here.
A failed assertion leads to the point `failed`.
-/
namespace UnboundedDeque.OFDeque
open StepMachine

/-- What a round of `doPush` or `doPop` has read: the hint and the edge of the
oracle with its near and far slot. -/
structure View where
  hint : Hint
  buffer : Address
  index : ℤ
  near : Slot
  far : Slot

/-- The ways `findEdge` comes to a neighbour. -/
inductive LinkKind
  | farLink | nearLink | sealedFar | sealedNear
  deriving DecidableEq, Repr

/-- The locals of `findEdge`. `hazSlot` is `nextHazSlot`. -/
structure Find where
  hint : Hint
  hazSlot : Bool
  buffer : Address

/-- The pairs of `casSafe` and a second compare-exchange. -/
inductive Attempt
  | interiorPush
  | append (n : Address)
  | straddle (n : Address) (reach : Slot)
  | interiorPop
  | seal (n : Address) (reach : Slot)
  | remove (n : Address)
  | boundaryPop

/-- The locals of `updateHint` and of the `findActiveBuffer` it calls, where
`hazSlot` is `nextHazSlot`. -/
structure Update where
  side : Side
  threshold : ℕ
  hint : Hint
  buffer : Address
  hazSlot : Option Bool

inductive Point
  -- `oracle` and `reserveHint`
  | hintLoad
  | hintReserve (h : Hint)
  | hintCheck (h : Hint)
  -- `findEdge`
  | findLocal (f : Find)
  | findSlot (f : Find) (i : ℤ)
  | findPeek (f : Find) (i : ℤ)
  | findSealed (f : Find) (k : LinkKind)
  | findReserve (f : Find) (n : Address) (k : LinkKind)
  | findValidate (f : Find) (n : Address) (k : LinkKind)
  | findNeighbor (f : Find) (n : Address) (k : LinkKind)
  | failed
  -- `doPush` and `doPop`
  | near (h : Hint) (b : Address) (i : ℤ)
  | far (h : Hint) (b : Address) (i : ℤ) (near : Slot)
  | alloc (v : View)
  | initLeft (v : View) (n : Address)
  | initRight (v : View) (n : Address)
  | fill (v : View) (n : Address) (i : ℤ)
  | insertLink (v : View) (n : Address)
  | insertValue (v : View) (n : Address)
  | reach (v : View)
  | back (v : View) (reach : Slot)
  | recheck (v : View) (k : Attempt)
  | safe (v : View) (k : Attempt)
  | effect (v : View) (k : Attempt)
  | addLocal (b : Address) (d : ℤ) (r : Result Word)
  | casHint (h : Hint) (b : Address) (r : Result Word)
  -- `retire` and `updateHint`
  | updThreshold (v : View) (n : Address) (R : Side)
  | updLoad (v : View) (n : Address) (R : Side) (threshold : ℕ)
  | updFirst (v : View) (n : Address) (u : Update)
  | updSecond (v : View) (n : Address) (u : Update) (n0 : Slot)
  | updThird (v : View) (n : Address) (u : Update) (n0 n1 : Slot)
  | updLink (v : View) (n : Address) (u : Update) (i : ℤ)
  | updReserve (v : View) (n : Address) (u : Update) (p : Address)
  | updValidate (v : View) (n : Address) (u : Update) (p : Address)
  | updCas (v : View) (n : Address) (u : Update)
  | retire (v : View) (n : Address)
  -- `HazardTracker::clearAll`
  | clearFirst (r : Result Word)
  | clearSecond (r : Result Word)

/-- A call of `doPush<S>` or `doPop<S>` under way. -/
structure Frame where
  side : Side
  call : Call Word
  point : Point

structure State (τ : Type*) where
  mem : Memory τ
  frames : τ → Option Frame

/-- What a step leaves open: the call an idle thread makes, the address
`BlockPool::alloc` returns, and uninitialised words and counts. -/
structure Choice where
  call : Side × Call Word
  address : Address
  junk : Word
  junkCount : ℕ

variable {τ : Type*} [BufferSize]

/-- The correction of a local hint. -/
def clamp (index : ℤ) : ℤ :=
  if index < 1 then 1 else if bufferSize - 1 ≤ index then bufferSize - 2 else index

/-- The slot of the neighbour that is loaded. -/
def LinkKind.probe (S : Side) : LinkKind → ℤ
  | .farLink | .sealedFar => nearValue S
  | .nearLink | .sealedNear => farValue S

/-- The edge found between `b` and its neighbour `n`, if there is one. -/
def LinkKind.edge (S : Side) (b n : Address) (t : SlotType) : LinkKind → Option Address
  | .farLink => if t = farType S ∨ t = .sealed then some b else none
  | .nearLink => if t ≠ farType S then some n else none
  | .sealedFar => if t = farType S then some b else none
  | .sealedNear => if t = nearType S ∨ t = .value then some n else none

/-- The slot `casSafe` is applied to, with the expected contents. -/
def Attempt.safe (S : Side) (v : View) : Attempt → Address × ℤ × Slot
  | .interiorPop | .boundaryPop => (v.buffer, v.index + farDirection S, v.far)
  | _ => (v.buffer, v.index, v.near)

/-- The slot of the second compare-exchange, with the expected contents. -/
def Attempt.target (S : Side) (v : View) : Attempt → Address × ℤ × Slot
  | .interiorPush | .append _ | .remove _ => (v.buffer, v.index + farDirection S, v.far)
  | .straddle n reach | .seal n reach => (n, nearValue S, reach)
  | .interiorPop | .boundaryPop => (v.buffer, v.index, v.near)

/-- The value a call pushes. -/
def pushedValue : Call Word → Word
  | .push value => value
  | .pop => 0

def Attempt.action (S : Side) (call : Call Word) (v : View) (junk : Word) : Attempt → Action
  | .interiorPush => .push S v.buffer (v.index + farDirection S) (pushedValue call)
  | .append n => .append S v.buffer n
  | .straddle n _ => .push S n (nearValue S) (pushedValue call)
  | .interiorPop | .boundaryPop => .pop S v.buffer v.index junk
  | .seal n _ => .seal S n junk
  | .remove n => .unlink S v.buffer n junk

/-- `nearSlot.m_count++` -/
def View.countNear (v : View) : View := { v with near := { v.near with count := v.near.count + 1 } }

/-- `farSlot.m_type = GetFarType<S>(); farSlot.m_count++` -/
def View.emptyFar (S : Side) (v : View) : View :=
  { v with far := ⟨v.far.word, v.far.count + 1, farType S⟩ }

/-- `doPop`: the boundary pop. -/
def popBoundary (S : Side) (v : View) : Point :=
  if v.far.type = farType S then
    if v.near.type = nearType S then .recheck v .boundaryPop else .safe v .boundaryPop
  else .hintLoad

/-- `doPop`: the removal of a sealed far buffer. -/
def popRemove (S : Side) (v : View) (n : Address) (reach : Slot) : Point :=
  if reach.type = .sealed then
    if v.near.type = nearType S then .recheck v (.remove n) else .safe v (.remove n)
  else popBoundary S v

/-- `doPop`: the sealing of an empty far buffer. -/
def popSeal (S : Side) (v : View) (n : Address) (reach : Slot) : Point :=
  if reach.type = farType S then
    if v.near.type = nearType S ∨ v.near.type = .sealed then .recheck v (.seal n reach)
    else .safe v (.seal n reach)
  else popRemove S v n reach

/-- `doPush` after the back pointer test. -/
def pushStraddle (S : Side) (v : View) (n : Address) (reach : Slot) : Point :=
  if reach.type = farType S then .safe v (.straddle n reach)
  else if reach.type = .sealed then .safe v (.remove n)
  else .hintLoad

/-- After the removal of a sealed buffer or an unsuccessful try of it. -/
def afterRemove (S : Side) (call : Call Word) (v : View) : Point :=
  match call with
  | .push _ => .hintLoad
  | .pop => popBoundary S v

/-- `doPush` at an edge that passed the check. -/
def pushEdge (S : Side) (cache : Option Address) (v : View) : Point :=
  if v.index ≠ farValue S then .safe v .interiorPush
  else if v.far.type = farType S then
    match cache with
    | none => .alloc v
    | some n => .insertLink v n
  else .reach v

/-- `doPop` at an edge that passed the check. -/
def popEdge (S : Side) (v : View) : Point :=
  if v.index ≠ farValue S then
    if v.near.type = nearType S then .recheck v .interiorPop else .safe v .interiorPop
  else if v.far.type ≠ farType S then .reach v
  else popBoundary S v

/-- `doPush` and `doPop` with both slots of the edge read. -/
def checkEdge (S : Side) (call : Call Word) (cache : Option Address) (v : View) : Point :=
  if v.near.type = farType S ∨ (v.near.type = .sealed ∧ v.index ≠ farValue S) then .hintLoad
  else if v.index + farDirection S ≠ farLink S ∧ v.far.type ≠ farType S then .hintLoad
  else if v.index = nearLink S ∧ v.near.type ≠ nearType S then .hintLoad
  else
    match call with
    | .push _ => pushEdge S cache v
    | .pop => popEdge S v

/-- After an unsuccessful `casSafe`. -/
def Attempt.unsafeNext (S : Side) (call : Call Word) (v : View) : Attempt → Point
  | .seal n reach => popRemove S v n reach
  | .remove _ => afterRemove S call v
  | _ => .hintLoad

/-- After an unsuccessful second compare-exchange. -/
def Attempt.missedNext (S : Side) (call : Call Word) (v : View) : Attempt → Point
  | .seal n reach => popRemove S v.countNear n reach
  | .remove _ => afterRemove S call v.countNear
  | _ => .hintLoad

/-- After a successful second compare-exchange. -/
def Attempt.doneNext (S : Side) (v : View) : Attempt → Point
  | .interiorPush => .addLocal v.buffer (farDirection S) .pushed
  | .append n | .straddle n _ => .casHint v.hint n .pushed
  | .interiorPop => .addLocal v.buffer (-farDirection S) (.popped v.near.word)
  | .seal n reach => popRemove S v.countNear n ⟨reach.word, reach.count + 1, .sealed⟩
  | .remove n => .updThreshold (v.countNear.emptyFar S) n .left
  | .boundaryPop => .casHint v.hint v.buffer (.popped v.near.word)

/-- `retire` after the hint of a side has been updated. -/
def updDone (v : View) (n : Address) : Side → Point
  | .left => .updThreshold v n .right
  | .right => .retire v n

/-- The result of `isSealed` from its two loads. -/
def sealedIndex (n0 n1 : Slot) : ℤ :=
  if n0.type = .sealed then 1 else if n1.type = .sealed then bufferSize - 2 else -1

/-- `updateHint` and `findActiveBuffer` with a result of `isSealed`. -/
def updSealed (v : View) (n : Address) (u : Update) (i : ℤ) : Point :=
  match u.hazSlot with
  | none =>
    if i = -1 then
      if u.threshold < u.hint.count then updDone v n u.side else .updCas v n u
    else .updFirst v n { u with hazSlot := some true }
  | some _ =>
    if i = -1 then .updCas v n u
    else if i = farValue u.side then .updLink v n u (farLink u.side)
    else if i = nearValue u.side then .updLink v n u (nearLink u.side)
    else .failed

/-- `findEdge` with the slot at `index` loaded. -/
def findSwitch (S : Side) (f : Find) (i : ℤ) (x : Slot) : Point :=
  if i = farLink S then
    if x.type = farType S then .findSlot f (i - farDirection S)
    else .findReserve f x.word .farLink
  else if i = nearLink S then
    if x.type = nearType S then .findPeek f i
    else if x.type = .value then .findReserve f x.word .nearLink
    else .failed
  else if x.type = farType S then .findSlot f (i - farDirection S)
  else if x.type = .sealed then
    if i = farValue S then .findSealed f .sealedFar
    else if i = nearValue S then .findSealed f .sealedNear
    else .failed
  else .findPeek f i

variable [DecidableEq τ]

/-- One step of a call: what it does to the memory and the next point, `none`
at the return. -/
def next (m : Memory τ) (c : Choice) (tid : τ) (S : Side) (call : Call Word) :
    Point → Option (Action × Option Point)
  | .hintLoad => some (.skip, some (.hintReserve (m.hint S)))
  | .hintReserve h => some (.skip, some (.hintCheck h))
  | .hintCheck h =>
    some (.skip, some (if h.count = (m.hint S).count then .findLocal ⟨h, true, h.buffer⟩
      else .hintLoad))
  | .findLocal f => some (.skip, some (.findSlot f (clamp (m.localHint S f.buffer))))
  | .findSlot f i => some (.skip, some (findSwitch S f i (m.slot f.buffer i)))
  | .findPeek f i =>
    some (.skip, some (if m.type f.buffer (i + farDirection S) = farType S
      then .near f.hint f.buffer i else .findSlot f (i + farDirection S)))
  | .findSealed f k =>
    let i := if k = .sealedFar then farLink S else nearLink S
    some (.skip, some (.findReserve f (m.slot f.buffer i).word k))
  | .findReserve f n k => some (.skip, some (.findValidate { f with hazSlot := !f.hazSlot } n k))
  | .findValidate f n k =>
    some (.skip, some (if f.hint.count ≠ (m.hint S).count then .hintLoad
      else .findNeighbor f n k))
  | .findNeighbor f n k =>
    some (.skip, some (match k.edge S f.buffer n (m.type n (k.probe S)) with
      | some b => .near f.hint b (farValue S)
      | none => .findLocal { f with buffer := n }))
  | .failed => none
  | .near h b i => some (.skip, some (.far h b i (m.slot b i)))
  | .far h b i near =>
    some (.skip, some (checkEdge S call (m.cache S tid)
      ⟨h, b, i, near, m.slot b (i + farDirection S)⟩))
  | .alloc v =>
    if m.owner c.address = .unused then
      some (.alloc S c.address, some (.initLeft v c.address))
    else none
  | .initLeft v n => some (.setLocalHint .left n (nearValue S), some (.initRight v n))
  | .initRight v n => some (.setLocalHint .right n (nearValue S), some (.fill v n 0))
  | .fill v n i =>
    if i < bufferSize then
      some (.store n i ⟨c.junk, c.junkCount, farType S⟩, some (.fill v n (i + 1)))
    else some (.cache S n, some (.insertLink v n))
  | .insertLink v n =>
    some (.store n (nearLink S) ⟨v.buffer, c.junkCount, .value⟩, some (.insertValue v n))
  | .insertValue v n =>
    some (.store n (nearValue S) ⟨pushedValue call, c.junkCount, .value⟩,
      some (.safe v (.append n)))
  | .reach v => some (.skip, some (.back v (m.slot v.far.word (nearValue S))))
  | .back v reach =>
    some (.skip, some (if (m.slot v.far.word (nearLink S)).word ≠ v.buffer then .hintLoad
      else match call with
        | .push _ => pushStraddle S v v.far.word reach
        | .pop => popSeal S v v.far.word reach))
  | .recheck v k =>
    some (.skip, some (if (m.slot v.buffer v.index).count = v.near.count then .clearFirst .empty
      else .safe v k))
  | .safe v k =>
    let (b, i, x) := k.safe S v
    if m.slot b i = x then some (.casSafe b i, some (.effect v k))
    else some (.skip, some (k.unsafeNext S call v))
  | .effect v k =>
    let (b, i, x) := k.target S v
    if m.slot b i = x then some (k.action S call v c.junk, some (k.doneNext S v))
    else some (.skip, some (k.missedNext S call v))
  | .addLocal b d r => some (.setLocalHint S b (m.localHint S b + d), some (.clearFirst r))
  | .casHint h b r =>
    some (if m.hint S = h then .setHint S ⟨b, h.count + 1⟩ else .skip, some (.clearFirst r))
  | .updThreshold v n R => some (.skip, some (.updLoad v n R (m.hint R).count))
  | .updLoad v n R threshold =>
    some (.skip, some (.updFirst v n ⟨R, threshold, m.hint R, (m.hint R).buffer, none⟩))
  | .updFirst v n u => some (.skip, some (.updSecond v n u (m.slot u.buffer 1)))
  | .updSecond v n u n0 =>
    some (.skip, some (.updThird v n u n0 (m.slot u.buffer (bufferSize - 2))))
  | .updThird v n u n0 n1 =>
    some (.skip, some (if n0.count = (m.slot u.buffer 1).count
      then updSealed v n u (sealedIndex n0 n1) else .updFirst v n u))
  | .updLink v n u i => some (.skip, some (.updReserve v n u (m.slot u.buffer i).word))
  | .updReserve v n u p =>
    some (.skip, some (.updValidate v n { u with hazSlot := u.hazSlot.map (!·) } p))
  | .updValidate v n u p =>
    some (.skip, some (if u.hint.count ≠ (m.hint u.side).count
      then .updLoad v n u.side u.threshold else .updFirst v n { u with buffer := p }))
  | .updCas v n u =>
    if m.hint u.side = u.hint then
      some (.setHint u.side ⟨u.buffer, u.hint.count + 1⟩, some (updDone v n u.side))
    else some (.skip, some (.updLoad v n u.side u.threshold))
  | .retire v n => some (.retire n, some (afterRemove S call v))
  | .clearFirst r => some (.skip, some (.clearSecond r))
  | .clearSecond _ => some (.skip, none)

def step : τ × Choice → State τ → Option (State τ)
  | (tid, c), s =>
    match s.frames tid with
    | none =>
      some { s with
        frames := Function.update s.frames tid (some ⟨c.call.1, c.call.2, .hintLoad⟩) }
    | some f =>
      (next s.mem c tid f.side f.call f.point).map fun (a, p) =>
        ⟨s.mem.act tid a,
          Function.update s.frames tid (p.map fun p => { f with point := p })⟩

/-- The constructor `OFDeque(empty, threadCount, glibc)`. -/
structure Init (s : State τ) : Prop where
  mem : s.mem.Init
  frames : ∀ tid, s.frames tid = none

def machine (τ : Type*) [DecidableEq τ] : Machine (τ × Choice) (State τ) where
  init := Init
  step := step

/-- The smallest buffers. -/
@[reducible] def four : BufferSize := ⟨4, le_rfl⟩

/-- The deque as the constructor leaves it, with its buffer at address 0. -/
def constructed (τ : Type*) : State τ where
  mem := {
    slot := fun _ i => ⟨0, 0, if i < bufferSize / 2 then .left else .right⟩
    localHint := fun S _ => if S = .left then bufferSize / 2 else bufferSize / 2 - 1
    hint := fun _ => ⟨0, 0⟩
    cache := fun _ _ => none
    retired := []
    owner := fun b => if b = 0 then .published else .unused
    chain := [0]
    dead := []
    stamp := fun _ _ => 0 }
  frames := fun _ => none

omit [DecidableEq τ] in
theorem init_constructed : Init (constructed τ) where
  mem := {
    buffer := by
      refine ⟨0, rfl, rfl, fun c hc => if_neg hc, fun _ => rfl, rfl, rfl, fun i _ hi => ?_,
        fun i hi _ => ?_⟩
      · exact if_pos hi
      · exact if_neg (not_lt.mpr hi)
    dead := rfl
    cache := fun _ _ => rfl
    retired := rfl }
  frames := fun _ => rfl

/-- A number of steps of a thread; an idle thread starts the call. -/
def steps (n tid : ℕ) (S : Side) (call : Call Word) (b : Address) : List (ℕ × Choice) :=
  List.replicate n (tid, ⟨(S, call), b, 0, 0⟩)

end UnboundedDeque.OFDeque
