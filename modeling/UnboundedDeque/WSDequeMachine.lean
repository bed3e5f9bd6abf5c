import UnboundedDeque.StepMachine

/-!
# The work-stealing deque of `WSDeque.hpp` as a step machine

One owner calls `push` and `pop`, thieves `k : τ` call `steal`. Every load,
store and compare-exchange of the source is one step; the copying loop of
`ring_t::grow` takes one step an element. Indices are unbounded. Ring addresses
are reused: `new` may return every address that is not in use, and a retired
ring is freed at any time no hazard slot names it.
-/
namespace UnboundedDeque.WSDeque
open StepMachine

abbrev Address := ℕ

/-- `ring_t`. Cells that were never written hold what `new T[]` left there. -/
structure Ring (T : Type*) where
  logsize : ℕ
  arr : ℕ → T

variable {T τ : Type*}

def Ring.size (r : Ring T) : ℤ := 2 ^ r.logsize

/-- The cell `i % size()`; the remainder truncates toward zero as in C++. -/
def Ring.cell (r : Ring T) (i : ℤ) : ℕ := (i.tmod r.size).toNat

def Ring.get (r : Ring T) (i : ℤ) : T := r.arr (r.cell i)

def Ring.put (r : Ring T) (i : ℤ) (val : T) : Ring T :=
  { r with arr := Function.update r.arr (r.cell i) val }

inductive OpFlag
  | success | empty | abort
  deriving DecidableEq, Repr

/-- Program points of the owner with the locals that are still read. -/
inductive OwnerPc (T : Type*)
  | idle
  | pushBottom (o : T)
  | pushTop (o : T) (b : ℤ)
  | pushRing (o : T) (b t : ℤ)
  | pushNew (o : T) (b t : ℤ) (old : Address)
  | pushGrow (o : T) (b : ℤ) (old ring : Address) (i : ℤ)
  | pushPublish (o : T) (b : ℤ) (old ring : Address)
  | pushRetire (o : T) (b : ℤ) (old ring : Address)
  | pushPut (o : T) (b : ℤ) (ring : Address)
  | pushSetBottom (o : T) (b : ℤ)
  | popBottom
  | popRing (b : ℤ)
  | popSetBottom (b : ℤ) (ring : Address)
  | popTop (b : ℤ) (ring : Address)
  | popRestore (t : ℤ)
  | popGet (b t : ℤ) (ring : Address)
  | popCas (t : ℤ) (o : T)
  | popSetBottomTop (t : ℤ) (o : T)

inductive ThiefPc (T : Type*)
  | idle
  | top
  | bottom (t : ℤ)
  | ring (t b : ℤ)
  | reserve (t b : ℤ) (ring : Address)
  | recheck (t b : ℤ) (ring : Address)
  | get (t : ℤ) (ring : Address)
  | cas (t : ℤ) (o : T)
  | clear (flag : OpFlag) (out : Option T)

/-- Effects on the contents: a push when it stores `bottom`, a pop or a steal
when it has secured its value. -/
inductive Event (T τ : Type*)
  | push (o : T)
  | pop (o : T)
  | steal (k : τ) (o : T)

/-- `deque_t` with the heap of rings, the hazard slots and the threads' program
points. `log` is a ghost: the effects so far, the latest one first. -/
structure State (T τ : Type*) where
  top : ℤ
  bottom : ℤ
  activeArray : Address
  rings : Address → Option (Ring T)
  retired : List Address
  hazard : τ → Option Address
  owner : OwnerPc T
  thief : τ → ThiefPc T
  log : List (Event T τ)

/-- What a step of the owner leaves open: the call an idle owner makes (`none`
for a pop), the address and contents of a new ring, and whether a weak
compare-exchange fails although the values agree. -/
structure Choice (T : Type*) where
  call : Option T
  address : Address
  junk : ℕ → T
  spurious : Bool

inductive Label (T τ : Type*)
  | owner (c : Choice T)
  | thief (k : τ) (spurious : Bool)
  | free (a : Address)

/-- `deque_t::push` and `deque_t::pop`. A step that would read a freed ring is
not enabled. -/
def ownerStep (c : Choice T) (s : State T τ) : Option (State T τ) :=
  match s.owner with
  | .idle =>
    match c.call with
    | some o => some { s with owner := .pushBottom o }
    | none => some { s with owner := .popBottom }
  | .pushBottom o => some { s with owner := .pushTop o s.bottom }
  | .pushTop o b => some { s with owner := .pushRing o b s.top }
  | .pushRing o b t =>
    (s.rings s.activeArray).map fun r =>
      if r.size - 1 ≤ b - t then { s with owner := .pushNew o b t s.activeArray }
      else { s with owner := .pushPut o b s.activeArray }
  | .pushNew o b t old =>
    match s.rings c.address, s.rings old with
    | none, some r => some { s with
        rings := Function.update s.rings c.address (some ⟨r.logsize + 1, c.junk⟩)
        owner := .pushGrow o b old c.address t }
    | _, _ => none
  | .pushGrow o b old ring i =>
    match s.rings old, s.rings ring with
    | some r, some a =>
      if i < b then some { s with
        rings := Function.update s.rings ring (some (a.put i (r.get i)))
        owner := .pushGrow o b old ring (i + 1) }
      else some { s with owner := .pushPublish o b old ring }
    | _, _ => none
  | .pushPublish o b old ring =>
    some { s with activeArray := ring, owner := .pushRetire o b old ring }
  | .pushRetire o b old ring =>
    some { s with retired := old :: s.retired, owner := .pushPut o b ring }
  | .pushPut o b ring =>
    (s.rings ring).map fun r => { s with
      rings := Function.update s.rings ring (some (r.put b o))
      owner := .pushSetBottom o b }
  | .pushSetBottom o b =>
    some { s with bottom := b + 1, owner := .idle, log := .push o :: s.log }
  | .popBottom => some { s with owner := .popRing s.bottom }
  | .popRing b => some { s with owner := .popSetBottom (b - 1) s.activeArray }
  | .popSetBottom b ring => some { s with bottom := b, owner := .popTop b ring }
  | .popTop b ring =>
    if b - s.top < 0 then some { s with owner := .popRestore s.top }
    else some { s with owner := .popGet b s.top ring }
  | .popRestore t => some { s with bottom := t, owner := .idle }
  | .popGet b t ring =>
    (s.rings ring).map fun r =>
      if 0 < b - t then { s with owner := .idle, log := .pop (r.get b) :: s.log }
      else { s with owner := .popCas t (r.get b) }
  | .popCas t o =>
    if s.top = t ∧ c.spurious = false then
      some { s with top := t + 1, owner := .popSetBottomTop t o, log := .pop o :: s.log }
    else some { s with owner := .idle }
  | .popSetBottomTop t _ => some { s with bottom := t + 1, owner := .idle }

/-- `deque_t::steal`. -/
def thiefStep [DecidableEq τ] (k : τ) (spurious : Bool) (s : State T τ) : Option (State T τ) :=
  let goto (pc : ThiefPc T) : State T τ := { s with thief := Function.update s.thief k pc }
  match s.thief k with
  | .idle => some (goto .top)
  | .top => some (goto (.bottom s.top))
  | .bottom t => some (goto (.ring t s.bottom))
  | .ring t b => some (goto (.reserve t b s.activeArray))
  | .reserve t b ring =>
    some { goto (.recheck t b ring) with hazard := Function.update s.hazard k (some ring) }
  | .recheck t b ring =>
    if ring ≠ s.activeArray then some (goto .top)
    else if b - t ≤ 0 then some (goto (.clear .empty none))
    else some (goto (.get t ring))
  | .get t ring => (s.rings ring).map fun r => goto (.cas t (r.get t))
  | .cas t o =>
    if s.top = t ∧ spurious = false then
      some { goto (.clear .success (some o)) with top := t + 1, log := .steal k o :: s.log }
    else some (goto (.clear .abort none))
  | .clear _ _ => some { goto .idle with hazard := Function.update s.hazard k none }

/-- The hazard tracker deletes a retired ring that no hazard slot names. -/
def freeStep (a : Address) (s : State T τ) : Option (State T τ) :=
  if a ∈ s.retired then some { s with
    rings := Function.update s.rings a none
    retired := s.retired.filter (· ≠ a) }
  else none

def step [DecidableEq τ] [Fintype τ] : Label T τ → State T τ → Option (State T τ)
  | .owner c, s => ownerStep c s
  | .thief k spurious, s => thiefStep k spurious s
  | .free a, s => if ∀ k, s.hazard k ≠ some a then freeStep a s else none

/-- `deque_t(logsize, haz)`. -/
structure Init (logsize : ℕ) (s : State T τ) : Prop where
  top : s.top = 0
  bottom : s.bottom = 0
  ring : ∃ arr, s.rings s.activeArray = some ⟨logsize, arr⟩
  unused : ∀ a, a ≠ s.activeArray → s.rings a = none
  retired : s.retired = []
  owner : s.owner = .idle
  thief : ∀ k, s.thief k = .idle
  log : s.log = []

def machine (logsize : ℕ) (T τ : Type*) [DecidableEq τ] [Fintype τ] :
    Machine (Label T τ) (State T τ) where
  init := Init logsize
  step := step

/-- The entries of a ring at the indices `top .. bottom - 1`. -/
def Ring.entries (r : Ring T) (top bottom : ℤ) : List T :=
  (List.range (bottom - top).toNat).map fun j : ℕ => r.get (top + j)

/-- Contents of the active ring. -/
def State.entries (s : State T τ) : List T :=
  match s.rings s.activeArray with
  | some r => r.entries s.top s.bottom
  | none => []

/-- The atomic deque: a log of effects leads to these contents. A value is
taken from the end it is taken at and only while it is there. -/
inductive Replays : List (Event T τ) → List T → Prop
  | nil : Replays [] []
  | push {es : List (Event T τ)} {q : List T} {o : T} (prior : Replays es q) :
      Replays (.push o :: es) (q ++ [o])
  | pop {es : List (Event T τ)} {q : List T} {o : T} (prior : Replays es (q ++ [o])) :
      Replays (.pop o :: es) q
  | steal {es : List (Event T τ)} {q : List T} {k : τ} {o : T} (prior : Replays es (o :: q)) :
      Replays (.steal k o :: es) q

def pushed (es : List (Event T τ)) : List T :=
  es.filterMap fun | .push o => some o | _ => none

def taken (es : List (Event T τ)) : List T :=
  es.filterMap fun | .push _ => none | .pop o => some o | .steal _ o => some o

/-- Together with the contents, the values taken are exactly those pushed. -/
theorem Replays.perm {es : List (Event T τ)} {q : List T} (h : Replays es q) :
    (taken es ++ q).Perm (pushed es) := by
  induction h with
  | nil => exact .refl _
  | @push es q o _ ih =>
    have hp : (taken (.push o :: es) ++ (q ++ [o])).Perm (o :: (taken es ++ q)) := by
      simp [taken, ← List.append_assoc]
    exact hp.trans (ih.cons o)
  | @pop es q o _ ih =>
    have hp : (taken (.pop o :: es) ++ q).Perm (taken es ++ (q ++ [o])) := by
      simpa [taken, ← List.append_assoc] using (List.perm_append_singleton o (taken es ++ q)).symm
    exact hp.trans ih
  | @steal es q k o _ ih =>
    have hp : (taken (.steal k o :: es) ++ q).Perm (taken es ++ o :: q) := by
      simp [taken, List.perm_middle.symm]
    exact hp.trans ih

end UnboundedDeque.WSDeque
