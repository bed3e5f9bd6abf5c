import UnboundedDeque.MMDequeMachine

/-!
# The invariant of `MMDeque`

The deque is a list of nodes with the anchor at its ends. A thread that has reserved both
ends of an anchor and has found the anchor unchanged knows the nodes between them: as long as
both are in the deque, the nodes between them are the same, for a node only comes back once
it has been freed.
-/
namespace UnboundedDeque.MMDeque

variable {T : Type*} {n : ℕ}

/-- The list of the deque's nodes. Links of neighbours agree in both directions, but for the
link to a node that has just been pushed. -/
structure Memory.Represents (m : Memory T n) (l : List Node) : Prop where
  nodup : l.Nodup
  ends : ∀ S, m.anchor.most S = S.first l
  pushed : ∀ S, m.anchor.status = .push S → 2 ≤ l.length
  linked : ∀ S x y, S.Next l x y →
    (m.link S x).ptr = some y ∨ m.anchor.status = .push S ∧ S.first l = some y

structure Memory.Shape (m : Memory T n) (l : List Node) : Prop where
  rep : m.Represents l
  queued : ∀ x, x ∈ l ↔ m.life x = .queued
  retired : ∀ u x, x ∈ m.haz.retired u ↔ m.life x = .retired u
  retired_nodup : ∀ u, (m.haz.retired u).Nodup
  range : m.haz.InRange

/-- The node has been in the deque and has not been freed since. -/
def Life.Past : Life n → Prop
  | .queued | .popped _ | .retired _ => True
  | .free | .owned _ => False

/-- A thread's hazard slot keeps a node from being freed. -/
structure Memory.Held (m : Memory T n) (tid : Fin n) (slot : ℕ) (x : Node) : Prop where
  guarded : m.haz.Guarded (HazardTracker.index 3 tid slot) x
  past : (m.life x).Past

/-- The slot that reserves an end of the anchor. -/
def slotOf : Side → ℕ
  | .left => 0
  | .right => 1

/-- Both ends of an anchor are in the deque. -/
def Both (l : List Node) (a : Anchor) : Prop := ∀ S x, a.most S = some x → x ∈ l

/-- What a thread knows that has reserved the ends of an anchor and has found it unchanged:
the nodes that were in the deque. -/
structure Memory.Validated (m : Memory T n) (l : List Node) (tid : Fin n) (a : Anchor)
    (seg : List Node) : Prop where
  nodup : seg.Nodup
  length : 2 ≤ seg.length
  held : ∀ S, ∃ x, a.most S = some x ∧ S.first seg = some x ∧ m.Held tid (slotOf S) x
  within : Both l a → seg <:+: l
  status : Both l a → ∀ S, m.anchor.status = .push S → m.anchor.most S = a.most S →
    a.status = .push S

/-- A pointer to the neighbour of an end. -/
def Beside (l seg : List Node) (a : Anchor) (S : Side) (prev : Option Node) : Prop :=
  Both l a → ∃ p x, prev = some p ∧ a.most S = some x ∧ S.Next seg p x

/-- The node of a push before it is in the deque. -/
structure Memory.Prepared (m : Memory T n) (tid : Fin n) (call : Call T) (node : Node) :
    Prop where
  owned : m.life node = .owned tid
  data : call = .push (m.data node)

def Exit.Facts (m : Memory T n) (tid : Fin n) (call : Call T) : Exit → Prop
  | .pushed => ∃ t, call = .push t
  | .push node => m.Prepared tid call node
  | .pop => call = .pop

/-- The slots that hold the ends of an anchor. -/
def Memory.Reserved (m : Memory T n) (tid : Fin n) (a : Anchor) (S : Side) : Prop :=
  m.haz.slots (HazardTracker.index 3 tid (slotOf S)) = a.most S

/-- What a helper knows after it has reserved the neighbour too. -/
structure Memory.Helps (m : Memory T n) (l : List Node) (tid : Fin n) (h : Helper)
    (prev : Option Node) : Prop where
  status : h.a.status = .push h.side
  knows : ∃ seg, m.Validated l tid h.a seg ∧ Beside l seg h.a h.side prev
  held : ∃ p, prev = some p ∧ m.Held tid 2 p

/-- What a call knows at each program point. -/
def Point.Facts (m : Memory T n) (l : List Node) (tid : Fin n) (S : Side) (call : Call T) :
    Point T → Prop
  | .alloc => ∃ t, call = .push t
  | .store node => m.life node = .owned tid
  | .pushLoad node => m.Prepared tid call node
  | .casEmpty node a => m.Prepared tid call node ∧ a.most S = none
  | .init node a => m.Prepared tid call node ∧ a.most S ≠ none ∧ a.status = .stable
  | .casPush node a => m.Prepared tid call node ∧ a.most S ≠ none ∧ a.status = .stable ∧
    (m.link S.opposite node).ptr = a.most S
  | .popLoad => call = .pop
  | .casSingle a => call = .pop ∧ a.left = a.right ∧ a.most S ≠ none
  | .reserveLeft a => call = .pop ∧ a.left ≠ a.right ∧ a.status = .stable
  | .reserveRight a =>
    call = .pop ∧ a.left ≠ a.right ∧ a.status = .stable ∧ m.Reserved tid a .left
  | .validate a =>
    call = .pop ∧ a.left ≠ a.right ∧ a.status = .stable ∧ ∀ R, m.Reserved tid a R
  | .neighbor a => call = .pop ∧ a.status = .stable ∧ ∃ seg, m.Validated l tid a seg
  | .casPop a prev => call = .pop ∧ a.status = .stable ∧
    ∃ seg, m.Validated l tid a seg ∧ Beside l seg a S prev
  | .read a => call = .pop ∧ ∃ x, a.most S = some x ∧ m.life x = .popped tid
  | .retire a _ => call = .pop ∧ ∃ x, a.most S = some x ∧ m.life x = .popped tid
  | .scan _ => call = .pop
  | .clear slot _ => call = .pop ∧ slot < 3
  | .stabLeft h => h.exit.Facts m tid call ∧ h.a.status = .push h.side
  | .stabRight h => h.exit.Facts m tid call ∧ h.a.status = .push h.side ∧ m.Reserved tid h.a .left
  | .stabValidate h =>
    h.exit.Facts m tid call ∧ h.a.status = .push h.side ∧ ∀ R, m.Reserved tid h.a R
  | .stabPrev h =>
    h.exit.Facts m tid call ∧ h.a.status = .push h.side ∧ ∃ seg, m.Validated l tid h.a seg
  | .stabReserve h prev => h.exit.Facts m tid call ∧ h.a.status = .push h.side ∧
    ∃ seg, m.Validated l tid h.a seg ∧ Beside l seg h.a h.side prev
  | .stabRevalidate h prev => h.exit.Facts m tid call ∧ h.a.status = .push h.side ∧
    (∃ seg, m.Validated l tid h.a seg ∧ Beside l seg h.a h.side prev) ∧
      m.haz.slots (HazardTracker.index 3 tid 2) = prev
  | .stabNext h prev => h.exit.Facts m tid call ∧ m.Helps l tid h prev
  | .stabCheck h prev prevNext => h.exit.Facts m tid call ∧ m.Helps l tid h prev ∧
    prevNext.ptr ≠ h.a.most h.side ∧ ∀ p, prev = some p → prevNext.sn ≤ (m.link h.side p).sn
  | .stabCas h prev prevNext => h.exit.Facts m tid call ∧ m.Helps l tid h prev ∧
    prevNext.ptr ≠ h.a.most h.side ∧ ∀ p, prev = some p →
      prevNext.sn ≤ (m.link h.side p).sn ∧ (m.link h.side p = prevNext → m.anchor = h.a)
  | .stabSettle h prev => h.exit.Facts m tid call ∧ m.Helps l tid h prev ∧
    ∀ p, prev = some p → Both l h.a → (m.link h.side p).ptr = h.a.most h.side
  | .stabClear h slot => h.exit.Facts m tid call ∧ slot < 3
  | .done _ => True

/-- The invariant: the shape of the memory and what every call knows. -/
structure Inv (s : State T n) (l : List Node) : Prop where
  shape : s.mem.Shape l
  facts : ∀ tid f, s.frames tid = some f → f.point.Facts s.mem l tid f.side f.call

/-- What other threads can rely on when thread `tid` takes a step. -/
structure Later (tid : Fin n) (m : Memory T n) (l : List Node) (m' : Memory T n)
    (l' : List Node) : Prop where
  slots : ∀ q slot, q ≠ tid → slot < 3 →
    m'.haz.slots (HazardTracker.index 3 q slot) = m.haz.slots (HazardTracker.index 3 q slot)
  held : ∀ q slot x, m'.haz.slots (HazardTracker.index 3 q slot) = some x →
    m.Held q slot x → m'.Held q slot x
  gone : ∀ x, (m.life x).Past → x ∈ l' → x ∈ l
  within : ∀ seg x y, seg.head? = some x → seg.getLast? = some y → (m.life x).Past →
    (m.life y).Past → x ∈ l' → y ∈ l' → seg <:+: l → seg <:+: l'
  status : ∀ S x, (m.life x).Past → m'.anchor.status = .push S → m'.anchor.most S = some x →
    m.anchor.status = .push S ∧ m.anchor.most S = some x
  link : ∀ S x, (m.life x).Past → m'.link S x = m.link S x ∨
    (m.link S x).sn < (m'.link S x).sn ∧ ∃ y, (m'.link S x).ptr = some y ∧ S.Next l' x y
  settled : ∀ S x, m.anchor.status = .push S → m.anchor.most S = some x → m'.anchor = m.anchor ∨
    ∃ p, S.Next l p x ∧ (m.link S p).ptr = some x
  owned : ∀ q x, q ≠ tid → m.life x = .owned q →
    m'.life x = .owned q ∧ m'.data x = m.data x ∧ ∀ S, m'.link S x = m.link S x
  popped : ∀ q x, q ≠ tid → m.life x = .popped q → m'.life x = .popped q ∧ m'.data x = m.data x

end UnboundedDeque.MMDeque
