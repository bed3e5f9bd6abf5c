import UnboundedDeque.GlobalLock
import UnboundedDeque.LinearizableDeque

/-!
# Containers behind one lock

`SGLDeque` (`SGLDeque.hpp`) keeps a `std::deque` behind a test-and-set lock, and `SGLQueue`
(`SGLQueue.cpp`) a `std::list` behind a lock that knows its owner. Each call of the container
of the library is a step of its own.
-/
namespace UnboundedDeque
open StepMachine Linearizability GlobalLock

variable {T : Type*} {n : ℕ}

namespace SGLDeque

/-- The points of a call between `lock` and `unlock`. -/
inductive Local (T : Type*)
  | push (S : Side) (value : T)
  | isEmpty (S : Side)
  | back (S : Side)
  | popBack (S : Side) (value : T)
  deriving DecidableEq

/-- `m_nLock`: `lock` exchanges it for 1, and reads it until it is 0 before the next try. -/
def lock : Lock (Fin n) Bool where
  free := false
  set _ _ := true
  spins := true
  set_ne _ h := by cases h
  keep _ w hw := (Bool.eq_true_of_not_eq_false hw).symm

/-- The calls of `m_deque`. To read or to remove an end of an empty deque is undefined. -/
def body (m_empty : T) :
    Body (Fin n) Bool (Side × Call T) (Local T) (List T) (Option T) where
  enter
    | (S, .push value) => .push S value
    | (S, .pop) => .isEmpty S
  step _ _ l m_deque :=
    match l with
    | .push S value => some (S.add value m_deque, .inr none)
    | .isEmpty S =>
      some (m_deque, if m_deque.isEmpty then .inr (some m_empty) else .inl (.back S))
    | .back S => (S.first m_deque).map fun value => (m_deque, .inl (.popBack S value))
    | .popBack S value => if m_deque.isEmpty then none else some (S.rest m_deque, .inr (some value))

abbrev SGLState (n : ℕ) (T : Type*) :=
  State (Fin n) Bool (Side × Call T) (Local T) (List T) (Option T)

def machine (n : ℕ) (m_empty : T) : Machine (Fin n × Side × Call T) (SGLState n T) :=
  GlobalLock.machine lock (body m_empty) []

/-- A call alone does what it does on a plain deque. -/
theorem body_correct (m_empty : T) :
    Correct (lock (n := n)) (body m_empty) (valueObject m_empty) := by
  rintro p ⟨S, _ | _⟩ d
  · exact .last rfl
  · rcases eq_or_ne d [] with rfl | hd
    · have happly : (valueObject m_empty).apply (S, .pop) [] = (some m_empty, []) := by
        cases S <;> rfl
      rw [happly]
      exact .last rfl
    · obtain ⟨v, hv⟩ := S.first_ne_none hd
      have happly : (valueObject m_empty).apply (S, .pop) d = (some v, S.rest d) := by
        simp [valueObject, hv]
      rw [happly]
      have hempty : (body m_empty).step p true (.isEmpty S) d =
          some (d, .inl (.back S)) := by simp [body, hd]
      have hback : (body m_empty).step p true (.back S) d =
          some (d, .inl (.popBack S v)) := by simp [body, hv]
      exact .more hempty (.more hback (.last (by simp [body, hd])))

variable {m_empty : T} {s : SGLState n T}

/-- The calls of every run have the results they could have had one after another, and while
nobody holds the lock `m_deque` is what they leave. -/
theorem deque_linearizable
    {x : SGLState n T × List (Event (Fin n) (Side × Call T) (Option T))}
    (h : (withHistory (machine n m_empty) event).Reachable x) :
    ∃ l, Linearizable (valueObject m_empty) x.2 l ∧ ((∀ p, ¬x.1.Holds p) → x.1.data = l) :=
  linearizable (body_correct m_empty) h

/-- `m_deque` is used by one thread at a time, and no end of an empty deque is read or
removed. -/
theorem deque_exclusive (h : (machine n m_empty).Reachable s) :
    (∀ p q, s.Holds p → s.Holds q → p = q) ∧ (∀ p, s.Holds p → s.word = true) ∧
      ∀ x, ∃ t, (machine n m_empty).step x s = some t :=
  safe (body_correct m_empty) h

/-- A call returns if its thread runs alone, unless another one holds the lock, which that one
gives away if it runs first. -/
theorem deque_deadlock_free {p : Fin n} (h : (machine n m_empty).Reachable s)
    (hf : s.frames p ≠ none) :
    Finishes lock (body m_empty) [] p s ∨ ∃ q, q ≠ p ∧ s.Holds q ∧
      (machine n m_empty).Leads (fun x => x.1 = q) (State.Holds · q)
        (fun t => t.frames p = s.frames p ∧ Finishes lock (body m_empty) [] p t) s :=
  deadlock_free (body_correct m_empty) h hf

/-- `SGLDeque(empty)` -/
def constructed (n : ℕ) (T : Type*) : SGLState n T := ⟨false, [], fun _ => none⟩

theorem init_constructed (n : ℕ) (T : Type*) : Init lock [] (constructed n T) where
  word := rfl
  data := rfl
  frames _ := rfl

def pushSeven : Fin 2 × Side × Call ℕ := (⟨0, Nat.two_pos⟩, .right, .push 7)

def popLeft : Fin 2 × Side × Call ℕ := (Fin.last 1, .left, .pop)

/-- Two threads push and pop; thread 1 waits for the lock and takes it when it is free. -/
def contended : SGLState 2 ℕ × List (Event (Fin 2) (Side × Call ℕ) (Option ℕ)) :=
  ((withHistory (machine 2 0) event).exec (fun _ _ => True)
    [pushSeven, popLeft, pushSeven, popLeft, popLeft, pushSeven, pushSeven, popLeft, pushSeven,
      popLeft, popLeft] (constructed 2 ℕ, [])).getD (constructed 2 ℕ, [])

theorem contended_run : (withHistory (machine 2 0) event).Reachable contended :=
  Machine.Run.exec_getD _ (.start ⟨init_constructed 2 ℕ, rfl⟩)

theorem contended_linearizable :
    contended.2 = [.call 0 (.right, .push 7), .call 1 (.left, .pop), .ret 0 none] ∧
      ∃ l, Linearizable (valueObject 0) contended.2 l ∧
        ((∀ p, ¬contended.1.Holds p) → contended.1.data = l) :=
  ⟨by decide +kernel, deque_linearizable contended_run⟩

theorem contended_exclusive :
    (∀ p q, contended.1.Holds p → contended.1.Holds q → p = q) ∧
      (∀ p, contended.1.Holds p → contended.1.word = true) ∧
        ∀ x, ∃ t, (machine 2 0).step x contended.1 = some t :=
  deque_exclusive contended_run.reachable_of_account

theorem contended_deadlock_free : Finishes lock (body 0) [] 1 contended.1 ∨
    ∃ q, q ≠ 1 ∧ contended.1.Holds q ∧
      (machine 2 0).Leads (fun x => x.1 = q) (State.Holds · q)
        (fun t => t.frames 1 = contended.1.frames 1 ∧ Finishes lock (body 0) [] 1 t) contended.1 :=
  deque_deadlock_free contended_run.reachable_of_account (by decide +kernel)

end SGLDeque

namespace SGLQueue

/-- `EMPTY` of `RContainer.hpp`. -/
def EMPTY : Int32 := 0

inductive QueueCall
  | enqueue (val : Int32)
  | dequeue
  deriving DecidableEq

/-- The queue of one thread, which is made with `contents`. -/
def queueObject (contents : List Int32) : Object QueueCall (Option Int32) (List Int32) where
  init := contents
  apply
    | .enqueue val, q => (none, q ++ [val])
    | .dequeue, [] => (some EMPTY, [])
    | .dequeue, v :: q => (some v, q)

/-- The points of a call with the lock, from the assertion of `lockAcquire` to that of
`lockRelease`. -/
inductive Local
  | acquired (call : QueueCall)
  | pushBack (val : Int32)
  | empty
  | front
  | popFront (v : Int32)
  | lockRelease (result : Option Int32)
  deriving DecidableEq

/-- `lk`: -1, or the thread that has it; `lockAcquire` tries a compare-exchange until it has
found -1. -/
def lock : Lock (Fin n) ℤ where
  free := -1
  set tid lk := if lk = -1 then tid else lk
  spins := false
  set_ne tid := by
    rw [if_pos rfl]
    omega
  keep _ _ hw := if_neg hw

/-- What is done to `q`. An assertion that fails is not passed, and to read or to remove the
front of an empty list is undefined. -/
def body : Body (Fin n) ℤ QueueCall Local (List Int32) (Option Int32) where
  enter := .acquired
  step tid lk l q :=
    match l with
    | .acquired call =>
      if lk = tid then
        some (q, .inl (match call with
          | .enqueue val => .pushBack val
          | .dequeue => .empty))
      else none
    | .pushBack val => some (q ++ [val], .inl (.lockRelease none))
    | .empty => some (q, .inl (if q.isEmpty then .lockRelease (some EMPTY) else .front))
    | .front => q.head?.map fun v => (q, .inl (.popFront v))
    | .popFront v => if q.isEmpty then none else some (q.tail, .inl (.lockRelease (some v)))
    | .lockRelease result => if lk = tid then some (q, .inr result) else none

abbrev SGLState (n : ℕ) := State (Fin n) ℤ QueueCall Local (List Int32) (Option Int32)

def machine (n : ℕ) (contents : List Int32) : Machine (Fin n × QueueCall) (SGLState n) :=
  GlobalLock.machine lock body contents

/-- A call alone passes both assertions and does what it does on a plain queue. -/
theorem body_correct (contents : List Int32) :
    Correct (lock (n := n)) body (queueObject contents) := by
  rintro p (val | _) q
  · exact .more (if_pos rfl) (.more rfl (.last (if_pos rfl)))
  · cases q with
    | nil => exact .more (if_pos rfl) (.more rfl (.last (if_pos rfl)))
    | cons v q => exact .more (if_pos rfl) (.more rfl (.more rfl (.more rfl (.last (if_pos rfl)))))

variable {contents : List Int32} {s : SGLState n}

/-- The calls of every run have the results they could have had one after another, and while
nobody holds the lock `q` is what they leave. -/
theorem queue_linearizable {x : SGLState n × List (Event (Fin n) QueueCall (Option Int32))}
    (h : (withHistory (machine n contents) event).Reachable x) :
    ∃ q, Linearizable (queueObject contents) x.2 q ∧ ((∀ p, ¬x.1.Holds p) → x.1.data = q) :=
  linearizable (body_correct contents) h

/-- `q` is used by one thread at a time, whose id is in `lk`; both assertions hold whenever
they are reached. -/
theorem queue_asserts (h : (machine n contents).Reachable s) :
    (∀ p q, s.Holds p → s.Holds q → p = q) ∧ (∀ p : Fin n, s.Holds p → s.word = p) ∧
      ∀ x, ∃ t, (machine n contents).step x s = some t :=
  safe (body_correct contents) h

/-- `SGLQueue(contents)` -/
def constructed (n : ℕ) (contents : List Int32) : SGLState n := ⟨-1, contents, fun _ => none⟩

theorem init_constructed (n : ℕ) (contents : List Int32) :
    Init lock contents (constructed n contents) where
  word := rfl
  data := rfl
  frames _ := rfl

def enqueueSeven : Fin 2 × QueueCall := (⟨0, Nat.two_pos⟩, .enqueue 7)

def dequeueFive : Fin 2 × QueueCall := (Fin.last 1, .dequeue)

/-- A dequeue of thread 1 up to its return, with an enqueue of thread 0 that waits. -/
def contended : SGLState 2 × List (Event (Fin 2) QueueCall (Option Int32)) :=
  ((withHistory (machine 2 [5]) event).exec (fun _ _ => True)
    ([enqueueSeven, dequeueFive, dequeueFive, enqueueSeven] ++ List.replicate 7 dequeueFive ++
      [enqueueSeven]) (constructed 2 [5], [])).getD (constructed 2 [5], [])

theorem contended_run : (withHistory (machine 2 [5]) event).Reachable contended :=
  Machine.Run.exec_getD _ (.start ⟨init_constructed 2 [5], rfl⟩)

theorem dequeued_linearizable :
    contended.2 = [.call 0 (.enqueue 7), .call 1 .dequeue, .ret 1 (some 5)] ∧
      ∃ q, Linearizable (queueObject [5]) contended.2 q ∧
        ((∀ p, ¬contended.1.Holds p) → contended.1.data = q) :=
  ⟨by decide +kernel, queue_linearizable contended_run⟩

theorem dequeued_asserts :
    (∀ p q, contended.1.Holds p → contended.1.Holds q → p = q) ∧
      (∀ p : Fin 2, contended.1.Holds p → contended.1.word = p) ∧
        ∀ x, ∃ t, (machine 2 [5]).step x contended.1 = some t :=
  queue_asserts contended_run.reachable_of_account

end SGLQueue

end UnboundedDeque
