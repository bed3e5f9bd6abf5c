import UnboundedDeque.OFDequeBuffer

/-!
# The shared memory of the deque and its shape

The buffers are kept with three ghosts: the live chain from left to right, the
buffers unlinked from it with the latest one first, and the owner of every
address. A buffer is published by the compare-exchange that links it. An action
is what one atomic step does to the memory.
-/
namespace UnboundedDeque.OFDeque

abbrev Address := ℕ

/-- `GlobalHint`. -/
structure Hint where
  buffer : Address
  count : ℕ
  deriving DecidableEq, Repr

inductive Owner (τ : Type*)
  | unused
  | thread (S : Side) (tid : τ)
  | published
  deriving DecidableEq

/-- The shared memory. `cache` is `m_pLeftBufferCache` and `m_pRightBufferCache`;
`retired` lists the calls of `HazardTracker::retire`. Ghosts: `owner`, `chain`,
`dead` and the hint counters `stamp` at the time a buffer was unlinked. -/
structure Memory (τ : Type*) where
  slot : Address → ℤ → Slot
  localHint : Side → Address → ℤ
  hint : Side → Hint
  cache : Side → τ → Option Address
  retired : List Address
  owner : Address → Owner τ
  chain : List Address
  dead : List Address
  stamp : Address → Side → ℕ

/-- What an atomic step does to the memory. -/
inductive Action
  | skip
  | casSafe (b : Address) (i : ℤ)
  | push (S : Side) (b : Address) (i : ℤ) (value : Word)
  | append (S : Side) (b n : Address)
  | pop (S : Side) (b : Address) (i : ℤ) (junk : Word)
  | seal (S : Side) (n : Address) (junk : Word)
  | unlink (S : Side) (b n : Address) (junk : Word)
  | alloc (S : Side) (n : Address)
  | store (n : Address) (i : ℤ) (x : Slot)
  | cache (S : Side) (n : Address)
  | setLocalHint (S : Side) (b : Address) (index : ℤ)
  | setHint (S : Side) (h : Hint)
  | retire (n : Address)

variable {τ : Type*}

namespace Memory

def set (m : Memory τ) (b : Address) (i : ℤ) (x : Slot) : Memory τ :=
  { m with slot := Function.update m.slot b (Function.update (m.slot b) i x) }

/-- A successful compare-exchange on a slot; it counts the slot's version. -/
def cas (m : Memory τ) (b : Address) (i : ℤ) (word : Word) (type : SlotType) : Memory τ :=
  m.set b i ⟨word, (m.slot b i).count + 1, type⟩

variable [BufferSize]

variable [DecidableEq τ]

/-- An action of a thread. -/
def act (m : Memory τ) (tid : τ) : Action → Memory τ
  | .skip => m
  | .casSafe b i => m.cas b i (m.slot b i).word (m.slot b i).type
  | .push _ b i value => m.cas b i value .value
  | .append S b n =>
    { (m.cas b (farLink S) n .value) with
      cache := Function.update m.cache S (Function.update (m.cache S) tid none)
      owner := Function.update m.owner n .published
      chain := S.add n m.chain }
  | .pop S b i junk => m.cas b i junk (farType S)
  | .seal S n junk => m.cas n (nearValue S) junk .sealed
  | .unlink S b n junk =>
    { (m.cas b (farLink S) junk (farType S)) with
      chain := m.chain.erase n
      dead := n :: m.dead
      stamp := Function.update m.stamp n fun R => (m.hint R).count }
  | .alloc S n => { m with owner := Function.update m.owner n (.thread S tid) }
  | .store n i x => m.set n i x
  | .cache S n =>
    { m with cache := Function.update m.cache S (Function.update (m.cache S) tid (some n)) }
  | .setLocalHint S b index =>
    { m with
      localHint := Function.update m.localHint S (Function.update (m.localHint S) b index) }
  | .setHint S h => { m with hint := Function.update m.hint S h }
  | .retire n => { m with retired := n :: m.retired }

/-- The buffer is or was part of the deque. -/
def Published (m : Memory τ) (b : Address) : Prop := b ∈ m.chain ∨ b ∈ m.dead

def type (m : Memory τ) (b : Address) (i : ℤ) : SlotType := (m.slot b i).type

/-- The type a slot is read as. -/
def reads (m : Memory τ) (b : Address) (i : ℤ) : SlotType := (m.type b i).reads i

/-- The slot holds a link to the buffer. -/
def IsLink (m : Memory τ) (b : Address) (i : ℤ) (n : Address) : Prop :=
  m.type b i = .value ∧ (m.slot b i).word = n

/-- The buffer and the next one towards `S` link to each other. -/
def Joined (m : Memory τ) (S : Side) (b n : Address) : Prop :=
  m.IsLink b (farLink S) n ∧ m.IsLink n (nearLink S) b

/-- `doPush` has prepared the buffer to be appended to `b`. -/
structure Prepared (m : Memory τ) (S : Side) (b n : Address) : Prop where
  link : m.IsLink n (nearLink S) b
  value : m.type n (nearValue S) = .value
  farLink : m.type n (farLink S) = farType S
  rest : ∀ i, Inner i → i ≠ nearValue S → m.type n i = farType S

/-- The condition under which an action of a thread keeps the shape of the deque. -/
def Allowed (m : Memory τ) (tid : τ) : Action → Prop
  | .skip => True
  | .casSafe b _ => m.Published b
  | .push S b i _ => m.Published b ∧ Inner i ∧ m.type b i = farType S ∧
    (i ≠ nearValue S → m.reads b (i - farDirection S) ≠ farType S)
  | .append S b n => m.Published b ∧ m.type b (farLink S) = farType S ∧
    m.type b (farValue S) ≠ farType S ∧ m.Prepared S b n ∧ m.owner n = .thread S tid
  | .pop S b i _ => m.Published b ∧ Inner i ∧ m.type b i = .value ∧
    m.type b (i + farDirection S) = farType S
  | .seal S n _ => m.type n (nearValue S) = farType S ∧
    ∃ b, m.Published b ∧ m.Joined S b n ∧ m.type b (farValue S) ≠ .sealed
  | .unlink S b n _ => m.Published b ∧ m.Joined S b n ∧ m.type n (nearValue S) = .sealed
  | .alloc _ n => m.owner n = .unused
  | .store n _ _ => ∃ S, m.owner n = .thread S tid
  | .cache S n => m.owner n = .thread S tid
  | .setLocalHint _ _ _ => True
  | .setHint _ h => m.Published h.buffer
  | .retire _ => True

end Memory

/-- A list of buffers in the direction `S`. -/
def orient (S : Side) (l : List Address) : List Address :=
  match S with
  | .left => l.reverse
  | .right => l

variable [BufferSize]

/-- The shape of the deque. -/
structure Shape (m : Memory τ) : Prop where
  nonempty : m.chain ≠ []
  nodup : (m.chain ++ m.dead).Nodup
  owner : ∀ b, m.Published b → m.owner b = .published
  cache : ∀ S tid n, m.cache S tid = some n → m.owner n = .thread S tid
  hint : ∀ S, m.Published (m.hint S).buffer
  buffer : ∀ b, m.Published b → BufferOk (m.type b)
  target : ∀ b S n, m.Published b → m.IsLink b (farLink S) n → m.Published n
  joined : ∀ S, (orient S m.chain).IsChain (m.Joined S)
  ends : ∀ S b, (orient S m.chain).getLast? = some b → m.type b (farLink S) = farType S
  apart : ∀ S b n, m.Published b → m.Joined S b n → m.type b (farValue S) = .sealed →
    m.type n (nearValue S) ≠ .sealed
  dead : ∀ l d k, m.dead = l ++ d :: k → ∃ S n, m.type d (farValue S) = .sealed ∧
    m.IsLink d (farLink S) n ∧ (n ∈ m.chain ∨ n ∈ l) ∧ ¬ m.IsLink n (nearLink S) d

/-- The constructor's memory: one buffer, filled half and half. -/
structure Memory.Init (m : Memory τ) : Prop where
  buffer : ∃ b, m.chain = [b] ∧ m.owner b = .published ∧ (∀ c, c ≠ b → m.owner c = .unused) ∧
    (∀ S, m.hint S = ⟨b, 0⟩) ∧ m.localHint .left b = bufferSize / 2 ∧
    m.localHint .right b = bufferSize / 2 - 1 ∧
    (∀ i, 0 ≤ i → i < bufferSize / 2 → m.type b i = .left) ∧
    (∀ i, bufferSize / 2 ≤ i → i < bufferSize → m.type b i = .right)
  dead : m.dead = []
  cache : ∀ S tid, m.cache S tid = none
  retired : m.retired = []

section Orient

omit [BufferSize]

theorem orient_add (S : Side) (n : Address) (l : List Address) :
    orient S (S.add n l) = orient S l ++ [n] := by
  cases S <;> simp [orient]

@[simp] theorem orient_orient (S : Side) (l : List Address) : orient S (orient S l) = l := by
  cases S <;> simp [orient]

@[simp] theorem mem_orient {S : Side} {l : List Address} {b : Address} :
    b ∈ orient S l ↔ b ∈ l := by
  cases S <;> simp [orient]

@[simp] theorem orient_eq_nil {S : Side} {l : List Address} : orient S l = [] ↔ l = [] := by
  cases S <;> simp [orient]

theorem orient_opposite (S : Side) (l : List Address) :
    orient S.opposite l = (orient S l).reverse := by
  cases S <;> simp [orient, Side.opposite]

@[simp] theorem mem_add {S : Side} {l : List Address} {n b : Address} :
    b ∈ S.add n l ↔ b = n ∨ b ∈ l := by
  cases S <;> simp [or_comm]

/-- A list that ends with `b` in a direction is `b` added to the rest. -/
theorem eq_add_of_getLast {S : Side} {l : List Address} {b : Address}
    (h : (orient S l).getLast? = some b) : ∃ rest, l = S.add b rest := by
  obtain ⟨k, hk⟩ := List.getLast?_eq_some_iff.mp h
  refine ⟨orient S k, ?_⟩
  rw [← orient_orient S l, hk, ← orient_orient S (S.add b _), orient_add, orient_orient]

/-- In a chain a member is the last one or related to another member. -/
theorem getLast_or_rel {α : Type*} {R : α → α → Prop} {l : List α} (h : l.IsChain R) {b : α}
    (hb : b ∈ l) : l.getLast? = some b ∨ ∃ c ∈ l, R b c := by
  induction l with
  | nil => cases hb
  | cons a l ih =>
    cases l with
    | nil =>
      obtain rfl := List.mem_singleton.mp hb
      exact .inl rfl
    | cons c l =>
      obtain ⟨hac, hl⟩ := List.isChain_cons_cons.mp h
      rcases List.mem_cons.mp hb with rfl | hb
      · exact .inr ⟨c, by simp, hac⟩
      · rcases ih hl hb with hlast | ⟨d, hd, hr⟩
        · exact .inl (by rw [List.getLast?_cons_cons, hlast])
        · exact .inr ⟨d, List.mem_cons_of_mem _ hd, hr⟩

end Orient

section Cas

omit [BufferSize]

variable (m : Memory τ) (b c n : Address) (i j : ℤ) (w : Word) (t : SlotType)

theorem Memory.slot_cas : (m.cas b i w t).slot b i = ⟨w, (m.slot b i).count + 1, t⟩ := by
  simp [Memory.cas, Memory.set]

theorem Memory.slot_set_ne {x : Slot} (h : c ≠ b ∨ j ≠ i) :
    (m.set b i x).slot c j = m.slot c j := by
  by_cases hc : c = b
  · subst hc
    simp [Memory.set, h.resolve_left fun h => h rfl]
  · simp [Memory.set, hc]

theorem Memory.slot_cas_ne (h : c ≠ b ∨ j ≠ i) : (m.cas b i w t).slot c j = m.slot c j :=
  m.slot_set_ne b c i j h

theorem Memory.type_cas : (m.cas b i w t).type b i = t := by
  rw [Memory.type, slot_cas]

theorem Memory.type_cas_ne (h : c ≠ b ∨ j ≠ i) : (m.cas b i w t).type c j = m.type c j := by
  rw [Memory.type, slot_cas_ne _ _ _ _ _ _ _ h, Memory.type]

theorem Memory.type_cas_self : (m.cas b i w t).type b = Function.update (m.type b) i t := by
  funext j
  by_cases hj : j = i
  · rw [hj, type_cas, Function.update_self]
  · rw [type_cas_ne _ _ _ _ _ _ _ (.inr hj), Function.update_of_ne hj]

theorem Memory.type_cas_other (h : c ≠ b) : (m.cas b i w t).type c = m.type c := by
  funext j
  exact m.type_cas_ne b c i j w t (.inl h)

theorem Memory.isLink_cas_ne (h : c ≠ b ∨ j ≠ i) :
    (m.cas b i w t).IsLink c j n ↔ m.IsLink c j n := by
  rw [Memory.IsLink, Memory.IsLink, type_cas_ne _ _ _ _ _ _ _ h, slot_cas_ne _ _ _ _ _ _ _ h]

end Cas

end UnboundedDeque.OFDeque
