import UnboundedDeque.OFDequeContent
import UnboundedDeque.OFDequeRuns

/-!
# The representation invariant

The live chain is doubly linked, and its slots read from left to right are left
slots, values and right slots. Sealed buffers are at its ends.
-/
namespace UnboundedDeque.OFDeque
open StepMachine

section Representation

variable {τ : Type*} [BufferSize] {m : Memory τ} {S : Side} {b n : Address}
  {i : ℤ} {s t : State τ}

/-- The types of the slots for values along the chain, as they are read. -/
def Memory.readings (m : Memory τ) : List SlotType :=
  m.chain.flatMap fun b => indices.map (m.reads b)

structure Memory.Represented (m : Memory τ) : Prop where
  next : m.chain.IsChain fun b c => m.IsLink b (bufferSize - 1) c
  linked : ∀ b ∈ m.chain, ∀ c ∈ m.chain, m.IsLink b (bufferSize - 1) c ↔ m.IsLink c 0 b
  left : ∀ b ∈ m.chain, m.type b 0 = .left ∧ m.chain.head? = some b ∨
    ∃ c ∈ m.chain, m.IsLink b 0 c
  right : ∀ b ∈ m.chain, m.type b (bufferSize - 1) = .right ∧ m.chain.getLast? = some b ∨
    ∃ c ∈ m.chain, m.IsLink b (bufferSize - 1) c
  sorted : ∃ x y z, m.readings =
    List.replicate x .left ++ List.replicate y .value ++ List.replicate z .right
  «sealed» : ∀ b ∈ m.chain, ∀ i, 0 ≤ i → i < bufferSize → m.type b i = .sealed →
    (i = bufferSize - 2 ∧ m.chain.head? = some b ∧
        ∀ j, Inner j → j ≠ i → m.type b j = .left) ∨
      (i = 1 ∧ m.chain.getLast? = some b ∧ ∀ j, Inner j → j ≠ i → m.type b j = .right)
  apart : m.chain.IsChain fun b c => ¬ (m.type b (bufferSize - 2) = .sealed ∧ m.type c 1 = .sealed)

/-- One type may be read to the left of the other. -/
def SlotType.Before (t u : SlotType) : Prop := (t = .right → u = .right) ∧ (u = .left → t = .left)

omit [BufferSize] in
theorem SlotType.reads_ne_sealed (t : SlotType) (i : ℤ) : t.reads i ≠ .sealed := by
  cases t with
  | «sealed» =>
    unfold SlotType.reads
    split_ifs <;> decide
  | _ =>
    rw [reads_of_ne (by decide)]
    decide

omit [BufferSize] in
/-- A sorted list of types consists of left slots, values and right slots. -/
theorem replicate_of_before {l : List SlotType} (h : l.Pairwise SlotType.Before)
    (hs : SlotType.sealed ∉ l) : ∃ x y z, l =
      List.replicate x .left ++ List.replicate y .value ++ List.replicate z .right := by
  induction l with
  | nil => exact ⟨0, 0, 0, rfl⟩
  | cons t l ih =>
    obtain ⟨hhead, htail⟩ := List.pairwise_cons.mp h
    obtain ⟨x, y, z, hl⟩ := ih htail fun hmem => hs (List.mem_cons_of_mem _ hmem)
    have hnoLeft (ht : t ≠ .left) : x = 0 := by
      cases x with
      | zero => rfl
      | succ x =>
        have hmem : SlotType.left ∈ l := by simp [hl, List.replicate_succ]
        exact absurd ((hhead _ hmem).2 rfl) ht
    cases t with
    | left => exact ⟨x + 1, y, z, by rw [hl]; rfl⟩
    | value =>
      obtain rfl := hnoLeft (by decide)
      exact ⟨0, y + 1, z, by rw [hl]; rfl⟩
    | right =>
      have hall : l = List.replicate l.length .right :=
        List.eq_replicate_of_mem fun u hu => (hhead u hu).1 rfl
      exact ⟨0, 0, l.length + 1, by rw [hall]; simp [List.replicate_succ]⟩
    | «sealed» => exact absurd List.mem_cons_self hs

/-- A buffer with a link at an end has no empty slot of that end. -/
theorem BufferOk.reads_ne {f : ℤ → SlotType} (h : BufferOk f) (hl : f (farLink S) = .value)
    (hi : Inner i) : (f i).reads i ≠ farType S := fun hr =>
  farType_ne_value S ((h.farLink_of_reads hi hr).symm.trans hl)

/-- The slots of one buffer are sorted. -/
theorem BufferOk.before {f : ℤ → SlotType} (h : BufferOk f) :
    (indices.map fun i => (f i).reads i).Pairwise SlotType.Before := by
  rw [List.pairwise_map]
  apply indices_sorted.imp_of_mem
  intro i j hi hj hij
  rw [mem_indices] at hi hj
  constructor
  · intro hr
    exact h.reads_beyond (S := .right) hi hr hj (by simp only [farDirection]; omega)
  · intro hr
    exact h.reads_beyond (S := .left) hj hr hi (by simp only [farDirection]; omega)

/-- Of two buffers the left one has no right slot and the right one no left slot. -/
def Memory.Between (m : Memory τ) (b c : Address) : Prop :=
  m.type b (farLink .right) = .value ∧ m.type c (farLink .left) = .value

instance (m : Memory τ) : Trans m.Between m.Between m.Between where
  trans h h' := ⟨h.1, h'.2⟩

namespace Shape

theorem readings_before (h : Shape m) : m.readings.Pairwise SlotType.Before := by
  rw [Memory.readings, List.pairwise_flatMap]
  constructor
  · intro b hb
    exact (h.buffer b (.inl hb)).before
  · have hbetween : m.chain.IsChain m.Between :=
      (h.joined .right).imp fun b c hj => ⟨hj.1.1, hj.2.1⟩
    apply (List.isChain_iff_pairwise.mp hbetween).imp_of_mem
    intro b c hb hc hbc t ht u hu
    obtain ⟨i, hi, rfl⟩ := List.mem_map.mp ht
    obtain ⟨j, hj, rfl⟩ := List.mem_map.mp hu
    rw [mem_indices] at hi hj
    constructor
    · intro hr
      exact absurd hr ((h.buffer b (.inl hb)).reads_ne hbc.1 hi)
    · intro hr
      exact absurd hr ((h.buffer c (.inl hc)).reads_ne hbc.2 hj)

theorem readings_sorted (h : Shape m) : ∃ x y z, m.readings =
    List.replicate x .left ++ List.replicate y .value ++ List.replicate z .right := by
  apply replicate_of_before h.readings_before
  intro hs
  rw [Memory.readings, List.mem_flatMap] at hs
  obtain ⟨b, -, hs⟩ := hs
  obtain ⟨i, -, hs⟩ := List.mem_map.mp hs
  exact SlotType.reads_ne_sealed _ i hs

/-- The last buffer towards a side, or a link to the next one. -/
theorem last_or_link (h : Shape m) (hb : b ∈ m.chain) (S : Side) :
    m.type b (farLink S) = farType S ∧ (orient S m.chain).getLast? = some b ∨
      ∃ c ∈ m.chain, m.IsLink b (farLink S) c := by
  rcases h.end_or_joined hb S with ⟨rest, hrest, hf⟩ | ⟨c, hc, hj⟩
  · left
    rw [hrest, orient_add, List.getLast?_append, List.getLast?_singleton]
    exact ⟨hf, rfl⟩
  · exact .inr ⟨c, hc, hj.1⟩

/-- A live sealed buffer is the last one towards the side it is sealed for, and
empty for that side. -/
theorem sealed_last (h : Shape m) (hb : b ∈ m.chain) (hs : m.type b (nearValue S) = .sealed) :
    (orient S m.chain).getLast? = some b ∧
      ∀ j, Inner j → j ≠ nearValue S → m.type b j = farType S := by
  have hok := h.buffer b (.inl hb)
  obtain ⟨hv, hl⟩ := hok.farLink_of_sealed hs
  obtain ⟨rest, hrest⟩ := h.eq_add hb hl
  constructor
  · rw [hrest, orient_add, List.getLast?_append, List.getLast?_singleton]
    rfl
  · intro j hj hne
    have hr := hok.reads_of_nearValue (S := S) (by rw [hs, SlotType.reads_sealed_nearValue]) hj
    have hns : m.type b j ≠ .sealed := by
      intro hsj
      rcases sealed_of_type hok hj hsj S with rfl | rfl
      · exact farType_ne_sealed S (hv.symm.trans hsj)
      · exact hne rfl
    rwa [SlotType.reads_of_ne hns] at hr

theorem represented (h : Shape m) : m.Represented where
  next := (h.joined .right).imp fun b c hj => hj.1
  linked b hb c hc := by
    constructor
    · intro hl
      exact (h.joined_of_link (S := .right) hb hl).2
    · intro hl
      exact (h.joined_of_link (S := .left) hc hl).2
  left b hb := by
    have hl := h.last_or_link hb .left
    rw [orient, List.getLast?_reverse] at hl
    exact hl
  right b hb := h.last_or_link hb .right
  sorted := h.readings_sorted
  «sealed» b hb i hi₀ hi₁ hs := by
    have hok := h.buffer b (.inl hb)
    have hlink (S : Side) (he : i = farLink S) : False := by
      rw [he] at hs
      rcases hok.link S with hf | hf
      · exact farType_ne_sealed S (hf.symm.trans hs)
      · cases hf.symm.trans hs
    have hin : Inner i := by
      have h₀ : i ≠ 0 := fun he => hlink .left he
      have h₁ : i ≠ bufferSize - 1 := fun he => hlink .right he
      exact ⟨by omega, by omega⟩
    rcases sealed_of_type hok hin hs .left with rfl | rfl
    · exact .inr ⟨rfl, h.sealed_last (S := .right) hb hs⟩
    · have hlast := h.sealed_last (S := .left) hb hs
      rw [orient, List.getLast?_reverse] at hlast
      exact .inl ⟨rfl, hlast⟩
  apart := by
    apply (h.joined .right).imp_of_mem_imp
    rintro b c hb - hj ⟨hs, hs'⟩
    exact h.apart .right b c (.inl hb) hj hs hs'

/-- The neighbour of a live sealed buffer. -/
theorem sealed_neighbor (h : Shape m) (hb : b ∈ m.chain) (hs : m.type b (farValue S) = .sealed) :
    ∃ n ∈ m.chain, m.Joined S b n := by
  have hl : m.IsLink b (farLink S) (m.slot b (farLink S)).word :=
    ⟨(h.buffer b (.inl hb)).sealedLink S hs, rfl⟩
  have hj := h.joined_of_link hb hl
  exact ⟨_, (h.live_joined (.inl hb) hj).2, hj⟩

end Shape

variable [DecidableEq τ]

/-- A sealed end of a buffer keeps its link. -/
theorem frozen_exec {l : List (τ × Choice)} (h : (machine τ).Reachable s) (hb : s.mem.Published b)
    (hs : s.mem.type b (farValue S) = .sealed) (hl : s.mem.IsLink b (farLink S) n)
    (he : (machine τ).exec (fun _ _ => True) l s = some t) : t.mem.IsLink b (farLink S) n := by
  have hkeep : t.mem.Published b ∧ t.mem.type b (farValue S) = .sealed ∧
      t.mem.IsLink b (farLink S) n := by
    apply h.exec_invariant _ ⟨hb, hs, hl⟩ he
    rintro ⟨tid, c⟩ s t hr ⟨hb, hs, hl⟩ - hst
    have hlater := (run_inv hr).later hst
    exact ⟨hlater.published b hb, hlater.sealed b S hb hs, hlater.frozen b S n hb hs hl⟩
  exact hkeep.2.2

/-- In every reachable state the chain represents a deque, sealed ends have a
neighbour and keep the link to it whatever happens later, no assertion of
`findEdge` or `findActiveBuffer` has failed, and `findActiveBuffer` has found a
buffer. -/
theorem representation_invariant (h : (machine τ).Reachable s) :
    s.mem.Represented ∧
      (∀ b ∈ s.mem.chain, ∀ S, s.mem.type b (farValue S) = .sealed →
        ∃ n ∈ s.mem.chain, s.mem.Joined S b n ∧
          ∀ l t, (machine τ).exec (fun _ _ => True) l s = some t → t.mem.IsLink b (farLink S) n) ∧
      ∀ tid f, s.frames tid = some f → f.point ≠ .failed ∧
        ∀ v n u, f.point = .updCas v n u → s.mem.Published u.buffer := by
  have hi := run_inv h
  refine ⟨hi.shape.represented, ?_, ?_⟩
  · intro b hb S hs
    obtain ⟨n, hn, hj⟩ := hi.shape.sealed_neighbor hb hs
    exact ⟨n, hn, hj, fun l t => frozen_exec h (.inl hb) hs hj.1⟩
  · intro tid f hf
    have hfacts := hi.facts tid f hf
    constructor
    · intro hp
      rw [hp] at hfacts
      exact hfacts
    · intro v n u hp
      rw [hp] at hfacts
      exact hfacts.updBuffer

end Representation

section TwoPushes

attribute [local instance] four

/-- A thread pushes 7 and then 7 again, which appends a buffer. -/
def twoPushes : State ℕ :=
  ((machine ℕ).exec (fun _ _ => True) (steps 40 0 .right (.push 7) 1)
    (constructed ℕ)).getD (constructed ℕ)

theorem twoPushes_represented : twoPushes.mem.chain = [0, 1] ∧ twoPushes.mem.Represented := by
  have hrun : (machine ℕ).Reachable twoPushes := Machine.Run.exec_getD _ (.start init_constructed)
  exact ⟨by decide +kernel, (representation_invariant hrun).1⟩

end TwoPushes
end UnboundedDeque.OFDeque
