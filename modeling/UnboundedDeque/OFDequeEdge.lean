import UnboundedDeque.SideList
import UnboundedDeque.OFDequeContent

/-!
# Edges of the live chain

The slots of the chain in a row, without the pairs of links between buffers. The edge
of a side is the last slot that is not empty for it.
-/
namespace UnboundedDeque

variable {α β : Type*} {S : Side} {l : List α} {x y : α}

/-- A list in the direction of a side. -/
def Side.toward : Side → List α → List α
  | .left, l => l.reverse
  | .right, l => l

@[simp] theorem Side.mem_toward : x ∈ S.toward l ↔ x ∈ l := by
  cases S <;> simp [toward]

/-- Neighbours in the direction of a side split the list in this direction. -/
theorem Side.Next.split (h : S.Next l x y) : ∃ k r, S.toward l = k ++ x :: y :: r := by
  cases S with
  | left =>
    obtain ⟨k, r, rfl⟩ := h
    exact ⟨r.reverse, k.reverse, by simp [toward]⟩
  | right =>
    obtain ⟨k, r, rfl⟩ := h
    exact ⟨k, r, by simp [toward]⟩

theorem Side.next_of_split {k r : List α} (h : S.toward l = k ++ x :: y :: r) : S.Next l x y := by
  cases S with
  | left =>
    have hl : l = r.reverse ++ [y, x] ++ k.reverse := by
      rw [← List.reverse_reverse l, show l.reverse = k ++ x :: y :: r from h]
      simp
    exact ⟨r.reverse, k.reverse, hl.symm⟩
  | right => exact ⟨k, r, by rw [show l = k ++ x :: y :: r from h]; simp⟩

theorem Side.next_map (f : α → β) (h : S.Next l x y) : S.Next (l.map f) (f x) (f y) := by
  cases S <;> exact h.map f

/-- Neighbours in a part of a joined list. -/
theorem Side.next_flatMap {f : α → List β} {u v : β} (h : S.Next (f x) u v) (hx : x ∈ l) :
    S.Next (l.flatMap f) u v := by
  obtain ⟨k, r, rfl⟩ := List.append_of_mem hx
  exact h.mono ⟨k.flatMap f, r.flatMap f, by simp⟩

namespace OFDeque

variable {τ : Type*} [BufferSize] {m : Memory τ} {R : Side} {b c : Address}
  {i j : ℤ} {p q : Address × ℤ}

/-- The slots along the chain from left to right, with the link slots between two
buffers left out. -/
def Memory.places (m : Memory τ) : List (Address × ℤ) :=
  m.chain.head?.toList.map (·, 0) ++ m.chain.flatMap (fun b => indices.map (b, ·)) ++
    m.chain.getLast?.toList.map (·, bufferSize - 1)

/-- The type a slot is read as. -/
def Memory.readsAt (m : Memory τ) (p : Address × ℤ) : SlotType := m.reads p.1 p.2

/-- The edge of a side: the last slot towards it that is not empty for it, with only
empty slots after it. -/
def Memory.IsEdge (m : Memory τ) (S : Side) (b : Address) (i : ℤ) : Prop :=
  ∃ l r, S.toward m.places = l ++ (b, i) :: r ∧ r ≠ [] ∧ m.reads b i ≠ farType S ∧
    ∀ p ∈ r, m.readsAt p = farType S

/-- A well-formed live chain. -/
structure Memory.WellFormed (m : Memory τ) : Prop where
  nonempty : m.chain ≠ []
  nodup : m.chain.Nodup
  joined : ∀ S, (orient S m.chain).IsChain (m.Joined S)
  ends : ∀ S b, (orient S m.chain).getLast? = some b → m.type b (farLink S) = farType S
  sorted : ∃ x y z, m.places.map m.readsAt =
    List.replicate x .left ++ List.replicate y .value ++ List.replicate z .right
  «sealed» : ∀ b ∈ m.chain, ∀ i, Inner i → m.type b i = .sealed → ∃ S, i = nearValue S ∧
    (orient S m.chain).getLast? = some b ∧ ∀ j, Inner j → j ≠ i → m.type b j = farType S
  apart : ∀ S, (orient S m.chain).IsChain fun b c =>
    m.type b (farValue S) = .sealed → m.type c (nearValue S) ≠ .sealed

section Edges

theorem next_indices (hi : Inner i) (hj : Inner (i + farDirection S)) :
    S.Next indices i (i + farDirection S) := by
  have hright {i : ℤ} (hi : Inner i) (hj : Inner (i + 1)) : [i, i + 1] <:+: indices := by
    obtain ⟨l, r, hlr, hl, hr⟩ := indices_split hi
    have hmem : i + 1 ∈ l ++ i :: r := hlr ▸ mem_indices.mpr hj
    have hmem' : i + 1 ∈ r := by
      rcases List.mem_append.mp hmem with h | h
      · have := (hl _ h).2
        omega
      · rcases List.mem_cons.mp h with h | h
        · omega
        · exact h
    cases r with
    | nil => cases hmem'
    | cons k r =>
      have hk : k = i + 1 := by
        have hik := (hr k List.mem_cons_self).2
        rcases List.mem_cons.mp hmem' with h | h
        · exact h.symm
        · have hsorted := indices_sorted
          rw [hlr, List.pairwise_append, List.pairwise_cons, List.pairwise_cons] at hsorted
          have := hsorted.2.1.2.1 _ h
          omega
      subst hk
      exact ⟨l, r, by rw [hlr]; simp⟩
  cases S with
  | left =>
    have h := hright hj (by simpa [farDirection] using hi)
    simpa [Side.Next, farDirection] using h
  | right => exact hright hi hj

/-- The slots of one buffer are in a row. -/
theorem next_inner (hb : b ∈ m.chain) (hi : Inner i) (hj : Inner (i + farDirection S)) :
    S.Next m.places (b, i) (b, i + farDirection S) := by
  have h : S.Next (indices.map (b, ·)) (b, i) (b, i + farDirection S) :=
    Side.next_map (b, ·) (next_indices hi hj)
  have hflat : S.Next (m.chain.flatMap fun b => indices.map (b, ·)) (b, i) (b, i + farDirection S) :=
    Side.next_flatMap (f := fun b : Address => indices.map (b, ·)) h hb
  exact hflat.mono ⟨_, _, rfl⟩

theorem indices_ends : ∃ k l, indices = 1 :: k ∧ indices = l ++ [bufferSize - 2] := by
  have hsize := four_le_bufferSize
  obtain ⟨l, r, hlr, hl, -⟩ := indices_split (i := 1) ⟨le_rfl, by omega⟩
  obtain ⟨l', r', hlr', -, hr'⟩ := indices_split (i := bufferSize - 2) ⟨by omega, le_rfl⟩
  have hnil : l = [] := by
    apply List.eq_nil_iff_forall_not_mem.mpr
    intro j hj
    obtain ⟨⟨h, -⟩, h'⟩ := hl j hj
    omega
  have hnil' : r' = [] := by
    apply List.eq_nil_iff_forall_not_mem.mpr
    intro j hj
    obtain ⟨⟨-, h⟩, h'⟩ := hr' j hj
    omega
  exact ⟨r, l', by rw [hlr, hnil, List.nil_append], by rw [hlr', hnil']⟩

/-- From the last slot for values of a buffer to the first one of the next buffer. -/
theorem next_between (h : [b, c] <:+: m.chain) :
    [(b, bufferSize - 2), (c, 1)] <:+: m.places := by
  obtain ⟨k, l, hk, hl⟩ := indices_ends
  have hpair : [(b, bufferSize - 2), (c, 1)] <:+:
      [b, c].flatMap fun b => indices.map (b, ·) := by
    refine ⟨l.map (b, ·), k.map (c, ·), ?_⟩
    rw [List.flatMap_cons, List.flatMap_singleton]
    nth_rw 1 [hl]
    rw [hk]
    simp
  exact (hpair.trans (h.flatMap _)).trans ⟨_, _, rfl⟩

/-- From the last slot for values of the chain to its last slot. -/
theorem next_end (h : m.chain.getLast? = some b) :
    [(b, bufferSize - 2), (b, bufferSize - 1)] <:+: m.places := by
  obtain ⟨k, l, hk, hl⟩ := indices_ends
  obtain ⟨rest, hrest⟩ := List.getLast?_eq_some_iff.mp h
  refine ⟨m.chain.head?.toList.map (·, 0) ++ rest.flatMap (fun b => indices.map (b, ·)) ++
    l.map (b, ·), [], ?_⟩
  have hflat : m.chain.flatMap (fun b => indices.map (b, ·)) =
      rest.flatMap (fun b => indices.map (b, ·)) ++ (l.map (b, ·) ++ [(b, bufferSize - 2)]) := by
    rw [hrest, List.flatMap_append, List.flatMap_singleton]
    nth_rw 2 [hl]
    simp
  rw [Memory.places, hflat, h]
  simp

theorem next_start (h : m.chain.head? = some b) : [(b, 0), (b, 1)] <:+: m.places := by
  obtain ⟨k, l, hk, hl⟩ := indices_ends
  obtain ⟨rest, hrest⟩ : ∃ rest, m.chain = b :: rest :=
    ⟨m.chain.tail, (List.cons_head?_tail h).symm⟩
  refine ⟨[], k.map (b, ·) ++ rest.flatMap (fun b => indices.map (b, ·)) ++
    m.chain.getLast?.toList.map (·, bufferSize - 1), ?_⟩
  have hflat : m.chain.flatMap (fun b => indices.map (b, ·)) =
      (b, 1) :: k.map (b, ·) ++ rest.flatMap (fun b => indices.map (b, ·)) := by
    rw [hrest, List.flatMap_cons]
    nth_rw 1 [hk]
    simp
  rw [Memory.places, hflat, h]
  simp

/-- The last buffer towards a side goes on with its link slot there. -/
theorem next_last (h : (orient S m.chain).getLast? = some b) :
    S.Next m.places (b, farValue S) (b, farLink S) := by
  cases S with
  | left =>
    rw [orient, List.getLast?_reverse] at h
    exact next_start h
  | right => exact next_end h

theorem next_first (h : (orient S.opposite m.chain).getLast? = some b) :
    S.Next m.places (b, nearLink S) (b, nearValue S) := by
  rw [← Side.next_opposite]
  exact next_last h

/-- A buffer goes on with the next one towards the side. -/
theorem next_joined {k l : List Address} (h : orient S m.chain = k ++ b :: c :: l) :
    S.Next m.places (b, farValue S) (c, nearValue S) := by
  cases S with
  | left =>
    have hrev : m.chain = l.reverse ++ [c, b] ++ k.reverse := by
      rw [← List.reverse_reverse m.chain]
      change (orient .left m.chain).reverse = _
      rw [h]
      simp
    exact next_between ⟨l.reverse, k.reverse, hrev.symm⟩
  | right =>
    refine next_between ⟨k, l, ?_⟩
    change _ = orient .right m.chain
    rw [h]
    simp

/-- Along the chain an empty slot of a side is followed by such slots only. -/
theorem Memory.WellFormed.far_pairwise (h : m.WellFormed) (S : Side) :
    (S.toward m.places).Pairwise fun p q => m.readsAt p = farType S → m.readsAt q = farType S := by
  obtain ⟨x, y, z, hxyz⟩ := h.sorted
  have hall : (m.places.map m.readsAt).Pairwise fun t u =>
      (t = .right → u = .right) ∧ (u = .left → t = .left) := by
    rw [hxyz, List.pairwise_append, List.pairwise_append]
    refine ⟨⟨?_, ?_, ?_⟩, ?_, ?_⟩
    · exact List.pairwise_replicate.mpr (.inr (by simp))
    · exact List.pairwise_replicate.mpr (.inr (by simp))
    · simp +contextual [List.mem_replicate]
    · exact List.pairwise_replicate.mpr (.inr (by simp))
    · simp +contextual [List.mem_replicate]
  rw [List.pairwise_map] at hall
  cases S with
  | left =>
    rw [Side.toward, List.pairwise_reverse]
    exact hall.imp fun h => h.2
  | right => exact hall.imp fun h => h.1

/-- A slot that is not empty for the side before one that is makes an edge. -/
theorem Memory.WellFormed.isEdge (h : m.WellFormed) (hn : S.Next m.places (b, i) q)
    (hb : m.reads b i ≠ farType S) (hq : m.readsAt q = farType S) : m.IsEdge S b i := by
  obtain ⟨l, r, hlr⟩ := hn.split
  have hpair := h.far_pairwise S
  rw [hlr, List.pairwise_append, List.pairwise_cons, List.pairwise_cons] at hpair
  refine ⟨l, q :: r, hlr, List.cons_ne_nil _ _, hb, fun p hp => ?_⟩
  rcases List.mem_cons.mp hp with rfl | hp
  · exact hq
  · exact hpair.2.1.2.1 p hp hq

/-- A side has one edge at most. -/
theorem Memory.IsEdge.unique (h : m.IsEdge S b i) (h' : m.IsEdge S c j) : b = c ∧ i = j := by
  obtain ⟨l, r, hlr, -, hb, hr⟩ := h
  obtain ⟨l', r', hlr', -, hc, hr'⟩ := h'
  rw [hlr] at hlr'
  rcases List.append_eq_append_iff.mp hlr' with ⟨k, hk, hk'⟩ | ⟨k, hk, hk'⟩
  · cases k with
    | nil => simpa using (List.cons.inj hk').1
    | cons p k =>
      obtain ⟨rfl, hrk⟩ := List.cons.inj hk'
      exact absurd (hr (c, j) (hrk ▸ by simp)) hc
  · cases k with
    | nil => simpa using (List.cons.inj hk').1.symm
    | cons p k =>
      obtain ⟨rfl, hrk⟩ := List.cons.inj hk'
      exact absurd (hr' (b, i) (hrk ▸ by simp)) hb

end Edges

end OFDeque
end UnboundedDeque
