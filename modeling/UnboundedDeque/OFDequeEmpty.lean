import UnboundedDeque.OFDequeContent
import UnboundedDeque.OFDequeRuns

/-!
# States with an empty deque

An edge between empty slots of both ends shows an empty deque: within a buffer it
is the only one of the chain, and between two buffers these are the chain.
-/
namespace UnboundedDeque.OFDeque

variable {τ : Type*} {m : Memory τ} {S : Side} {b n : Address} {i : ℤ}

theorem orient_add_opposite (S : Side) (b : Address) (l : List Address) :
    orient S (S.opposite.add b l) = b :: orient S l := by
  cases S <;> simp [orient, Side.opposite]

namespace Shape

variable [BufferSize]

theorem content_eq_nil (h : ∀ b ∈ m.chain, ∀ i, Inner i → m.type b i ≠ .value) :
    m.content = [] :=
  List.flatMap_eq_nil_iff.mpr fun b hb => Memory.values_eq_nil (h b hb)

omit [BufferSize] in
theorem type_ne_value (h : m.reads b i = farType S) : m.type b i ≠ .value := by
  intro hv
  rw [Memory.reads, hv, SlotType.reads_value] at h
  exact farType_ne_value S h.symm

/-- The buffer at the near end is the first one. -/
theorem orient_of_first (h : Shape m) (hb : b ∈ m.chain)
    (hf : m.type b (nearLink S) = nearType S) : ∃ l, orient S m.chain = b :: l := by
  obtain ⟨rest, hrest⟩ := h.eq_add (S := S.opposite) hb hf
  exact ⟨orient S rest, by rw [hrest, orient_add_opposite]⟩

theorem orient_alone (h : Shape m) (hb : b ∈ m.chain) (hn : m.type b (nearLink S) = nearType S)
    (hf : m.type b (farLink S) = farType S) : orient S m.chain = [b] := by
  obtain ⟨l, hl⟩ := h.orient_of_first hb hn
  cases l with
  | nil => exact hl
  | cons c l =>
    have hj := h.joined S
    rw [hl, List.isChain_cons_cons] at hj
    exact absurd (hf.symm.trans hj.1.1.1) (farType_ne_value S)

theorem orient_pair (h : Shape m) (hb : b ∈ m.chain) (hn : m.type b (nearLink S) = nearType S)
    (hj : m.Joined S b n) (hf : m.type n (farLink S) = farType S) :
    orient S m.chain = [b, n] := by
  obtain ⟨l, hl⟩ := h.orient_of_first hb hn
  have hchain := h.joined S
  rw [hl] at hchain
  cases l with
  | nil =>
    have hlast := h.ends S b (by rw [hl]; rfl)
    exact absurd (hlast.symm.trans hj.1.1) (farType_ne_value S)
  | cons c l =>
    rw [List.isChain_cons_cons] at hchain
    obtain rfl : c = n := hchain.1.1.2.symm.trans hj.1.2
    cases l with
    | nil => exact hl
    | cons d l =>
      have hd := (List.isChain_cons_cons.mp hchain.2).1
      exact absurd (hf.symm.trans hd.1.1) (farType_ne_value S)

/-- A buffer whose last slot for values is empty for the other end is live. -/
theorem live_of_near (h : Shape m) (hb : m.Published b)
    (hn : m.type b (farValue S) = nearType S) : b ∈ m.chain := by
  apply live_of_not_dead hb
  intro hd
  obtain ⟨R, p, hs, -, -, -, hall⟩ := h.of_dead hd
  rcases S.eq_or_eq_opposite R with rfl | rfl
  · have hr := hall _ (inner_farValue R)
    rw [Memory.reads, hn, ← farType_opposite, SlotType.reads_farType] at hr
    exact farType_ne_nearType R hr.symm
  · rw [nearValue_opposite] at hs
    exact nearType_ne_sealed S (hn.symm.trans hs)

/-- An edge between empty slots of both ends within a buffer. -/
theorem empty_edge (h : Shape m) (hb : m.Published b) (hi : Near S i)
    (hn : m.type b i = nearType S) (hf : m.type b (i + farDirection S) = farType S) :
    m.content = [] := by
  have hok := h.buffer b hb
  have hfar : m.type b (farLink S) = farType S := by
    by_cases hie : i = farValue S
    · rwa [hie, farValue_add] at hf
    · exact hok.farLink_of_reads (hi.next hie) (by rw [hf, SlotType.reads_farType])
  have hreads (hin : Inner i) : (m.type b i).reads i = farType S.opposite := by
    rw [hn, ← farType_opposite, SlotType.reads_farType]
  have hnear : m.type b (nearLink S) = nearType S := by
    rcases hi.cases with rfl | hin
    · exact hn
    · exact hok.farLink_of_reads hin (hreads hin)
  have hlive : b ∈ m.chain := by
    apply live_of_not_dead hb
    intro hd
    obtain ⟨R, p, -, hl, -⟩ := h.of_dead hd
    rcases S.eq_or_eq_opposite R with rfl | rfl
    · exact nearType_ne_value R (hnear.symm.trans hl.1)
    · rw [nearLink_opposite] at hl
      exact farType_ne_value S (hfar.symm.trans hl.1)
  apply content_eq_nil
  intro c hc j hj
  have hcb : c ∈ orient S m.chain := mem_orient.mpr hc
  rw [h.orient_alone hlive hnear hfar, List.mem_singleton] at hcb
  subst hcb
  by_cases hij : 0 < (j - i) * farDirection S
  · have hie : i ≠ farValue S := by
      rintro rfl
      obtain ⟨h₁, h₂⟩ := hj
      cases S <;> simp only [farDirection, farValue] at hij <;> omega
    apply hok.no_value (hi.next hie) hf hj
    cases S <;> simp only [farDirection] at * <;> omega
  · have hin : Inner i := by
      apply hi.cases.resolve_left
      rintro rfl
      obtain ⟨h₁, h₂⟩ := hj
      cases S <;> simp only [nearLink, Side.opposite, farLink, farDirection] at hij <;> omega
    apply hok.no_value (S := S.opposite) hin hn hj
    rw [farDirection_opposite]
    cases S <;> simp only [farDirection] at * <;> omega

/-- An edge between empty slots of both ends that are in two buffers. -/
theorem empty_straddle (h : Shape m) (hb : b ∈ m.chain) (hl : m.IsLink b (farLink S) n)
    (hn : m.reads b (farValue S) = nearType S) (hf : m.reads n (nearValue S) = farType S) :
    m.content = [] := by
  have hj := h.joined_of_link hb hl
  have hnlive := (h.live_joined (.inl hb) hj).2
  have hokb := h.buffer b (.inl hb)
  have hokn := h.buffer n (.inl hnlive)
  have hfirst : m.type b (nearLink S) = nearType S :=
    hokb.farLink_of_reads (S := S.opposite) (inner_farValue S) hn
  have hlast := hokn.farLink_of_reads (inner_nearValue S) hf
  apply content_eq_nil
  intro c hc i hi
  have hcb : c ∈ orient S m.chain := mem_orient.mpr hc
  rw [h.orient_pair hb hfirst hj hlast, List.mem_pair] at hcb
  rcases hcb with rfl | rfl
  · apply type_ne_value (S := S.opposite)
    apply hokb.reads_of_nearValue (S := S.opposite) _ hi
    rw [nearValue_opposite]
    exact hn
  · exact type_ne_value (hokn.reads_of_nearValue hf hi)

/-- The neighbour of a sealed end of an unlinked buffer has no link back. -/
theorem no_link_back (h : Shape m) (hd : b ∈ m.dead) (hs : m.type b (farValue S) = .sealed)
    (hl : m.IsLink b (farLink S) n) : ¬ m.IsLink n (nearLink S) b := by
  obtain ⟨l, k, hk⟩ := List.append_of_mem hd
  obtain ⟨R, p, hsR, hlR, -, hback⟩ := h.dead l b k hk
  have hRS : R = S := by
    rcases S.eq_or_eq_opposite R with rfl | rfl
    · rfl
    · rw [farValue_opposite] at hsR
      have hfar := ((h.buffer b (.inr hd)).farLink_of_sealed hsR).2
      exact absurd (hfar.symm.trans hl.1) (farType_ne_value S)
  subst hRS
  obtain rfl : n = p := hl.2.symm.trans hlR.2
  exact hback

end Shape
end UnboundedDeque.OFDeque
