import UnboundedDeque.AtomicDeque
import UnboundedDeque.OFDequeStability

/-!
# The contents of the deque

The values along the live chain. In a buffer whose slots beyond an index hold no
value, a store at the index adds or removes the value at the end of the buffer;
such a buffer is the last one of the chain.
-/
namespace UnboundedDeque.OFDeque

variable {τ : Type*} [BufferSize] {m m' : Memory τ} {S : Side}
  {b n : Address} {i j : ℤ} {w : Word} {tid : τ} {a : Action}

/-- The indices of the slots for values, from left to right. -/
def indices : List ℤ := (List.range (bufferSize - 2).toNat).map fun k : ℕ => (k : ℤ) + 1

/-- The value in a slot. -/
def Slot.value? (x : Slot) : Option Word := if x.type = .value then some x.word else none

/-- The values of a buffer, from left to right. -/
def Memory.values (m : Memory τ) (b : Address) : List Word :=
  indices.filterMap fun i => (m.slot b i).value?

/-- The abstract content of the deque. -/
def Memory.content (m : Memory τ) : List Word := m.chain.flatMap m.values

/-- The effect of an action on the content. -/
def Action.effect (m : Memory τ) : Action → Option (Effect Word)
  | .push S _ _ value => some (.add S value)
  | .append S _ n => some (.add S (m.slot n (nearValue S)).word)
  | .pop S b i _ => some (.remove S (m.slot b i).word)
  | _ => none

section Values

theorem mem_indices : i ∈ indices ↔ Inner i := by
  rw [indices, List.mem_map]
  constructor
  · rintro ⟨k, hk, rfl⟩
    rw [List.mem_range] at hk
    exact ⟨by omega, by omega⟩
  · rintro ⟨h₁, h₂⟩
    exact ⟨(i - 1).toNat, List.mem_range.mpr (by omega), by omega⟩

theorem indices_sorted : indices.Pairwise (· < ·) := by
  rw [indices, List.pairwise_map]
  apply List.pairwise_lt_range.imp
  intro k l h
  omega

/-- The indices on the two sides of one index. -/
theorem indices_split (hi : Inner i) : ∃ l r, indices = l ++ i :: r ∧
    (∀ j ∈ l, Inner j ∧ j < i) ∧ ∀ j ∈ r, Inner j ∧ i < j := by
  obtain ⟨l, r, hlr⟩ := List.append_of_mem (mem_indices.mpr hi)
  have hsorted := indices_sorted
  rw [hlr, List.pairwise_append, List.pairwise_cons] at hsorted
  have hinner {j : ℤ} (hj : j ∈ l ++ i :: r) : Inner j := mem_indices.mp (hlr ▸ hj)
  refine ⟨l, r, hlr, fun j hj => ⟨hinner (by simp [hj]), ?_⟩,
    fun j hj => ⟨hinner (by simp [hj]), hsorted.2.1.1 j hj⟩⟩
  exact hsorted.2.2 j hj i (by simp)

omit [BufferSize] in
theorem Slot.value?_eq_none {x : Slot} : x.value? = none ↔ x.type ≠ .value := by
  simp [value?]

theorem Memory.values_congr (h : ∀ i, Inner i → (m'.slot b i).value? = (m.slot b i).value?) :
    m'.values b = m.values b :=
  List.filterMap_congr fun i hi => h i (mem_indices.mp hi)

/-- A value put at an index with no value beyond it is the last of its buffer. -/
theorem Memory.values_put (hi : Inner i) (hold : (m.slot b i).value? = none)
    (hnew : (m'.slot b i).value? = some w)
    (hsame : ∀ j, Inner j → j ≠ i → (m'.slot b j).value? = (m.slot b j).value?)
    (hbeyond : ∀ j, Inner j → 0 < (j - i) * farDirection S → (m.slot b j).value? = none) :
    m'.values b = S.add w (m.values b) := by
  obtain ⟨l, r, hlr, hl, hr⟩ := indices_split hi
  have hl' : l.filterMap (fun j => (m'.slot b j).value?) =
      l.filterMap fun j => (m.slot b j).value? :=
    List.filterMap_congr fun j hj => hsame j (hl j hj).1 (hl j hj).2.ne
  have hr' : r.filterMap (fun j => (m'.slot b j).value?) =
      r.filterMap fun j => (m.slot b j).value? :=
    List.filterMap_congr fun j hj => hsame j (hr j hj).1 (hr j hj).2.ne'
  rw [values, values, hlr, List.filterMap_append, List.filterMap_append,
    List.filterMap_cons_some (f := fun j => (m'.slot b j).value?) hnew,
    List.filterMap_cons_none (f := fun j => (m.slot b j).value?) hold, hl', hr']
  cases S with
  | left =>
    have hnil : l.filterMap (fun j => (m.slot b j).value?) = [] := by
      apply List.filterMap_eq_nil_iff.mpr
      intro j hj
      have := (hl j hj).2
      exact hbeyond j (hl j hj).1 (by simp only [farDirection]; omega)
    rw [hnil, List.nil_append, List.nil_append, Side.add_left]
  | right =>
    have hnil : r.filterMap (fun j => (m.slot b j).value?) = [] := by
      apply List.filterMap_eq_nil_iff.mpr
      intro j hj
      have := (hr j hj).2
      exact hbeyond j (hr j hj).1 (by simp only [farDirection]; omega)
    rw [hnil, List.append_nil, Side.add_right]

theorem Memory.content_congr (hc : m'.chain = m.chain)
    (hv : ∀ b ∈ m.chain, m'.values b = m.values b) : m'.content = m.content := by
  rw [content, content, hc, List.flatMap_congr hv]

omit [BufferSize] in
theorem flatMap_add (f : Address → List Word) (l : List Address) :
    (S.add b l).flatMap f = match S with
      | .left => f b ++ l.flatMap f
      | .right => l.flatMap f ++ f b := by
  cases S <;> simp

/-- A value added at the end of the last buffer is added at the end of the deque. -/
theorem Memory.content_put {rest : List Address} (hchain : m.chain = S.add b rest)
    (hc : m'.chain = m.chain) (hv : m'.values b = S.add w (m.values b))
    (hrest : ∀ c ∈ rest, m'.values c = m.values c) : m'.content = S.add w m.content := by
  rw [content, content, hc, hchain, flatMap_add, flatMap_add, hv, List.flatMap_congr hrest]
  cases S <;> simp

/-- A buffer appended with one value. -/
theorem Memory.content_append (hc : m'.chain = S.add n m.chain) (hn : m'.values n = [w])
    (hrest : ∀ c ∈ m.chain, m'.values c = m.values c) : m'.content = S.add w m.content := by
  rw [content, content, hc, flatMap_add, hn, List.flatMap_congr hrest]
  cases S <;> simp

theorem Memory.values_eq_nil (h : ∀ i, Inner i → m.type b i ≠ .value) : m.values b = [] :=
  List.filterMap_eq_nil_iff.mpr fun i hi =>
    Slot.value?_eq_none.mpr (h i (mem_indices.mp hi))

end Values

section Effects

/-- Beyond an empty slot of an end all slots are empty. -/
theorem BufferOk.reads_beyond {f : ℤ → SlotType} (h : BufferOk f) (hi : Inner i)
    (hf : (f i).reads i = farType S) (hj : Inner j) (hij : 0 ≤ (j - i) * farDirection S) :
    (f j).reads j = farType S := by
  have hn : ∃ n : ℕ, j = i + n * farDirection S := by
    refine ⟨((j - i) * farDirection S).toNat, ?_⟩
    rw [Int.toNat_of_nonneg hij]
    cases S <;> simp only [farDirection] <;> omega
  obtain ⟨n, rfl⟩ := hn
  exact h.beyond hi hf n hj

theorem BufferOk.no_value {f : ℤ → SlotType} (h : BufferOk f) (hi : Inner i)
    (hf : f i = farType S) (hj : Inner j) (hij : 0 ≤ (j - i) * farDirection S) :
    f j ≠ .value := by
  have hr := h.reads_beyond hi (by rw [hf, SlotType.reads_farType]) hj hij
  intro hv
  rw [hv, SlotType.reads_value] at hr
  exact farType_ne_value S hr.symm

namespace Shape

/-- The last buffer towards `S` and the rest of the chain. -/
theorem split_chain (h : Shape m) (hb : b ∈ m.chain) (hf : m.type b (farLink S) = farType S) :
    ∃ rest, m.chain = S.add b rest ∧ b ∉ rest := by
  obtain ⟨rest, hrest⟩ := h.eq_add hb hf
  refine ⟨rest, hrest, fun hmem => ?_⟩
  have hnd := h.nodup.of_append_left
  rw [hrest] at hnd
  cases S with
  | left => exact (List.nodup_cons.mp hnd).1 hmem
  | right => exact (List.nodup_append.mp hnd).2.2 b hmem b (by simp) rfl

variable [DecidableEq τ]

theorem content_push (h : Shape m) (ha : m.Allowed tid (.push S b i w)) :
    (m.act tid (.push S b i w)).content = S.add w m.content := by
  obtain ⟨hb, hi, hf, hprev⟩ := ha
  have hok := h.buffer b hb
  have hl := hok.farLink_of_reads hi (S := S) (by rw [hf, SlotType.reads_farType])
  obtain ⟨rest, hrest, hbr⟩ := h.split_chain (h.live_of_edge hb hi hf hprev) hl
  have hne {c j} (hcj : c ≠ b ∨ j ≠ i) :
      (m.act tid (.push S b i w)).slot c j = m.slot c j := m.slot_cas_ne b c i j w _ hcj
  have hnew : (m.act tid (.push S b i w)).slot b i = ⟨w, (m.slot b i).count + 1, .value⟩ :=
    m.slot_cas b i w .value
  have hchain : (m.act tid (.push S b i w)).chain = m.chain := rfl
  apply Memory.content_put hrest hchain
  · apply Memory.values_put hi
    · apply Slot.value?_eq_none.mpr
      change m.type b i ≠ .value
      rw [hf]
      exact farType_ne_value S
    · rw [hnew]
      rfl
    · intro j _ hj
      rw [hne (.inr hj)]
    · intro j hj hij
      exact Slot.value?_eq_none.mpr (hok.no_value hi hf hj hij.le)
  · intro c hc
    apply Memory.values_congr
    intro j _
    rw [hne (.inl fun he => hbr (he ▸ hc))]

theorem content_pop (h : Shape m) (ha : m.Allowed tid (.pop S b i w)) :
    m.content = S.add (m.slot b i).word (m.act tid (.pop S b i w)).content := by
  obtain ⟨hb, hi, hv, hnext⟩ := ha
  have hok := h.buffer b hb
  have hl : m.type b (farLink S) = farType S := by
    by_cases hie : i = farValue S
    · rwa [hie, farValue_add] at hnext
    · exact hok.farLink_of_reads ((hi.near S).next hie) (by rw [hnext, SlotType.reads_farType])
  obtain ⟨rest, hrest, hbr⟩ := h.split_chain (h.live_of_value hb hi hv) hl
  have hne {c j} (hcj : c ≠ b ∨ j ≠ i) :
      (m.act tid (.pop S b i w)).slot c j = m.slot c j := m.slot_cas_ne b c i j w _ hcj
  have hnew : (m.act tid (.pop S b i w)).slot b i = ⟨w, (m.slot b i).count + 1, farType S⟩ :=
    m.slot_cas b i w _
  have hrest' : (m.act tid (.pop S b i w)).chain = S.add b rest := hrest
  have hchain : m.chain = (m.act tid (.pop S b i w)).chain := rfl
  apply Memory.content_put hrest' hchain
  · apply Memory.values_put hi
    · rw [hnew]
      exact Slot.value?_eq_none.mpr (farType_ne_value S)
    · simp only [Slot.value?, if_pos (show (m.slot b i).type = .value from hv)]
    · intro j _ hj
      rw [hne (.inr hj)]
    · intro j hj hij
      have hie : i ≠ farValue S := by
        rintro rfl
        obtain ⟨h₁, h₂⟩ := hj
        cases S <;> simp only [farDirection, farValue] at hij <;> omega
      have hji : j ≠ i := by
        rintro rfl
        simp at hij
      rw [hne (.inr hji)]
      apply Slot.value?_eq_none.mpr
      apply hok.no_value ((hi.near S).next hie) hnext hj
      cases S <;> simp only [farDirection] at * <;> omega
  · intro c hc
    apply Memory.values_congr
    intro j _
    rw [hne (.inl fun he => hbr (he ▸ hc))]

theorem content_appended (h : Shape m) (ha : m.Allowed tid (.append S b n)) :
    (m.act tid (.append S b n)).content = S.add (m.slot n (nearValue S)).word m.content := by
  obtain ⟨hb, -, -, hprep, hown⟩ := ha
  have hnb : n ≠ b := fun he => h.not_published hown (he ▸ hb)
  have hne {c j} (hcj : c ≠ b ∨ j ≠ farLink S) :
      (m.act tid (.append S b n)).slot c j = m.slot c j := m.slot_cas_ne b c _ j n _ hcj
  apply Memory.content_append rfl
  · have hempty : (m.set n (nearValue S) ⟨0, 0, farType S⟩).values n = [] := by
      apply Memory.values_eq_nil
      intro i hi
      by_cases hin : i = nearValue S
      · subst hin
        simp [Memory.type, Memory.set]
      · rw [Memory.type, m.slot_set_ne n n _ i (.inr hin)]
        change m.type n i ≠ .value
        rw [hprep.rest i hi hin]
        exact farType_ne_value S
    have hput : (m.act tid (.append S b n)).values n =
        S.add (m.slot n (nearValue S)).word
          ((m.set n (nearValue S) ⟨0, 0, farType S⟩).values n) := by
      apply Memory.values_put (inner_nearValue S)
      · simp [Memory.set, Slot.value?]
      · rw [hne (.inl hnb), Slot.value?, if_pos (show (m.slot n _).type = _ from hprep.value)]
      · intro j _ hj
        rw [hne (.inl hnb), m.slot_set_ne n n _ j (.inr hj)]
      · intro j hj hij
        have hjn : j ≠ nearValue S := by
          rintro rfl
          simp at hij
        rw [m.slot_set_ne n n _ j (.inr hjn)]
        apply Slot.value?_eq_none.mpr
        change m.type n j ≠ .value
        rw [hprep.rest j hj hjn]
        exact farType_ne_value S
    rw [hput, hempty]
    cases S <;> rfl
  · intro c _
    apply Memory.values_congr
    intro j hj
    rw [hne (.inr (hj.ne_farLink S))]

omit [DecidableEq τ] in
/-- A store that neither removes nor adds a value. -/
theorem content_cas {t : SlotType} (hv : (m.slot b i).value? = (Slot.mk w 0 t).value?) :
    (m.cas b i w t).content = m.content := by
  have hchain : (m.cas b i w t).chain = m.chain := rfl
  apply Memory.content_congr hchain
  intro c _
  apply Memory.values_congr
  intro j _
  rcases slot_cas_cases m b i w t c j with hs | ⟨rfl, rfl, hs⟩
  · rw [hs]
  · rw [hs, hv]
    rfl

theorem content_unlink (h : Shape m) (ha : m.Allowed tid (.unlink S b n w)) :
    (m.act tid (.unlink S b n w)).content = m.content := by
  obtain ⟨hb, hj, hs⟩ := ha
  obtain ⟨rest, hrest, -, hnr⟩ := h.eq_add_of_sealed hb hj hs
  have hchain : (m.act tid (.unlink S b n w)).chain = rest := by
    change m.chain.erase n = rest
    rw [hrest, erase_add hnr]
  have hn : m.values n = [] := by
    apply Memory.values_eq_nil
    intro i hi hv
    have hr := (h.buffer n (h.target b S n hb hj.1)).reads_of_nearValue (S := S)
      (by rw [hs, SlotType.reads_sealed_nearValue]) hi
    rw [hv, SlotType.reads_value] at hr
    exact farType_ne_value S hr.symm
  have hsame (c : Address) : (m.act tid (.unlink S b n w)).values c = m.values c := by
    apply Memory.values_congr
    intro j hj
    have hslot : (m.act tid (.unlink S b n w)).slot c j = m.slot c j :=
      m.slot_cas_ne b c _ j w _ (.inr (hj.ne_farLink S))
    rw [hslot]
  rw [Memory.content, Memory.content, hchain, hrest, flatMap_add, hn,
    List.flatMap_congr fun c _ => hsame c]
  cases S <;> simp

/-- Every action has the effect it is meant to have, or none. -/
theorem content_act (h : Shape m) (ha : m.Allowed tid a) :
    Changes (a.effect m) m.content (m.act tid a).content := by
  cases a with
  | casSafe b i => exact content_cas rfl
  | push S b i w => exact h.content_push ha
  | append S b n => exact h.content_appended ha
  | pop S b i w => exact h.content_pop ha
  | «seal» S n w =>
    obtain ⟨hf, -⟩ := ha
    apply content_cas
    have hold : (m.slot n (nearValue S)).value? = none := by
      apply Slot.value?_eq_none.mpr
      change m.type n (nearValue S) ≠ .value
      rw [hf]
      exact farType_ne_value S
    rw [hold]
    rfl
  | unlink S b n w => exact h.content_unlink ha
  | store n i x =>
    obtain ⟨R, ho⟩ := ha
    have hnp := h.not_published ho
    have hchain : (m.act tid (.store n i x)).chain = m.chain := rfl
    apply Memory.content_congr hchain
    intro c hc
    apply Memory.values_congr
    intro j _
    have hslot : (m.act tid (.store n i x)).slot c j = m.slot c j :=
      m.slot_set_ne n c i j (.inl fun he => hnp (he ▸ .inl hc))
    rw [hslot]
  | _ => rfl

end Shape
end Effects

end UnboundedDeque.OFDeque
