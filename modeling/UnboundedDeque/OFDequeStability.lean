import UnboundedDeque.OFDequeShape

/-!
# What a thread knows after a read stays true

A version count only grows, a sealed slot stays sealed and keeps its link, and a
link that was read is still there or its target has been unlinked. After its
`casSafe` an operation holds a permit for its second compare-exchange: as long
as the slot it will change is current, the other slot of its edge is as it was.
-/
namespace UnboundedDeque.OFDeque

variable {τ : Type*} [BufferSize] {m m' : Memory τ} {S R : Side}
  {b c n d p : Address} {i j : ℤ} {x : Slot} {tid : τ} {a : Action}

theorem farLink_inj (h : farLink R = farLink S) : R = S := by
  rcases S.eq_or_eq_opposite R with rfl | rfl
  · rfl
  · exact absurd h (nearLink_ne_farLink S)

theorem farValue_inj (h : farValue R = farValue S) : R = S := by
  rcases S.eq_or_eq_opposite R with rfl | rfl
  · rfl
  · exact absurd h (nearValue_ne_farValue S)

namespace Memory

/-- A slot has been read with these contents. The word of a slot that is empty
or sealed is left uninitialised by `casType` and may differ. -/
def Seen (m : Memory τ) (b : Address) (i : ℤ) (x : Slot) : Prop :=
  x.count ≤ (m.slot b i).count ∧ ((m.slot b i).count = x.count →
    m.type b i = x.type ∧ (x.type = .value → (m.slot b i).word = x.word))

/-- A slot has changed since it was read. -/
def Stale (m : Memory τ) (b : Address) (i : ℤ) (x : Slot) : Prop :=
  x.count < (m.slot b i).count

/-- The buffer has linked to `n` at its end `S`. -/
def Linked (m : Memory τ) (S : Side) (b n : Address) : Prop :=
  m.IsLink b (farLink S) n ∨ n ∈ m.dead

/-- The neighbour `n` towards `S` is sealed, and its link back is to `b`. -/
def SealedTo (m : Memory τ) (S : Side) (b n : Address) : Prop :=
  m.type n (nearValue S) = .sealed ∧ m.IsLink n (nearLink S) b

/-- While the far slot is current, the near slot is not empty. -/
def PushPermit (m : Memory τ) (S : Side) (b : Address) (i : ℤ) (far : Slot) : Prop :=
  (m.slot b (i + farDirection S)).count = far.count → m.reads b i ≠ farType S

/-- While the near slot is current, the far slot is empty. -/
def PopPermit (m : Memory τ) (S : Side) (b : Address) (i : ℤ) (near : Slot) : Prop :=
  (m.slot b i).count = near.count → m.type b (i + farDirection S) = farType S

/-- While the slot to be sealed is current, its buffer is the neighbour of one
that is not sealed. -/
def SealPermit (m : Memory τ) (S : Side) (b n : Address) (reach : Slot) : Prop :=
  (m.slot n (nearValue S)).count = reach.count →
    m.Joined S b n ∧ m.type b (farValue S) ≠ .sealed

omit [BufferSize] in
theorem seen_self (m : Memory τ) (b : Address) (i : ℤ) : m.Seen b i (m.slot b i) :=
  ⟨le_rfl, fun _ => ⟨rfl, fun _ => rfl⟩⟩

omit [BufferSize] in
theorem Seen.stale_of_ne (h : m.Seen b i x) (hne : (m.slot b i).count ≠ x.count) :
    m.Stale b i x :=
  lt_of_le_of_ne h.1 hne.symm

end Memory

/-- What holds of published buffers between an earlier and a later memory. -/
structure Later (m m' : Memory τ) : Prop where
  published : ∀ b, m.Published b → m'.Published b
  slot : ∀ b i, m.Published b → m'.slot b i = m.slot b i ∨
    (m.slot b i).count < (m'.slot b i).count
  «sealed» : ∀ b S, m.Published b → m.type b (farValue S) = .sealed →
    m'.type b (farValue S) = .sealed
  frozen : ∀ b S n, m.Published b → m.type b (farValue S) = .sealed →
    m.IsLink b (farLink S) n → m'.IsLink b (farLink S) n
  linked : ∀ b S n, m.Published b → m.IsLink b (farLink S) n → m'.Linked S b n
  dead : ∀ d, d ∈ m.dead → d ∈ m'.dead

namespace Later

theorem refl (m : Memory τ) : Later m m :=
  ⟨fun _ hb => hb, fun _ _ _ => .inl rfl, fun _ _ _ hs => hs, fun _ _ _ _ _ hl => hl,
    fun _ _ _ _ hl => .inl hl, fun _ hd => hd⟩

theorem seen (h : Later m m') (hb : m.Published b) (hx : m.Seen b i x) : m'.Seen b i x := by
  obtain ⟨hle, heq⟩ := hx
  rcases h.slot b i hb with hs | hlt
  · rw [Memory.Seen, Memory.type, hs]
    exact ⟨hle, heq⟩
  · exact ⟨by omega, fun he => by omega⟩

theorem stale (h : Later m m') (hb : m.Published b) (hx : m.Stale b i x) : m'.Stale b i x := by
  unfold Memory.Stale at *
  rcases h.slot b i hb with hs | hlt
  · rwa [hs]
  · omega

theorem linked_of (h : Later m m') (hb : m.Published b) (hl : m.Linked S b n) :
    m'.Linked S b n :=
  hl.elim (h.linked b S n hb) fun hd => .inr (h.dead n hd)

theorem sealedTo (h : Later m m') (hn : m.Published n) (hs : m.SealedTo S b n) :
    m'.SealedTo S b n :=
  ⟨h.sealed n S.opposite hn hs.1, h.frozen n S.opposite b hn hs.1 hs.2⟩

/-- A slot that is current later has not changed. -/
theorem slot_of_current (h : Later m m') (hb : m.Published b) (hx : m.Seen b i x)
    (hc : (m'.slot b i).count = x.count) : m'.slot b i = m.slot b i := by
  rcases h.slot b i hb with hs | hlt
  · exact hs
  · exact absurd hx.1 (by omega)

end Later

namespace Shape

omit [BufferSize] in
theorem slot_cas_cases (m : Memory τ) (c : Address) (j : ℤ) (w : Word) (t : SlotType)
    (b : Address) (i : ℤ) :
    (m.cas c j w t).slot b i = m.slot b i ∨
      b = c ∧ i = j ∧ (m.cas c j w t).slot b i = ⟨w, (m.slot b i).count + 1, t⟩ := by
  by_cases hb : b = c ∧ i = j
  · obtain ⟨rfl, rfl⟩ := hb
    exact .inr ⟨rfl, rfl, m.slot_cas b i w t⟩
  · exact .inl (m.slot_cas_ne c b j i w t (not_and_or.mp hb))

variable [DecidableEq τ]

/-- What an action does to a published slot. -/
theorem slot_act (h : Shape m) (ha : m.Allowed tid a) (hb : m.Published b) :
    (m.act tid a).slot b i = m.slot b i ∨
      (((m.act tid a).slot b i).count = (m.slot b i).count + 1 ∧
        (a = .casSafe b i ∧ (m.act tid a).type b i = m.type b i ∧
            ((m.act tid a).slot b i).word = (m.slot b i).word ∨
          (∃ S w, a = .push S b i w ∧ (m.act tid a).type b i = .value) ∨
          (∃ S n, a = .append S b n ∧ i = farLink S ∧ (m.act tid a).IsLink b i n) ∨
          (∃ S w, a = .pop S b i w ∧ (m.act tid a).type b i = farType S) ∨
          (∃ S w, a = .seal S b w ∧ i = nearValue S ∧ (m.act tid a).type b i = .sealed) ∨
          ∃ S n w, a = .unlink S b n w ∧ i = farLink S ∧
            (m.act tid a).type b i = farType S)) := by
  cases a with
  | casSafe c j =>
    rcases slot_cas_cases m c j (m.slot c j).word (m.slot c j).type b i with hs | ⟨rfl, rfl, hs⟩
    · exact .inl hs
    · have hs' : (m.act tid (.casSafe b i)).slot b i =
          ⟨(m.slot b i).word, (m.slot b i).count + 1, (m.slot b i).type⟩ := hs
      refine .inr ⟨by rw [hs'], .inl ⟨rfl, ?_, by rw [hs']⟩⟩
      rw [Memory.type, hs', Memory.type]
  | push S c j w =>
    rcases slot_cas_cases m c j w .value b i with hs | ⟨rfl, rfl, hs⟩
    · exact .inl hs
    · exact .inr ⟨congrArg Slot.count hs, .inr (.inl ⟨S, w, rfl, congrArg Slot.type hs⟩)⟩
  | append S c n =>
    rcases slot_cas_cases m c (farLink S) n .value b i with hs | ⟨rfl, rfl, hs⟩
    · exact .inl hs
    · exact .inr ⟨congrArg Slot.count hs, .inr (.inr (.inl ⟨S, n, rfl, rfl,
        congrArg Slot.type hs, congrArg Slot.word hs⟩))⟩
  | pop S c j w =>
    rcases slot_cas_cases m c j w (farType S) b i with hs | ⟨rfl, rfl, hs⟩
    · exact .inl hs
    · exact .inr ⟨congrArg Slot.count hs,
        .inr (.inr (.inr (.inl ⟨S, w, rfl, congrArg Slot.type hs⟩)))⟩
  | «seal» S c w =>
    rcases slot_cas_cases m c (nearValue S) w .sealed b i with hs | ⟨rfl, rfl, hs⟩
    · exact .inl hs
    · exact .inr ⟨congrArg Slot.count hs,
        .inr (.inr (.inr (.inr (.inl ⟨S, w, rfl, rfl, congrArg Slot.type hs⟩))))⟩
  | unlink S c n w =>
    rcases slot_cas_cases m c (farLink S) w (farType S) b i with hs | ⟨rfl, rfl, hs⟩
    · exact .inl hs
    · exact .inr ⟨congrArg Slot.count hs,
        .inr (.inr (.inr (.inr (.inr ⟨S, n, w, rfl, rfl, congrArg Slot.type hs⟩))))⟩
  | store n j x =>
    obtain ⟨R, ho⟩ := ha
    exact .inl (m.slot_set_ne n b j i (.inl fun he => h.not_published ho (he ▸ hb)))
  | _ => exact .inl rfl

theorem published_act (h : Shape m) (ha : m.Allowed tid a) :
    (m.act tid a).Published b ↔ m.Published b ∨ ∃ S c, a = .append S c b := by
  cases a with
  | append S c n =>
    change b ∈ S.add n m.chain ∨ b ∈ m.dead ↔ _
    rw [mem_add]
    constructor
    · rintro ((rfl | hb) | hb)
      · exact .inr ⟨S, c, rfl⟩
      · exact .inl (.inl hb)
      · exact .inl (.inr hb)
    · rintro ((hb | hb) | ⟨_, _, he⟩)
      · exact .inl (.inr hb)
      · exact .inr hb
      · cases he
        exact .inl (.inl rfl)
  | unlink S c n w =>
    obtain ⟨hc, hj, hs⟩ := ha
    obtain ⟨rest, hrest, -, hn⟩ := h.eq_add_of_sealed hc hj hs
    change b ∈ m.chain.erase n ∨ b ∈ n :: m.dead ↔ _
    rw [Memory.Published, hrest, erase_add hn, mem_add, List.mem_cons]
    simp only [reduceCtorEq, exists_false, or_false]
    tauto
  | _ =>
    simp only [reduceCtorEq, exists_false, or_false]
    rfl

theorem dead_act (a : Action) :
    d ∈ (m.act tid a).dead ↔ d ∈ m.dead ∨ ∃ S b w, a = .unlink S b d w := by
  cases a with
  | unlink S c n w =>
    change d ∈ n :: m.dead ↔ _
    rw [List.mem_cons]
    constructor
    · rintro (rfl | hd)
      · exact .inr ⟨S, c, w, rfl⟩
      · exact .inl hd
    · rintro (hd | ⟨_, _, _, he⟩)
      · exact .inr hd
      · cases he
        exact .inl rfl
  | _ =>
    simp only [reduceCtorEq, exists_false, or_false]
    rfl

/-- A link slot keeps its link except when its target is unlinked. -/
theorem linked_act (h : Shape m) (ha : m.Allowed tid a) (hb : m.Published b)
    (hl : m.IsLink b (farLink S) n) :
    (m.act tid a).IsLink b (farLink S) n ∨ ∃ w, a = .unlink S b n w := by
  rcases h.slot_act (i := farLink S) ha hb with hs | ⟨-, hcase⟩
  · rw [Memory.IsLink, Memory.type, hs]
    exact .inl hl
  · rcases hcase with ⟨-, ht, hw⟩ | ⟨R, w, rfl, -⟩ | ⟨R, p, rfl, hR, -⟩ | ⟨R, w, rfl, -⟩ |
      ⟨R, w, rfl, hR, -⟩ | ⟨R, p, w, rfl, hR, -⟩
    · exact .inl ⟨ht.trans hl.1, hw.trans hl.2⟩
    · exact absurd ha.2.1 (farLink_not_inner S)
    · obtain rfl := farLink_inj hR
      exact absurd (ha.2.1.symm.trans hl.1) (farType_ne_value S)
    · exact absurd ha.2.1 (farLink_not_inner S)
    · exact absurd hR.symm ((inner_nearValue R).ne_farLink S)
    · obtain rfl := farLink_inj hR
      obtain rfl : n = p := hl.2.symm.trans ha.2.1.1.2
      exact .inr ⟨w, rfl⟩

/-- A sealed slot stays sealed. -/
theorem sealed_act (h : Shape m) (ha : m.Allowed tid a) (hb : m.Published b)
    (hs : m.type b (farValue S) = .sealed) : (m.act tid a).type b (farValue S) = .sealed := by
  rcases h.slot_act (i := farValue S) ha hb with he | ⟨-, hcase⟩
  · rwa [Memory.type, he]
  · rcases hcase with ⟨-, ht, -⟩ | ⟨R, w, rfl, -⟩ | ⟨R, p, rfl, hR, -⟩ | ⟨R, w, rfl, -⟩ |
      ⟨R, w, rfl, hR, ht⟩ | ⟨R, p, w, rfl, hR, -⟩
    · rw [ht, hs]
    · exact absurd (ha.2.2.1.symm.trans hs) (farType_ne_sealed R)
    · exact absurd hR ((inner_farValue S).ne_farLink R)
    · exact absurd (ha.2.2.1.symm.trans hs) (by decide)
    · exact ht
    · exact absurd hR ((inner_farValue S).ne_farLink R)

theorem later (h : Shape m) (ha : m.Allowed tid a) : Later m (m.act tid a) where
  published b hb := (h.published_act ha).mpr (.inl hb)
  slot b i hb := by
    rcases h.slot_act (i := i) ha hb with hs | ⟨hc, -⟩
    · exact .inl hs
    · exact .inr (by omega)
  «sealed» b S hb hs := h.sealed_act ha hb hs
  frozen b S n hb hs hl := by
    rcases h.linked_act ha hb hl with hl' | ⟨w, rfl⟩
    · exact hl'
    · exact absurd ha.2.2 (h.apart S b n hb ha.2.1 hs)
  linked b S n hb hl := by
    rcases h.linked_act ha hb hl with hl' | ⟨w, rfl⟩
    · exact .inl hl'
    · exact .inr List.mem_cons_self
  dead d hd := (dead_act a).mpr (.inl hd)

/-- A slot becomes empty for `S` only by a pop, or a link slot by unlinking. -/
theorem reads_act (h : Shape m) (ha : m.Allowed tid a) (hb : m.Published b) (hi : Near S i)
    (hne : m.reads b i ≠ farType S) (hr : (m.act tid a).reads b i = farType S) :
    ∃ w, a = .pop S b i w := by
  rcases h.slot_act (i := i) ha hb with he | ⟨-, hcase⟩
  · rw [Memory.reads, Memory.type, he] at hr
    exact absurd hr hne
  · rcases hcase with ⟨-, ht, -⟩ | ⟨R, w, rfl, ht⟩ | ⟨R, p, rfl, hR, ht⟩ | ⟨R, w, rfl, ht⟩ |
      ⟨R, w, rfl, hR, ht⟩ | ⟨R, p, w, rfl, hR, ht⟩
    · rw [Memory.reads, ht] at hr
      exact absurd hr hne
    · rw [Memory.reads, ht, SlotType.reads_value] at hr
      exact absurd hr.symm (farType_ne_value S)
    · rw [Memory.reads, ht.1, SlotType.reads_value] at hr
      exact absurd hr.symm (farType_ne_value S)
    · rw [Memory.reads, ht, SlotType.reads_farType] at hr
      exact ⟨w, by rw [farType_inj hr]⟩
    · subst hR
      rw [Memory.reads, ht, SlotType.reads_sealed_nearValue] at hr
      rw [Memory.reads, ha.1, SlotType.reads_farType] at hne
      exact absurd hr hne
    · rw [Memory.reads, ht, SlotType.reads_farType] at hr
      obtain rfl := farType_inj hr
      exact absurd hR hi.2.2

/-- An empty slot is filled only by a push, an append or a seal. -/
theorem far_act (h : Shape m) (ha : m.Allowed tid a) (hb : m.Published b)
    (hf : m.type b i = farType S) :
    (m.act tid a).type b i = farType S ∨ (∃ w, a = .push S b i w) ∨
      (∃ n, a = .append S b n ∧ i = farLink S) ∨ ∃ w, a = .seal S b w ∧ i = nearValue S := by
  rcases h.slot_act (i := i) ha hb with he | ⟨-, hcase⟩
  · rw [Memory.type, he]
    exact .inl hf
  · rcases hcase with ⟨-, ht, -⟩ | ⟨R, w, rfl, -⟩ | ⟨R, p, rfl, rfl, -⟩ | ⟨R, w, rfl, -⟩ |
      ⟨R, w, rfl, rfl, -⟩ | ⟨R, p, w, rfl, rfl, -⟩
    · exact .inl (ht.trans hf)
    · obtain rfl := farType_inj (ha.2.2.1.symm.trans hf)
      exact .inr (.inl ⟨w, rfl⟩)
    · obtain rfl := farType_inj (ha.2.1.symm.trans hf)
      exact .inr (.inr (.inl ⟨p, rfl, rfl⟩))
    · exact absurd (hf.symm.trans ha.2.2.1) (farType_ne_value S)
    · obtain rfl := farType_inj (ha.1.symm.trans hf)
      exact .inr (.inr (.inr ⟨w, rfl, rfl⟩))
    · exact absurd (hf.symm.trans ha.2.1.1.1) (farType_ne_value S)

omit [DecidableEq τ] in
/-- A buffer that is joined with one it can still be appended to or sealed from
is not unlinked. -/
theorem not_unlinked (h : Shape m) {w : Word} (ha : m.Allowed tid (.unlink R c n w))
    (hs : m.type n (nearValue S) ≠ .sealed) (hl : m.type n (nearLink S) = .value) : False := by
  have hn := h.target c R n ha.1 ha.2.1.1
  rcases S.eq_or_eq_opposite R with rfl | rfl
  · exact hs ha.2.2
  · have hf := ((h.buffer n hn).farLink_of_sealed ha.2.2).2
    rw [farLink_opposite] at hf
    exact farType_ne_value _ (hf.symm.trans hl)

theorem pushPermit_act (h : Shape m) (ha : m.Allowed tid a) (hb : m.Published b)
    (hi : Near S i) {far : Slot} (hseen : m.Seen b (i + farDirection S) far)
    (hp : m.PushPermit S b i far)
    (hex : ∀ w, a = .pop S b i w → (m.slot b (i + farDirection S)).count ≠ far.count) :
    (m.act tid a).PushPermit S b i far := by
  intro hcur
  have hslot := (h.later ha).slot_of_current hb hseen hcur
  rw [hslot] at hcur
  intro hr
  obtain ⟨w, rfl⟩ := h.reads_act ha hb hi (hp hcur) hr
  exact hex w rfl hcur

theorem popPermit_act (h : Shape m) (ha : m.Allowed tid a) (hb : m.Published b)
    {near : Slot} (hseen : m.Seen b i near) (hp : m.PopPermit S b i near)
    (hpush : ∀ w, a = .push S b (i + farDirection S) w → (m.slot b i).count ≠ near.count)
    (happ : ∀ n, a = .append S b n → i + farDirection S = farLink S →
      (m.slot b i).count ≠ near.count)
    (hseal : i + farDirection S = nearValue S → (m.slot b i).count ≠ near.count) :
    (m.act tid a).PopPermit S b i near := by
  intro hcur
  have hslot := (h.later ha).slot_of_current hb hseen hcur
  rw [hslot] at hcur
  rcases h.far_act ha hb (hp hcur) with ht | ⟨w, hw⟩ | ⟨n, hn, hi⟩ | ⟨w, hw, hi⟩
  · exact ht
  · exact absurd hcur (hpush w hw)
  · exact absurd hcur (happ n hn hi)
  · exact absurd hcur (hseal hi)

theorem sealPermit_act (h : Shape m) (ha : m.Allowed tid a) (hb : m.Published b)
    (hn : m.Published n) {reach : Slot} (hf : reach.type = farType S)
    (hseen : m.Seen n (nearValue S) reach) (hp : m.SealPermit S b n reach)
    (hex : ∀ w, a = .seal S.opposite b w → (m.slot n (nearValue S)).count ≠ reach.count) :
    (m.act tid a).SealPermit S b n reach := by
  intro hcur
  have hslot := (h.later ha).slot_of_current hn hseen hcur
  rw [hslot] at hcur
  obtain ⟨hj, hns⟩ := hp hcur
  have htype : m.type n (nearValue S) ≠ .sealed := by
    rw [(hseen.2 hcur).1, hf]
    exact farType_ne_sealed S
  refine ⟨⟨?_, ?_⟩, ?_⟩
  · rcases h.linked_act ha hb hj.1 with hl | ⟨w, rfl⟩
    · exact hl
    · exact (h.not_unlinked ha htype hj.2.1).elim
  · rcases h.linked_act (S := S.opposite) ha hn hj.2 with hl | ⟨w, rfl⟩
    · exact hl
    · exact absurd ha.2.2 (by rwa [nearValue_opposite])
  · intro hs
    rcases h.slot_act (i := farValue S) ha hb with he | ⟨-, hcase⟩
    · rw [Memory.type, he] at hs
      exact hns hs
    · rcases hcase with ⟨-, ht, -⟩ | ⟨R, w, rfl, ht⟩ | ⟨R, p, rfl, hR, -⟩ | ⟨R, w, rfl, ht⟩ |
        ⟨R, w, rfl, hR, -⟩ | ⟨R, p, w, rfl, hR, -⟩
      · exact hns (ht.symm.trans hs)
      · exact absurd (ht.symm.trans hs) (by decide)
      · exact (inner_farValue S).ne_farLink R hR
      · exact farType_ne_sealed R (ht.symm.trans hs)
      · have hR' : R.opposite = S := farValue_inj hR.symm
        obtain rfl : R = S.opposite := by rw [← hR', Side.opposite_opposite]
        exact hex w rfl hcur
      · exact (inner_farValue S).ne_farLink R hR

end Shape
end UnboundedDeque.OFDeque
