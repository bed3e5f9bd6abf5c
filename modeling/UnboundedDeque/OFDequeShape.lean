import UnboundedDeque.OFDequeMemory

/-!
# Every allowed action keeps the shape of the deque

A buffer that was unlinked is sealed, holds no value and is empty for the side
it was unlinked at. So a buffer with a slot a push or a pop may change is live
and the last one towards its side.
-/
namespace UnboundedDeque.OFDeque

variable {τ : Type*} {m m' : Memory τ} {S R : Side} {b n d : Address} {i : ℤ}

namespace Shape

theorem isLink_word (hv : m.type b i = .value) : m.IsLink b i (m.slot b i).word := ⟨hv, rfl⟩

variable [BufferSize]

/-- A link slot that is not empty holds a link to a published buffer. -/
theorem link_of_ne (h : Shape m) (hb : m.Published b) (hne : m.type b (farLink S) ≠ farType S) :
    m.IsLink b (farLink S) (m.slot b (farLink S)).word ∧
      m.Published (m.slot b (farLink S)).word := by
  have hl := isLink_word (((h.buffer b hb).link S).resolve_left hne)
  exact ⟨hl, h.target b S _ hb hl⟩

/-- A buffer that was unlinked at the side `R`. -/
theorem of_dead (h : Shape m) (hd : d ∈ m.dead) :
    ∃ R n, m.type d (nearValue R) = .sealed ∧ m.IsLink d (nearLink R) n ∧
      ¬ m.IsLink n (farLink R) d ∧ m.type d (farLink R) = farType R ∧
      ∀ i, Inner i → m.reads d i = farType R := by
  obtain ⟨l, k, hk⟩ := List.append_of_mem hd
  obtain ⟨S, n, hs, hl, _, hback⟩ := h.dead l d k hk
  have hok := h.buffer d (.inr hd)
  have hs' : m.type d (nearValue S.opposite) = .sealed := by rwa [nearValue_opposite]
  refine ⟨S.opposite, n, hs', by rwa [nearLink_opposite], by rwa [farLink_opposite],
    (hok.farLink_of_sealed hs').2, fun i hi => ?_⟩
  apply hok.reads_of_nearValue _ hi
  rw [hs', SlotType.reads_sealed_nearValue]

omit [BufferSize] in
theorem live_of_not_dead (hb : m.Published b) (hd : b ∉ m.dead) : b ∈ m.chain :=
  hb.resolve_right hd

/-- A buffer that holds a value is live. -/
theorem live_of_value (h : Shape m) (hb : m.Published b) (hi : Inner i)
    (hv : m.type b i = .value) : b ∈ m.chain := by
  apply live_of_not_dead hb
  intro hd
  obtain ⟨R, n, -, -, -, -, hall⟩ := h.of_dead hd
  have hr := hall i hi
  rw [Memory.reads, hv, SlotType.reads_value] at hr
  exact farType_ne_value R hr.symm

/-- A buffer with an empty slot beside one that is not empty is live. -/
theorem live_of_edge (h : Shape m) (hb : m.Published b) (hi : Inner i)
    (hf : m.type b i = farType S)
    (hprev : i ≠ nearValue S → m.reads b (i - farDirection S) ≠ farType S) : b ∈ m.chain := by
  apply live_of_not_dead hb
  intro hd
  obtain ⟨R, n, hs, -, -, -, hall⟩ := h.of_dead hd
  have hr := hall i hi
  rw [Memory.reads, hf, SlotType.reads_farType] at hr
  obtain rfl := farType_inj hr
  rcases hi.prev S with rfl | hp
  · rw [hs] at hf
    exact farType_ne_sealed S hf.symm
  · by_cases hn : i = nearValue S
    · rw [← hn, hf] at hs
      exact farType_ne_sealed S hs
    · exact hprev hn (hall _ hp)

/-- A buffer that is not full towards `S` and has no link there is live. -/
theorem live_of_boundary (h : Shape m) (hb : m.Published b)
    (hf : m.type b (farLink S) = farType S) (hv : m.type b (farValue S) ≠ farType S) :
    b ∈ m.chain := by
  apply live_of_not_dead hb
  intro hd
  obtain ⟨R, n, -, hl, -, -, hall⟩ := h.of_dead hd
  rcases S.eq_or_eq_opposite R with rfl | rfl
  · exact hv (SlotType.eq_farType_of_reads (hall _ (inner_farValue R)))
  · rw [nearLink_opposite] at hl
    exact farType_ne_value S (hf.symm.trans hl.1)

theorem joined_symm (hj : m.Joined S b n) : m.Joined S.opposite n b := by
  rw [Memory.Joined, farLink_opposite, nearLink_opposite]
  exact ⟨hj.2, hj.1⟩

theorem live_of_joined (h : Shape m) (hb : m.Published b) (hj : m.Joined S b n) :
    b ∈ m.chain := by
  apply live_of_not_dead hb
  intro hd
  obtain ⟨R, p, hs, hl, hback, hf, -⟩ := h.of_dead hd
  rcases S.eq_or_eq_opposite R with rfl | rfl
  · exact farType_ne_value R (hf.symm.trans hj.1.1)
  · rw [nearLink_opposite] at hl
    obtain rfl : n = p := hj.1.2.symm.trans hl.2
    exact hback hj.2

/-- Two buffers that link to each other are live. -/
theorem live_joined (h : Shape m) (hb : m.Published b) (hj : m.Joined S b n) :
    b ∈ m.chain ∧ n ∈ m.chain := by
  have hn := h.target b S n hb hj.1
  exact ⟨h.live_of_joined hb hj, h.live_of_joined hn (joined_symm hj)⟩

/-- The last buffer towards `S` is the one without a link there. -/
theorem end_or_joined (h : Shape m) (hb : b ∈ m.chain) (S : Side) :
    (∃ rest, m.chain = S.add b rest ∧ m.type b (farLink S) = farType S) ∨
      ∃ n ∈ m.chain, m.Joined S b n := by
  rcases getLast_or_rel (h.joined S) (mem_orient.mpr hb) with hlast | ⟨c, hc, hj⟩
  · obtain ⟨rest, hrest⟩ := eq_add_of_getLast hlast
    exact .inl ⟨rest, hrest, h.ends S b hlast⟩
  · exact .inr ⟨c, mem_orient.mp hc, hj⟩

theorem eq_add (h : Shape m) (hb : b ∈ m.chain) (hf : m.type b (farLink S) = farType S) :
    ∃ rest, m.chain = S.add b rest := by
  rcases h.end_or_joined hb S with ⟨rest, hrest, -⟩ | ⟨n, -, hj⟩
  · exact ⟨rest, hrest⟩
  · exact absurd (hf.symm.trans hj.1.1) (farType_ne_value S)

theorem joined_of_link (h : Shape m) (hb : b ∈ m.chain) (hl : m.IsLink b (farLink S) n) :
    m.Joined S b n := by
  rcases h.end_or_joined hb S with ⟨rest, -, hf⟩ | ⟨c, -, hj⟩
  · exact absurd (hf.symm.trans hl.1) (farType_ne_value S)
  · obtain rfl : n = c := hl.2.symm.trans hj.1.2
    exact hj

/-- A linked chain is linked in both directions. -/
theorem joined_both {l : List Address} (h : (orient S l).IsChain (m.Joined S)) (R : Side) :
    (orient R l).IsChain (m.Joined R) := by
  rcases S.eq_or_eq_opposite R with rfl | rfl
  · exact h
  · rw [orient_opposite, List.isChain_reverse]
    exact h.imp fun _ _ hj => joined_symm hj

/-- The links are untouched. -/
structure SameLinks (m m' : Memory τ) : Prop where
  chain : m'.chain = m.chain
  dead : m'.dead = m.dead
  owner : m'.owner = m.owner
  cache : m'.cache = m.cache
  hint : m'.hint = m.hint
  slot : ∀ b, m.Published b → ∀ S, m'.type b (farLink S) = m.type b (farLink S) ∧
    (m'.slot b (farLink S)).word = (m.slot b (farLink S)).word

theorem SameLinks.published (hl : SameLinks m m') : m'.Published b ↔ m.Published b := by
  rw [Memory.Published, Memory.Published, hl.chain, hl.dead]

theorem SameLinks.isLink (hl : SameLinks m m') (hb : m.Published b) :
    m'.IsLink b (farLink S) n ↔ m.IsLink b (farLink S) n := by
  obtain ⟨ht, hw⟩ := hl.slot b hb S
  rw [Memory.IsLink, Memory.IsLink, ht, hw]

theorem SameLinks.joined (hl : SameLinks m m') (hb : m.Published b) (hn : m.Published n) :
    m'.Joined S b n ↔ m.Joined S b n :=
  and_congr (hl.isLink hb) (hl.isLink (S := S.opposite) hn)

theorem of_sameLinks (h : Shape m) (hl : SameLinks m m')
    (buffer : ∀ b, m.Published b → BufferOk (m'.type b))
    (apart : ∀ S b n, m.Published b → m.Joined S b n → m'.type b (farValue S) = .sealed →
      m'.type n (nearValue S) ≠ .sealed)
    (stays : ∀ d, d ∈ m.dead → ∀ S, m.type d (farValue S) = .sealed →
      m'.type d (farValue S) = .sealed) : Shape m' where
  nonempty := hl.chain ▸ h.nonempty
  nodup := by
    rw [hl.chain, hl.dead]
    exact h.nodup
  owner b hb := by
    rw [hl.owner]
    exact h.owner b (hl.published.mp hb)
  cache S tid n hc := by
    rw [hl.owner]
    rw [hl.cache] at hc
    exact h.cache S tid n hc
  hint S := by
    rw [hl.hint, hl.published]
    exact h.hint S
  buffer b hb := buffer b (hl.published.mp hb)
  target b S n hb hn := by
    rw [hl.published] at hb ⊢
    exact h.target b S n hb ((hl.isLink hb).mp hn)
  joined S := by
    rw [hl.chain]
    apply (h.joined S).imp_of_mem_imp
    intro b c hb hc hj
    exact (hl.joined (.inl (mem_orient.mp hb)) (.inl (mem_orient.mp hc))).mpr hj
  ends S b hb := by
    rw [hl.chain] at hb
    have hmem := mem_orient.mp (List.mem_of_getLast? hb)
    rw [(hl.slot b (.inl hmem) S).1]
    exact h.ends S b hb
  apart S b n hb hj := by
    rw [hl.published] at hb
    have hn : m.Published n := h.target b S n hb ((hl.isLink hb).mp hj.1)
    exact apart S b n hb ((hl.joined hb hn).mp hj)
  dead l d k hk := by
    rw [hl.dead] at hk
    rw [hl.chain]
    obtain ⟨S, n, hs, hd, hn, hback⟩ := h.dead l d k hk
    have hmem : d ∈ m.dead := hk ▸ by simp
    have hpub : m.Published n := h.target d S n (.inr hmem) hd
    exact ⟨S, n, stays d hmem S hs, (hl.isLink (.inr hmem)).mpr hd, hn,
      fun hb => hback ((hl.isLink (S := S.opposite) hpub).mp hb)⟩

theorem of_value_write (h : Shape m) {w : Word} {t : SlotType} (hi : Inner i)
    (ok : BufferOk (Function.update (m.type b) i t))
    (apart : ∀ S n, m.Joined S b n → i = farValue S → t = .sealed →
      m.type n (nearValue S) ≠ .sealed)
    (stays : m.type b i = .sealed → t = .sealed) : Shape (m.cas b i w t) := by
  have hne (c) (S) : (m.cas b i w t).slot c (farLink S) = m.slot c (farLink S) :=
    m.slot_cas_ne b c i _ w t (.inr (hi.ne_farLink S).symm)
  have hl : SameLinks m (m.cas b i w t) := by
    refine ⟨rfl, rfl, rfl, rfl, rfl, fun c _ S => ?_⟩
    rw [Memory.type, Memory.type, hne]
    exact ⟨rfl, rfl⟩
  apply h.of_sameLinks hl
  · intro c hc
    by_cases hcb : c = b
    · rw [hcb, Memory.type_cas_self]
      exact ok
    · rw [Memory.type_cas_other _ _ _ _ _ _ hcb]
      exact h.buffer c hc
  · intro R c n hc hj hs hs'
    by_cases hcb : c = b ∧ farValue R = i
    · obtain ⟨rfl, rfl⟩ := hcb
      rw [Memory.type_cas] at hs
      by_cases hn : n = c ∧ nearValue R = farValue R
      · exact nearValue_ne_farValue R hn.2
      · rw [Memory.type_cas_ne _ _ _ _ _ _ _ (not_and_or.mp hn)] at hs'
        exact apart R n hj rfl hs hs'
    · rw [Memory.type_cas_ne _ _ _ _ _ _ _ (not_and_or.mp hcb)] at hs
      by_cases hn : n = b ∧ nearValue R = i
      · obtain ⟨rfl, rfl⟩ := hn
        rw [Memory.type_cas] at hs'
        have hj' := joined_symm hj
        exact apart R.opposite c hj' rfl hs' (by rwa [nearValue_opposite])
      · rw [Memory.type_cas_ne _ _ _ _ _ _ _ (not_and_or.mp hn)] at hs'
        exact h.apart R c n hc hj hs hs'
  · intro d _ R hs
    by_cases hd : d = b ∧ farValue R = i
    · obtain ⟨rfl, rfl⟩ := hd
      rw [Memory.type_cas, stays hs]
    · rw [Memory.type_cas_ne _ _ _ _ _ _ _ (not_and_or.mp hd), hs]

theorem casSafe (h : Shape m) (b : Address) (i : ℤ) :
    Shape (m.cas b i (m.slot b i).word (m.slot b i).type) := by
  have htype (c) (j) : (m.cas b i (m.slot b i).word (m.slot b i).type).type c j = m.type c j := by
    by_cases hc : c = b ∧ j = i
    · obtain ⟨rfl, rfl⟩ := hc
      exact m.type_cas c j _ _
    · exact m.type_cas_ne b c i j _ _ (not_and_or.mp hc)
  have hword (c) (j) :
      ((m.cas b i (m.slot b i).word (m.slot b i).type).slot c j).word = (m.slot c j).word := by
    by_cases hc : c = b ∧ j = i
    · obtain ⟨rfl, rfl⟩ := hc
      rw [Memory.slot_cas]
    · rw [Memory.slot_cas_ne _ _ _ _ _ _ _ (not_and_or.mp hc)]
  have hl : SameLinks m (m.cas b i (m.slot b i).word (m.slot b i).type) :=
    ⟨rfl, rfl, rfl, rfl, rfl, fun c _ S => ⟨htype c _, hword c _⟩⟩
  apply h.of_sameLinks hl
  · intro c hc
    rw [show Memory.type _ c = m.type c from funext (htype c)]
    exact h.buffer c hc
  · intro R c n hc hj hs
    rw [htype] at hs ⊢
    exact h.apart R c n hc hj hs
  · intro d _ R hs
    rw [htype, hs]

variable [DecidableEq τ]

theorem push (h : Shape m) {w : Word} {tid : τ} (ha : m.Allowed tid (.push S b i w)) :
    Shape (m.act tid (.push S b i w)) := by
  obtain ⟨hb, hi, hf, hprev⟩ := ha
  apply h.of_value_write hi ((h.buffer b hb).update_value hi hf hprev)
  · intro R n _ _ ht
    cases ht
  · intro hs
    exact absurd (hf.symm.trans hs) (farType_ne_sealed S)

theorem pop (h : Shape m) {junk : Word} {tid : τ} (ha : m.Allowed tid (.pop S b i junk)) :
    Shape (m.act tid (.pop S b i junk)) := by
  obtain ⟨hb, hi, hv, hnext⟩ := ha
  apply h.of_value_write hi ((h.buffer b hb).update_far hi hv hnext)
  · intro R n _ _ ht
    exact absurd ht (farType_ne_sealed S)
  · intro hs
    exact absurd (hv.symm.trans hs) (by decide)

/-- What a sealing compare-exchange relies on: its own buffer is the only
neighbour of the buffer it seals. -/
theorem sealNear (h : Shape m) {junk : Word} {tid : τ} (ha : m.Allowed tid (.seal S n junk)) :
    Shape (m.act tid (.seal S n junk)) := by
  obtain ⟨hf, b, hb, hj, hs⟩ := ha
  have hn : m.Published n := h.target b S n hb hj.1
  apply h.of_value_write (inner_nearValue S) ((h.buffer n hn).update_sealed hf hj.2.1)
  · intro R p hp hR _
    obtain rfl : R = S.opposite := by
      rcases S.eq_or_eq_opposite R with rfl | rfl
      · exact absurd hR (nearValue_ne_farValue R)
      · rfl
    have hp' := hp.1
    rw [farLink_opposite] at hp'
    obtain rfl : b = p := hj.2.2.symm.trans hp'.2
    rwa [nearValue_opposite]
  · exact fun _ => rfl

omit [DecidableEq τ] in
/-- The private buffer of a thread is not published. -/
theorem not_published (h : Shape m) {tid : τ} (ho : m.owner n = .thread S tid) :
    ¬ m.Published n := by
  intro hn
  rw [h.owner n hn] at ho
  cases ho

section Append

variable {tid : τ}

/-- The effect of an append on the links. -/
theorem append_isLink {c p : Address} {j : ℤ} (hne : c ≠ b ∨ j ≠ farLink S) :
    (m.act tid (.append S b n)).IsLink c j p ↔ m.IsLink c j p :=
  m.isLink_cas_ne b c p (farLink S) j n .value hne

theorem append_type {c : Address} {j : ℤ} (hne : c ≠ b ∨ j ≠ farLink S) :
    (m.act tid (.append S b n)).type c j = m.type c j :=
  m.type_cas_ne b c (farLink S) j n .value hne

theorem append_inner {c : Address} {j : ℤ} (hj : Inner j) :
    (m.act tid (.append S b n)).type c j = m.type c j :=
  append_type (.inr (hj.ne_farLink S))

theorem append_new : (m.act tid (.append S b n)).IsLink b (farLink S) n :=
  ⟨m.type_cas b _ n .value, congrArg Slot.word (m.slot_cas b _ n .value)⟩

/-- The links of an append: the one to the new buffer and those before. -/
theorem append_isLink_cases {c p : Address}
    (hl : (m.act tid (.append S b n)).IsLink c (farLink R) p) :
    (c = b ∧ R = S ∧ p = n) ∨ m.IsLink c (farLink R) p := by
  rcases S.eq_or_eq_opposite R with rfl | rfl
  · by_cases hc : c = b
    · subst hc
      exact .inl ⟨rfl, rfl, hl.2.symm.trans append_new.2⟩
    · exact .inr ((append_isLink (.inl hc)).mp hl)
  · exact .inr ((append_isLink (.inr (nearLink_ne_farLink S))).mp hl)

theorem append_published {c : Address} :
    (m.act tid (.append S b n)).Published c ↔ c = n ∨ m.Published c := by
  change (c ∈ S.add n m.chain ∨ c ∈ m.dead) ↔ _
  rw [mem_add, or_assoc]
  rfl

section Fields

variable (h : Shape m) (ha : m.Allowed tid (.append S b n))

include h ha

theorem append_nodup :
    ((m.act tid (.append S b n)).chain ++ (m.act tid (.append S b n)).dead).Nodup := by
  have hnd : n ∉ m.chain ++ m.dead := by
    rw [List.mem_append]
    exact h.not_published ha.2.2.2.2
  have hcons := List.nodup_cons.mpr ⟨hnd, h.nodup⟩
  change (S.add n m.chain ++ m.dead).Nodup
  cases S with
  | left => exact hcons
  | right =>
    rw [Side.add_right, List.append_assoc]
    exact List.perm_middle.nodup_iff.mpr hcons

theorem append_owner {c : Address} (hc : (m.act tid (.append S b n)).Published c) :
    (m.act tid (.append S b n)).owner c = .published := by
  change Function.update m.owner n .published c = .published
  rcases append_published.mp hc with rfl | hc
  · rw [Function.update_self]
  · have hne : c ≠ n := fun he => h.not_published ha.2.2.2.2 (he ▸ hc)
    rw [Function.update_of_ne hne]
    exact h.owner c hc

theorem append_cache {tid' : τ} {p : Address}
    (hc : (m.act tid (.append S b n)).cache R tid' = some p) :
    (m.act tid (.append S b n)).owner p = .thread R tid' := by
  have hother : m.cache R tid' = some p ∧ ¬ (R = S ∧ tid' = tid) := by
    change Function.update m.cache S (Function.update (m.cache S) tid none) R tid' = some p at hc
    by_cases hR : R = S
    · subst hR
      rw [Function.update_self] at hc
      by_cases ht : tid' = tid
      · rw [ht, Function.update_self] at hc
        cases hc
      · rw [Function.update_of_ne ht] at hc
        exact ⟨hc, fun he => ht he.2⟩
    · rw [Function.update_of_ne hR] at hc
      exact ⟨hc, fun he => hR he.1⟩
  have hp := h.cache R tid' p hother.1
  have hne : p ≠ n := by
    rintro rfl
    rw [ha.2.2.2.2] at hp
    simp only [Owner.thread.injEq] at hp
    exact hother.2 ⟨hp.1.symm, hp.2.symm⟩
  change Function.update m.owner n .published p = _
  rw [Function.update_of_ne hne, hp]

theorem append_buffer {c : Address} (hc : (m.act tid (.append S b n)).Published c) :
    BufferOk ((m.act tid (.append S b n)).type c) := by
  obtain ⟨hb, -, hv, hprep, -⟩ := ha
  by_cases hcb : c = b
  · subst hcb
    have htype : (m.act tid (.append S c n)).type c =
        Function.update (m.type c) (farLink S) .value := m.type_cas_self c _ n .value
    rw [htype]
    exact (h.buffer c hb).update_link hv
  · have htype : (m.act tid (.append S b n)).type c = m.type c :=
      m.type_cas_other b c _ n .value hcb
    rw [htype]
    rcases append_published.mp hc with rfl | hc
    · exact .prepared hprep.link.1 hprep.value hprep.farLink hprep.rest
    · exact h.buffer c hc

theorem append_target {c p : Address} (hc : (m.act tid (.append S b n)).Published c)
    (hcp : (m.act tid (.append S b n)).IsLink c (farLink R) p) :
    (m.act tid (.append S b n)).Published p := by
  obtain ⟨hb, -, -, hprep, -⟩ := ha
  rw [append_published] at hc ⊢
  rcases append_isLink_cases hcp with ⟨-, -, rfl⟩ | hl
  · exact .inl rfl
  rcases hc with rfl | hc
  · rcases S.eq_or_eq_opposite R with rfl | rfl
    · exact absurd (hprep.farLink.symm.trans hl.1) (farType_ne_value R)
    · exact .inr (hl.2.symm.trans hprep.link.2 ▸ hb)
  · exact .inr (h.target c R p hc hl)

/-- The new buffer is joined to the one that was the last. -/
theorem append_joined (R : Side) :
    (orient R (m.act tid (.append S b n)).chain).IsChain ((m.act tid (.append S b n)).Joined R) := by
  obtain ⟨hb, hf, hv, hprep, -⟩ := ha
  apply joined_both (S := S)
  change (orient S (S.add n m.chain)).IsChain _
  rw [orient_add, List.isChain_append]
  refine ⟨?_, by simp, ?_⟩
  · apply (h.joined S).imp_of_mem_imp
    rintro x y - - ⟨hxy, hyx⟩
    have hx : x ≠ b := by
      rintro rfl
      exact farType_ne_value S (hf.symm.trans hxy.1)
    exact ⟨(append_isLink (.inl hx)).mpr hxy,
      (append_isLink (.inr (nearLink_ne_farLink S))).mpr hyx⟩
  · intro x hx y hy
    obtain ⟨rest, hrest⟩ := h.eq_add (h.live_of_boundary hb hf hv) hf
    rw [hrest, orient_add, List.getLast?_append, List.getLast?_singleton] at hx
    obtain rfl := Option.some.inj hx
    rw [List.head?_cons, Option.mem_some_iff] at hy
    subst hy
    exact ⟨append_new, (append_isLink (.inr (nearLink_ne_farLink S))).mpr hprep.link⟩

theorem append_ends {c : Address}
    (hc : (orient R (m.act tid (.append S b n)).chain).getLast? = some c) :
    (m.act tid (.append S b n)).type c (farLink R) = farType R := by
  obtain ⟨hb, -, -, hprep, hown⟩ := ha
  change (orient R (S.add n m.chain)).getLast? = some c at hc
  rcases S.eq_or_eq_opposite R with rfl | rfl
  · have hnb : n ≠ b := fun he => h.not_published hown (he ▸ hb)
    rw [orient_add, List.getLast?_append, List.getLast?_singleton] at hc
    obtain rfl := Option.some.inj hc
    rw [append_type (.inl hnb)]
    exact hprep.farLink
  · have hc' : (orient S.opposite m.chain).getLast? = some c := by
      rw [orient_opposite, orient_add, List.reverse_append, List.reverse_singleton,
        List.singleton_append, ← orient_opposite] at hc
      obtain ⟨x, l, hx⟩ := List.exists_cons_of_ne_nil (mt orient_eq_nil.mp h.nonempty)
      rw [hx, List.getLast?_cons_cons, ← hx] at hc
      exact hc
    rw [farLink_opposite, append_type (.inr (nearLink_ne_farLink S))]
    exact h.ends _ c hc'

theorem append_apart {c p : Address} (hc : (m.act tid (.append S b n)).Published c)
    (hj : (m.act tid (.append S b n)).Joined R c p)
    (hs : (m.act tid (.append S b n)).type c (farValue R) = .sealed) :
    (m.act tid (.append S b n)).type p (nearValue R) ≠ .sealed := by
  have hprep := ha.2.2.2.1
  rw [append_inner (inner_farValue R)] at hs
  rw [append_inner (inner_nearValue R)]
  have hnew (S' : Side) : m.type n (farValue S') ≠ .sealed := by
    rcases S.eq_or_eq_opposite S' with rfl | rfl
    · rw [hprep.rest _ (inner_farValue S') (nearValue_ne_farValue S').symm]
      exact farType_ne_sealed S'
    · rw [farValue_opposite, hprep.value]
      decide
  by_cases hcn : c = n
  · exact absurd (hcn ▸ hs) (hnew R)
  · by_cases hpn : p = n
    · rw [hpn]
      exact hnew R.opposite
    · have hc' := (append_published.mp hc).resolve_left hcn
      have hl := (append_isLink_cases hj.1).resolve_left fun he => hpn he.2.2
      have hl' := (append_isLink_cases (R := R.opposite) hj.2).resolve_left fun he => hcn he.2.2
      exact h.apart R c p hc' ⟨hl, hl'⟩ hs

theorem append_dead {l k : List Address} (hk : (m.act tid (.append S b n)).dead = l ++ d :: k) :
    ∃ R p, (m.act tid (.append S b n)).type d (farValue R) = .sealed ∧
      (m.act tid (.append S b n)).IsLink d (farLink R) p ∧
      (p ∈ (m.act tid (.append S b n)).chain ∨ p ∈ l) ∧
      ¬ (m.act tid (.append S b n)).IsLink p (nearLink R) d := by
  obtain ⟨hb, hf, hv, -, hown⟩ := ha
  obtain ⟨R, p, hs, hl, hp, hback⟩ := h.dead l d k hk
  have hd : d ∈ m.dead := by
    change m.dead = l ++ d :: k at hk
    rw [hk]
    simp
  have hdb : d ≠ b := by
    rintro rfl
    exact List.disjoint_of_nodup_append h.nodup (h.live_of_boundary hb hf hv) hd
  refine ⟨R, p, by rwa [append_inner (inner_farValue R)], (append_isLink (.inl hdb)).mpr hl,
    hp.imp_left fun hp => mem_add.mpr (.inr hp), fun hl' => ?_⟩
  rcases append_isLink_cases (R := R.opposite) hl' with ⟨-, -, rfl⟩ | hl'
  · exact h.not_published hown (.inr hd)
  · exact hback hl'

end Fields

theorem append (h : Shape m) (ha : m.Allowed tid (.append S b n)) :
    Shape (m.act tid (.append S b n)) where
  nonempty := S.add_ne_nil _ _
  nodup := h.append_nodup ha
  owner _ hc := h.append_owner ha hc
  cache _ _ _ hc := h.append_cache ha hc
  hint R := append_published.mpr (.inr (h.hint R))
  buffer _ hc := h.append_buffer ha hc
  target _ _ _ hc hl := h.append_target ha hc hl
  joined := h.append_joined ha
  ends _ _ hc := h.append_ends ha hc
  apart _ _ _ hc hj hs := h.append_apart ha hc hj hs
  dead _ _ _ hk := h.append_dead ha hk

end Append

section Unlink

variable {junk : Word} {tid : τ}

/-- The effect of unlinking on the links. -/
theorem unlink_isLink {c p : Address} {j : ℤ} :
    (m.act tid (.unlink S b n junk)).IsLink c j p ↔ (c ≠ b ∨ j ≠ farLink S) ∧ m.IsLink c j p := by
  by_cases hc : c = b ∧ j = farLink S
  · obtain ⟨rfl, rfl⟩ := hc
    simp only [ne_eq, not_true, or_self, false_and, iff_false]
    intro hl
    exact farType_ne_value S ((m.type_cas c _ junk (farType S)).symm.trans hl.1)
  · rw [and_iff_right (not_and_or.mp hc)]
    exact m.isLink_cas_ne b c p (farLink S) j junk (farType S) (not_and_or.mp hc)

theorem unlink_type {c : Address} {j : ℤ} (hj : j ≠ farLink S) :
    (m.act tid (.unlink S b n junk)).type c j = m.type c j :=
  m.type_cas_ne b c _ j junk _ (.inr hj)

omit [DecidableEq τ] in
/-- A sealed buffer with a neighbour is the last one towards its side. -/
theorem eq_add_of_sealed (h : Shape m) (hb : m.Published b) (hj : m.Joined S b n)
    (hs : m.type n (nearValue S) = .sealed) :
    ∃ rest, m.chain = S.add n rest ∧ b ∈ rest ∧ n ∉ rest := by
  obtain ⟨hbl, hnl⟩ := h.live_joined hb hj
  have hf := ((h.buffer n (.inl hnl)).farLink_of_sealed hs).2
  obtain ⟨rest, hrest⟩ := h.eq_add hnl hf
  have hne : b ≠ n := by
    rintro rfl
    exact farType_ne_value S (hf.symm.trans hj.1.1)
  have hnd : (orient S m.chain).Nodup := by
    have := h.nodup.of_append_left
    cases S with
    | left => exact List.nodup_reverse.mpr this
    | right => exact this
  rw [hrest, orient_add, List.nodup_append] at hnd
  refine ⟨rest, hrest, ?_, fun hn => hnd.2.2 n (mem_orient.mpr hn) n (by simp) rfl⟩
  rw [hrest, mem_add] at hbl
  exact hbl.resolve_left hne

omit [DecidableEq τ] [BufferSize] in
theorem erase_add {rest : List Address} (hn : n ∉ rest) : (S.add n rest).erase n = rest := by
  cases S with
  | left => simp
  | right => rw [Side.add_right, List.erase_append_right _ hn]; simp

theorem unlink_chain {rest : List Address} (hrest : m.chain = S.add n rest) (hn : n ∉ rest) :
    (m.act tid (.unlink S b n junk)).chain = rest := by
  change m.chain.erase n = rest
  rw [hrest, erase_add hn]

section Fields

variable (h : Shape m) (ha : m.Allowed tid (.unlink S b n junk))

include h ha

theorem unlink_perm : ((m.act tid (.unlink S b n junk)).chain ++
    (m.act tid (.unlink S b n junk)).dead).Perm (m.chain ++ m.dead) := by
  obtain ⟨hb, hj, hs⟩ := ha
  obtain ⟨rest, hrest, -, hnr⟩ := h.eq_add_of_sealed hb hj hs
  rw [unlink_chain hrest hnr, hrest]
  cases S with
  | left => exact List.perm_middle
  | right =>
    rw [Side.add_right, List.append_assoc]
    exact .rfl

theorem unlink_published {c : Address} :
    (m.act tid (.unlink S b n junk)).Published c ↔ m.Published c := by
  rw [Memory.Published, Memory.Published, ← List.mem_append, ← List.mem_append,
    (h.unlink_perm ha).mem_iff]

theorem unlink_buffer {c : Address} (hc : m.Published c) :
    BufferOk ((m.act tid (.unlink S b n junk)).type c) := by
  obtain ⟨hb, hj, hs⟩ := ha
  by_cases hcb : c = b
  · subst hcb
    have htype : (m.act tid (.unlink S c n junk)).type c =
        Function.update (m.type c) (farLink S) (farType S) := m.type_cas_self c _ junk _
    rw [htype]
    exact (h.buffer c hb).update_unlink fun hsb => h.apart S c n hb hj hsb hs
  · have htype : (m.act tid (.unlink S b n junk)).type c = m.type c :=
      m.type_cas_other b c _ junk _ hcb
    rw [htype]
    exact h.buffer c hc

theorem unlink_joined (R : Side) : (orient R (m.act tid (.unlink S b n junk)).chain).IsChain
    ((m.act tid (.unlink S b n junk)).Joined R) := by
  obtain ⟨hb, hj, hs⟩ := ha
  obtain ⟨rest, hrest, -, hnr⟩ := h.eq_add_of_sealed hb hj hs
  apply joined_both (S := S)
  rw [unlink_chain hrest hnr]
  have hall := h.joined S
  rw [hrest, orient_add, List.isChain_append] at hall
  apply hall.1.imp_of_mem_imp
  rintro x y - hy ⟨hxy, hyx⟩
  have hx : x ≠ b := by
    rintro rfl
    obtain rfl := hj.1.2.symm.trans hxy.2
    exact hnr (mem_orient.mp hy)
  exact ⟨unlink_isLink.mpr ⟨.inl hx, hxy⟩, unlink_isLink.mpr ⟨.inr (nearLink_ne_farLink S), hyx⟩⟩

theorem unlink_ends {c : Address}
    (hc : (orient R (m.act tid (.unlink S b n junk)).chain).getLast? = some c) :
    (m.act tid (.unlink S b n junk)).type c (farLink R) = farType R := by
  obtain ⟨hb, hj, hs⟩ := ha
  obtain ⟨rest, hrest, hbr, hnr⟩ := h.eq_add_of_sealed hb hj hs
  rw [unlink_chain hrest hnr] at hc
  rcases S.eq_or_eq_opposite R with rfl | rfl
  · have hall := h.joined R
    rw [hrest, orient_add, List.isChain_append] at hall
    have hcn := hall.2.2 c hc n (by simp)
    obtain rfl : b = c := hj.2.2.symm.trans hcn.2.2
    exact m.type_cas b _ junk _
  · have hc' : (orient S.opposite m.chain).getLast? = some c := by
      obtain ⟨x, l, hx⟩ := List.exists_cons_of_ne_nil
        (mt orient_eq_nil.mp (List.ne_nil_of_mem hbr) : orient S.opposite rest ≠ [])
      rw [hrest, orient_opposite, orient_add, List.reverse_append, List.reverse_singleton,
        List.singleton_append, ← orient_opposite, hx, List.getLast?_cons_cons, ← hx]
      exact hc
    rw [farLink_opposite, unlink_type (nearLink_ne_farLink S)]
    exact h.ends _ c hc'

/-- The buffer that was unlinked still links back to the one it was joined to. -/
theorem unlink_dead {l k : List Address}
    (hk : (m.act tid (.unlink S b n junk)).dead = l ++ d :: k) :
    ∃ R p, (m.act tid (.unlink S b n junk)).type d (farValue R) = .sealed ∧
      (m.act tid (.unlink S b n junk)).IsLink d (farLink R) p ∧
      (p ∈ (m.act tid (.unlink S b n junk)).chain ∨ p ∈ l) ∧
      ¬ (m.act tid (.unlink S b n junk)).IsLink p (nearLink R) d := by
  obtain ⟨hb, hj, hs⟩ := ha
  obtain ⟨rest, hrest, hbr, hnr⟩ := h.eq_add_of_sealed hb hj hs
  change n :: m.dead = l ++ d :: k at hk
  rw [unlink_chain hrest hnr]
  cases l with
  | nil =>
    obtain ⟨rfl, -⟩ := List.cons.inj hk
    refine ⟨S.opposite, b, ?_, ?_, .inl hbr, fun hl => ?_⟩
    · rwa [farValue_opposite, unlink_type ((inner_nearValue S).ne_farLink S)]
    · exact unlink_isLink.mpr ⟨.inr (nearLink_ne_farLink S), hj.2⟩
    · rw [nearLink_opposite] at hl
      exact (unlink_isLink.mp hl).1.elim (fun hne => hne rfl) fun hne => hne rfl
  | cons a l =>
    obtain ⟨rfl, hk'⟩ := List.cons.inj hk
    obtain ⟨R, p, hsd, hl, hp, hback⟩ := h.dead l d k hk'
    have hd : d ∈ m.dead := by
      rw [hk']
      simp
    have hdb : d ≠ b := by
      rintro rfl
      exact List.disjoint_of_nodup_append h.nodup (h.live_joined hb hj).1 hd
    refine ⟨R, p, ?_, unlink_isLink.mpr ⟨.inl hdb, hl⟩, ?_,
      fun hl' => hback (unlink_isLink.mp hl').2⟩
    · rwa [unlink_type ((inner_farValue R).ne_farLink S)]
    · rw [hrest, mem_add] at hp
      rw [List.mem_cons]
      tauto

end Fields

theorem unlink (h : Shape m) (ha : m.Allowed tid (.unlink S b n junk)) :
    Shape (m.act tid (.unlink S b n junk)) where
  nonempty := by
    obtain ⟨rest, hrest, hbr, hnr⟩ := h.eq_add_of_sealed ha.1 ha.2.1 ha.2.2
    rw [unlink_chain hrest hnr]
    exact List.ne_nil_of_mem hbr
  nodup := (h.unlink_perm ha).nodup_iff.mpr h.nodup
  owner c hc := h.owner c ((h.unlink_published ha).mp hc)
  cache := h.cache
  hint R := (h.unlink_published ha).mpr (h.hint R)
  buffer _ hc := h.unlink_buffer ha ((h.unlink_published ha).mp hc)
  target c R p hc hl := (h.unlink_published ha).mpr
    (h.target c R p ((h.unlink_published ha).mp hc) (unlink_isLink.mp hl).2)
  joined := h.unlink_joined ha
  ends _ _ hc := h.unlink_ends ha hc
  apart R c p hc hcp hs := by
    rw [unlink_type ((inner_farValue R).ne_farLink S)] at hs
    rw [unlink_type ((inner_nearValue R).ne_farLink S)]
    exact h.apart R c p ((h.unlink_published ha).mp hc)
      ⟨(unlink_isLink.mp hcp.1).2, (unlink_isLink.mp hcp.2).2⟩ hs
  dead _ _ _ hk := h.unlink_dead ha hk

end Unlink

/-- A store to a private buffer. -/
theorem store (h : Shape m) {x : Slot} {tid : τ} (ha : m.Allowed tid (.store n i x)) :
    Shape (m.act tid (.store n i x)) := by
  obtain ⟨S, ho⟩ := ha
  have hnp := h.not_published ho
  have hslot {c} (hc : m.Published c) (j) : (m.act tid (.store n i x)).slot c j = m.slot c j := by
    apply m.slot_set_ne
    exact .inl fun he => hnp (he ▸ hc)
  have htype {c} (hc : m.Published c) : (m.act tid (.store n i x)).type c = m.type c := by
    funext j
    rw [Memory.type, hslot hc, Memory.type]
  have hl : SameLinks m (m.act tid (.store n i x)) :=
    ⟨rfl, rfl, rfl, rfl, rfl, fun c hc R => by rw [htype hc, hslot hc]; exact ⟨rfl, rfl⟩⟩
  apply h.of_sameLinks hl
  · intro c hc
    rw [htype hc]
    exact h.buffer c hc
  · intro R c p hc hj
    have hp := h.target c R p hc hj.1
    rw [htype hc, htype hp]
    exact h.apart R c p hc hj
  · intro d hd R hs
    rwa [htype (.inr hd)]

theorem alloc (h : Shape m) {tid : τ} (ha : m.Allowed tid (.alloc S n)) :
    Shape (m.act tid (.alloc S n)) := by
  change m.owner n = .unused at ha
  have hown {c} (hc : c ≠ n) : (m.act tid (.alloc S n)).owner c = m.owner c :=
    Function.update_of_ne hc _ _
  refine ⟨h.nonempty, h.nodup, ?_, ?_, h.hint, h.buffer, h.target, h.joined, h.ends, h.apart,
    h.dead⟩
  · intro b hb
    have hb' := h.owner b hb
    rw [hown, hb']
    rintro rfl
    cases ha.symm.trans hb'
  · intro R k p hp
    have hp' := h.cache R k p hp
    rw [hown, hp']
    rintro rfl
    cases ha.symm.trans hp'

theorem setCache (h : Shape m) {tid : τ} (ha : m.Allowed tid (.cache S n)) :
    Shape (m.act tid (.cache S n)) := by
  refine ⟨h.nonempty, h.nodup, h.owner, ?_, h.hint, h.buffer, h.target, h.joined, h.ends, h.apart,
    h.dead⟩
  intro R k p hp
  by_cases hR : R = S
  · subst hR
    by_cases hk : k = tid
    · subst hk
      have hn : some n = some p := by simpa [Memory.act] using hp
      exact Option.some.inj hn ▸ ha
    · exact h.cache R k p (by simpa [Memory.act, hk] using hp)
  · exact h.cache R k p (by simpa [Memory.act, hR] using hp)

theorem setHint (h : Shape m) {x : Hint} {tid : τ} (ha : m.Allowed tid (.setHint S x)) :
    Shape (m.act tid (.setHint S x)) := by
  refine ⟨h.nonempty, h.nodup, h.owner, h.cache, ?_, h.buffer, h.target, h.joined, h.ends,
    h.apart, h.dead⟩
  intro R
  change m.Published (Function.update m.hint S x R).buffer
  by_cases hR : R = S
  · subst hR
    rw [Function.update_self]
    exact ha
  · rw [Function.update_of_ne hR]
    exact h.hint R

theorem act (h : Shape m) {tid : τ} {a : Action} (ha : m.Allowed tid a) :
    Shape (m.act tid a) := by
  cases a with
  | skip => exact h
  | casSafe b i => exact h.casSafe b i
  | push S b i w => exact h.push ha
  | append S b n => exact h.append ha
  | pop S b i junk => exact h.pop ha
  | «seal» S n junk => exact h.sealNear ha
  | unlink S b n junk => exact h.unlink ha
  | alloc S n => exact h.alloc ha
  | store n i x => exact h.store ha
  | cache S n => exact h.setCache ha
  | setLocalHint S b index => exact { h with }
  | setHint S x => exact h.setHint ha
  | retire n => exact { h with }

end Shape

variable [BufferSize]

theorem Shape.init (h : m.Init) : Shape m := by
  obtain ⟨b, hc, ho, -, hh, -, -, hl, hr⟩ := h.buffer
  have hsize := four_le_bufferSize
  have hok : BufferOk (m.type b) := .filled hl hr ⟨by omega, by omega⟩
  have hpub {c} : m.Published c ↔ c = b := by
    rw [Memory.Published, hc, h.dead]
    simp
  have hend (S : Side) : m.type b (farLink S) = farType S := by
    cases S with
    | left => exact hl 0 le_rfl (by omega)
    | right => exact hr _ (by simp only [farLink]; omega) (by simp only [farLink]; omega)
  have hnolink (S : Side) (n : Address) : ¬ m.IsLink b (farLink S) n := fun hn =>
    farType_ne_value S ((hend S).symm.trans hn.1)
  have horient (S : Side) : orient S m.chain = [b] := by
    rw [hc]
    cases S <;> rfl
  constructor
  · simp [hc]
  · simp [hc, h.dead]
  · intro c hc
    rw [hpub.mp hc, ho]
  · intro S tid n hn
    simp [h.cache] at hn
  · intro S
    rw [hpub, hh]
  · intro c hc
    rw [hpub.mp hc]
    exact hok
  · intro c S n hc hn
    exact absurd (hpub.mp hc ▸ hn) (hnolink S n)
  · intro S
    rw [horient]
    exact .singleton b
  · intro S c hc
    rw [horient] at hc
    obtain rfl : b = c := by simpa using hc
    exact hend S
  · intro S c n hc hj
    exact absurd (hpub.mp hc ▸ hj.1) (hnolink S n)
  · intro l d k hk
    simp [h.dead] at hk

end UnboundedDeque.OFDeque
