import UnboundedDeque.OFDequeInvariant

/-!
# Every step keeps the invariant

First the points that only read: what the control flow tests gives the facts of
the next point. Then the two compare-exchanges of an attempt.
-/
namespace UnboundedDeque.OFDeque
open StepMachine

variable {τ : Type*} [BufferSize]

/-- The facts and the permit of a point. -/
def Point.Knows (m : Memory τ) (tid : τ) (S : Side) (call : Call Word) (pt : Point) : Prop :=
  pt.Facts m tid S call ∧ pt.Permit m S

variable {m : Memory τ} {S : Side} {tid : τ} {call : Call Word} {v : View} {n b : Address}
  {i : ℤ} {x reach : Slot}

section Control

theorem sealed_of_type (hok : BufferOk (m.type b)) (hi : Inner i) (hs : m.type b i = .sealed)
    (S : Side) : i = farValue S ∨ i = nearValue S := by
  obtain ⟨R, rfl⟩ := hok.sealedAt i hi hs
  rcases S.eq_or_eq_opposite R with rfl | rfl
  · exact .inl rfl
  · exact .inr rfl

theorem findSwitch_knows (h : Shape m) {f : Find} (hf : m.FindOk f) (h₀ : 0 ≤ i)
    (h₁ : i ≤ bufferSize - 1) :
    (findSwitch S f i (m.slot f.buffer i)).Knows m tid S call := by
  have hok := h.buffer _ hf.buffer
  have hback : i ≠ nearLink S → 0 ≤ i - farDirection S ∧ i - farDirection S ≤ bufferSize - 1 := by
    intro hne
    cases S <;> simp only [nearLink, Side.opposite, farLink, farDirection] at * <;> omega
  have hinner : i ≠ farLink S → i ≠ nearLink S → Inner i := fun hfar hnear =>
    (Near.cases ⟨h₀, h₁, hfar⟩).resolve_left hnear
  unfold findSwitch
  by_cases hfar : i = farLink S
  · rw [if_pos hfar]
    split_ifs with ht
    · exact ⟨⟨hf, hback (hfar ▸ (nearLink_ne_farLink S).symm)⟩, trivial⟩
    · subst hfar
      exact ⟨⟨hf, (h.link_of_ne hf.buffer ht).2⟩, trivial⟩
  rw [if_neg hfar]
  by_cases hnear : i = nearLink S
  · rw [if_pos hnear]
    split_ifs with ht hv
    · exact ⟨⟨hf, h₀, h₁, hfar⟩, trivial⟩
    · subst hnear
      exact ⟨⟨hf, (h.link_of_ne (S := S.opposite) hf.buffer ht).2⟩, trivial⟩
    · subst hnear
      exact absurd (hok.link S.opposite) (not_or.mpr ⟨ht, hv⟩)
  rw [if_neg hnear]
  split_ifs with ht hs hsf hsn
  · exact ⟨⟨hf, hback hnear⟩, trivial⟩
  · exact ⟨⟨hf, .inl ⟨rfl, hsf ▸ hs⟩⟩, trivial⟩
  · exact ⟨⟨hf, .inr ⟨rfl, hsn ▸ hs⟩⟩, trivial⟩
  · exact absurd (sealed_of_type hok (hinner hfar hnear) hs S) (not_or.mpr ⟨hsf, hsn⟩)
  · exact ⟨⟨hf, h₀, h₁, hfar⟩, trivial⟩

theorem clamp_inner (index : ℤ) : Inner (clamp index) := by
  have := four_le_bufferSize
  unfold clamp Inner
  split_ifs <;> omega

theorem Inner.range (h : Inner i) : 0 ≤ i ∧ i ≤ bufferSize - 1 := by
  obtain ⟨h₁, h₂⟩ := h
  omega

theorem Near.next_range (h : Near S i) :
    0 ≤ i + farDirection S ∧ i + farDirection S ≤ bufferSize - 1 := by
  obtain ⟨h₁, h₂, h₃⟩ := h
  cases S <;> simp only [farLink, farDirection] at * <;> omega

theorem popBoundary_knows (hv : m.BoundaryOk S v) (hc : call = .pop) :
    (popBoundary S v).Knows m tid S call := by
  unfold popBoundary
  split_ifs with hf hn
  · exact ⟨⟨hc, hv.toViewOk, hc, hv.atEnd, hf⟩, trivial⟩
  · exact ⟨⟨hv.toViewOk, ⟨hc, hv.atEnd, hf⟩, fun he => absurd he hn⟩, trivial⟩
  · exact ⟨trivial, trivial⟩

theorem afterRemove_knows (hv : m.BoundaryOk S v) : (afterRemove S call v).Knows m tid S call := by
  cases call with
  | push w => exact ⟨trivial, trivial⟩
  | pop => exact popBoundary_knows hv rfl

theorem popRemove_knows (hv : m.StraddleOk S v)
    (hs : reach.type = .sealed → m.SealedTo S v.buffer v.far.word) (hc : call = .pop) :
    (popRemove S v v.far.word reach).Knows m tid S call := by
  unfold popRemove
  split_ifs with hr hn
  · exact ⟨⟨hc, hv.toViewOk, hv.atEnd, hv.isLink, rfl, hv.neighbor, hs hr⟩, trivial⟩
  · exact ⟨⟨hv.toViewOk, ⟨hv.atEnd, hv.isLink, rfl, hv.neighbor, hs hr⟩, trivial⟩, trivial⟩
  · exact popBoundary_knows hv.toBoundaryOk hc

theorem popSeal_knows (hv : m.StraddleOk S v) (hr : m.Seen v.far.word (nearValue S) reach)
    (hs : reach.type = .sealed → m.SealedTo S v.buffer v.far.word) (hc : call = .pop) :
    (popSeal S v v.far.word reach).Knows m tid S call := by
  unfold popSeal
  split_ifs with ht hn
  · exact ⟨⟨hc, hv.toViewOk, hc, hv.atEnd, hv.isLink, rfl, hv.neighbor, hv.linked, hr, ht⟩,
      trivial⟩
  · exact ⟨⟨hv.toViewOk, ⟨hc, hv.atEnd, hv.isLink, rfl, hv.neighbor, hv.linked, hr, ht⟩,
      fun he => absurd he hn⟩, trivial⟩
  · exact popRemove_knows hv hs hc

theorem pushStraddle_knows (hv : m.StraddleOk S v)
    (hr : m.Seen v.far.word (nearValue S) reach)
    (hs : reach.type = .sealed → m.SealedTo S v.buffer v.far.word)
    (hc : ∃ w, call = .push w) :
    (pushStraddle S v v.far.word reach).Knows m tid S call := by
  unfold pushStraddle
  split_ifs with ht hse
  · exact ⟨⟨hv.toViewOk, ⟨hc, hv.atEnd, hv.neighbor, hr, ht⟩, trivial⟩, trivial⟩
  · exact ⟨⟨hv.toViewOk, ⟨hv.atEnd, hv.isLink, rfl, hv.neighbor, hs hse⟩, trivial⟩, trivial⟩
  · exact ⟨trivial, trivial⟩

/-- A sealed slot that was read is sealed still, and its link slot holds a link:
here the back pointer test is sound. -/
theorem sealedTo_of_back (h : Shape m) (hn : m.Published n)
    (hstill : m.type n (nearValue S) = .sealed) (hback : (m.slot n (nearLink S)).word = b) :
    m.SealedTo S b n :=
  ⟨hstill, (h.buffer n hn).sealedLink S.opposite hstill, hback⟩

/-- The far slot just read at the end of a buffer holds a link. -/
theorem straddleOk_of_fresh (h : Shape m) {hint : Hint}
    (hv : m.ViewOk S ⟨hint, b, i, x, m.slot b (i + farDirection S)⟩) (hi : i = farValue S)
    (ht : (m.slot b (i + farDirection S)).type ≠ farType S) :
    m.StraddleOk S ⟨hint, b, i, x, m.slot b (i + farDirection S)⟩ := by
  subst hi
  have hb := hv.buffer
  have ht' : m.type b (farLink S) ≠ farType S := by rwa [← farValue_add]
  obtain ⟨hl, hp⟩ := h.link_of_ne hb ht'
  rw [farValue_add] at hv ⊢
  exact ⟨⟨hv, rfl⟩, hl.1, .inl hl, hp⟩

theorem checkEdge_knows (h : Shape m) (hclean : ∀ n, m.cache S tid = some n → m.Clean S n)
    {hint : Hint} (hx : m.Published hint.buffer) (hb : m.Published b) (hi : Near S i)
    (hnear : m.Seen b i x) :
    (checkEdge S call (m.cache S tid)
      ⟨hint, b, i, x, m.slot b (i + farDirection S)⟩).Knows m tid S call := by
  unfold checkEdge
  split_ifs with h₁ h₂ h₃
  · exact ⟨trivial, trivial⟩
  · exact ⟨trivial, trivial⟩
  · exact ⟨trivial, trivial⟩
  obtain ⟨hne, hse⟩ := not_or.mp h₁
  have hv : m.ViewOk S ⟨hint, b, i, x, m.slot b (i + farDirection S)⟩ := by
    refine ⟨hx, hb, hi, hnear, m.seen_self _ _, hne, ?_, ?_, ?_⟩
    · intro hs
      by_contra hne'
      exact hse ⟨hs, hne'⟩
    · intro hne'
      have hfar : i + farDirection S ≠ farLink S := fun he =>
        (hi.next hne').ne_farLink S he
      by_contra ht
      exact h₂ ⟨hfar, ht⟩
    · intro hl
      by_contra ht
      exact h₃ ⟨hl, ht⟩
  cases call with
  | push w =>
    simp only [pushEdge]
    split_ifs with hi' ht
    · exact ⟨⟨hv, ⟨⟨w, rfl⟩, hi'⟩, trivial⟩, trivial⟩
    · have hap : m.AppendOk S (.push w) ⟨hint, b, i, x, m.slot b (i + farDirection S)⟩ :=
        ⟨⟨hv, not_not.mp hi'⟩, ht, w, rfl⟩
      cases hc : m.cache S tid with
      | none => exact ⟨hap, trivial⟩
      | some n => exact ⟨⟨hap, h.cache S tid n hc, hclean n hc⟩, trivial⟩
    · exact ⟨straddleOk_of_fresh h hv (not_not.mp hi') ht, trivial⟩
  | pop =>
    simp only [popEdge]
    split_ifs with hi' hn ht
    · exact ⟨⟨rfl, hv, rfl, hi'⟩, trivial⟩
    · exact ⟨⟨hv, ⟨rfl, hi'⟩, fun he => absurd he hn⟩, trivial⟩
    · exact ⟨straddleOk_of_fresh h hv (not_not.mp hi') ht, trivial⟩
    · exact popBoundary_knows ⟨hv, not_not.mp hi'⟩ rfl

theorem updDone_knows (hv : m.BoundaryOk S v) (R : Side) :
    (updDone v n R).Knows m tid S call := by
  cases R with
  | left => exact ⟨hv, trivial⟩
  | right => exact ⟨hv, trivial⟩

theorem updSealed_knows {u : Update} (hu : m.UpdateOk S v u) {n0 n1 : Slot}
    (h0 : n0.type = .sealed → m.type u.buffer 1 = .sealed)
    (h1 : n1.type = .sealed → m.type u.buffer (bufferSize - 2) = .sealed) :
    (updSealed v n u (sealedIndex n0 n1)).Knows m tid S call := by
  have hind : sealedIndex n0 n1 = -1 ∨
      ∃ R, sealedIndex n0 n1 = farValue R ∧ m.type u.buffer (farValue R) = .sealed := by
    unfold sealedIndex
    split_ifs with hs hs'
    · exact .inr ⟨.left, rfl, h0 hs⟩
    · exact .inr ⟨.right, rfl, h1 hs'⟩
    · exact .inl rfl
  have hfar (R : Side) : farValue R ≠ -1 := by
    have := inner_farValue R
    obtain ⟨h₁, -⟩ := this
    omega
  unfold updSealed
  cases hh : u.hazSlot with
  | none =>
    dsimp only
    split_ifs with hi ht
    · exact updDone_knows hu.toBoundaryOk u.side
    · exact ⟨hu, trivial⟩
    · exact ⟨{ hu with }, trivial⟩
  | some z =>
    dsimp only
    rcases hind with hi | ⟨R, hi, hs⟩
    · rw [if_pos hi]
      exact ⟨hu, trivial⟩
    · rw [hi, if_neg (hfar R)]
      rcases u.side.eq_or_eq_opposite R with rfl | rfl
      · rw [if_pos rfl]
        exact ⟨⟨hu, _, rfl, hs⟩, trivial⟩
      · rw [farValue_opposite, if_neg (nearValue_ne_farValue u.side), if_pos rfl]
        exact ⟨⟨hu, _, (farLink_opposite u.side).symm, hs⟩, trivial⟩

end Control

section Private

variable [DecidableEq τ] {w : Word} {k : ℕ}

theorem type_store (n : Address) (i : ℤ) (x : Slot) :
    (m.act tid (.store n i x)).type n i = x.type := by
  simp [Memory.type, Memory.act, Memory.set]

theorem type_store_ne (n : Address) (i : ℤ) (x : Slot) {j : ℤ} (hj : j ≠ i) :
    (m.act tid (.store n i x)).type n j = m.type n j :=
  congrArg Slot.type (m.slot_set_ne n n i j (.inr hj))

omit [DecidableEq τ] in
theorem nearLink_ne_nearValue (S : Side) : nearLink S ≠ nearValue S :=
  ((inner_nearValue S).ne_nearLink S).symm

/-- The prepared buffer after its two last stores. -/
theorem prepared_of_stores (hc : m.Clean S n) (hl : m.IsLink n (nearLink S) b) :
    (m.act tid (.store n (nearValue S) ⟨w, k, .value⟩)).Prepared S b n := by
  have hsize := four_le_bufferSize
  refine ⟨?_, type_store n _ _, ?_, fun i hi hne => ?_⟩
  · have hs : (m.act tid (.store n (nearValue S) ⟨w, k, .value⟩)).slot n (nearLink S) =
        m.slot n (nearLink S) := m.slot_set_ne n n _ _ (.inr (nearLink_ne_nearValue S))
    rw [Memory.IsLink, Memory.type, hs]
    exact hl
  · rw [type_store_ne _ _ _ ((inner_nearValue S).ne_farLink S).symm]
    have hr : 0 ≤ farLink S ∧ farLink S < bufferSize := by
      cases S <;> simp only [farLink] <;> omega
    exact hc _ hr.1 hr.2 (nearLink_ne_farLink S).symm ((inner_nearValue S).ne_farLink S).symm
  · rw [type_store_ne _ _ _ hne]
    obtain ⟨h₀, h₁⟩ := hi.range
    exact hc i h₀ (by omega) (hi.ne_nearLink S) hne

/-- The stores of `doPush` to a private buffer keep it clean. -/
theorem clean_store {j : ℤ} {x : Slot} (hc : m.Clean S n)
    (hj : j = nearLink S ∨ j = nearValue S ∨ x.type = farType S) :
    (m.act tid (.store n j x)).Clean S n := by
  intro i h₀ h₁ h₂ h₃
  by_cases hi : i = j
  · subst hi
    rw [type_store]
    exact (hj.resolve_left h₂).resolve_left h₃
  · rw [type_store_ne _ _ _ hi]
    exact hc i h₀ h₁ h₂ h₃

end Private

section Attempts

variable {k : Attempt} {c : Choice} {w : Word}

theorem Memory.ViewOk.countNear (hv : m.ViewOk S v)
    (hn : m.Seen v.buffer v.index v.countNear.near) : m.ViewOk S v.countNear :=
  { hv with near := hn }

theorem Memory.ViewOk.emptyFar (hv : m.ViewOk S v)
    (hf : m.Seen v.buffer (v.index + farDirection S) (v.emptyFar S).far) :
    m.ViewOk S (v.emptyFar S) :=
  { hv with
    far := hf
    inner := fun _ => rfl }

/-- A near slot that passed the check reads as not empty for `S`. -/
theorem Memory.ViewOk.reads_near (hv : m.ViewOk S v) :
    v.near.type.reads v.index ≠ farType S := by
  by_cases hs : v.near.type = .sealed
  · rw [hs, hv.sealed hs, SlotType.reads_sealed_farValue]
    exact (farType_ne_nearType S).symm
  · rw [SlotType.reads_of_ne hs]
    exact hv.notFar

/-- After the check for the empty deque a current near slot holds a value, or it
is sealed. -/
theorem Memory.ViewOk.near_value (hv : m.ViewOk S v)
    (hc : v.near.type = nearType S → m.Stale v.buffer v.index v.near)
    (hcur : m.slot v.buffer v.index = v.near) :
    v.near.type = .value ∨ v.near.type = .sealed := by
  rcases v.near.type.cases_side S with ht | ht | ht | ht
  · exact absurd ht hv.notFar
  · have hst := hc ht
    rw [Memory.Stale, hcur] at hst
    exact absurd hst (lt_irrefl _)
  · exact .inr ht
  · exact .inl ht

theorem Memory.ViewOk.index_inner (hv : m.ViewOk S v) (ht : v.near.type = .value) :
    Inner v.index := by
  rcases hv.index.cases with hi | hi
  · exact absurd (ht.symm.trans (hv.nearLink hi)) (nearType_ne_value S).symm
  · exact hi

variable [DecidableEq τ]

theorem slot_casSafe (m : Memory τ) (b : Address) (i : ℤ) :
    (m.act tid (.casSafe b i)).slot b i =
      ⟨(m.slot b i).word, (m.slot b i).count + 1, (m.slot b i).type⟩ :=
  m.slot_cas b i _ _

theorem type_casSafe (m : Memory τ) (b : Address) (i : ℤ) (c : Address) (j : ℤ) :
    (m.act tid (.casSafe b i)).type c j = m.type c j := by
  by_cases hc : c = b ∧ j = i
  · obtain ⟨rfl, rfl⟩ := hc
    rw [Memory.type, slot_casSafe, Memory.type]
  · exact m.type_cas_ne b c i j _ _ (not_and_or.mp hc)

theorem isLink_casSafe (m : Memory τ) (b : Address) (i : ℤ) (c : Address) (j : ℤ)
    (n : Address) : (m.act tid (.casSafe b i)).IsLink c j n ↔ m.IsLink c j n := by
  by_cases hc : c = b ∧ j = i
  · obtain ⟨rfl, rfl⟩ := hc
    rw [Memory.IsLink, type_casSafe, slot_casSafe, Memory.IsLink]
  · exact m.isLink_cas_ne b c n i j _ _ (not_and_or.mp hc)

/-- The permit of a seal: the near slot still holds a value, so its buffer is
live and joined with the buffer to be sealed unless that one is unlinked. -/
theorem sealPermit_of_casSafe (h : Shape m) (hv : m.ViewOk S v) (hn : m.Published n)
    (hi : v.index = farValue S) (hval : m.type v.buffer v.index = .value)
    (hl : m.Linked S v.buffer n) (hr : m.Seen n (nearValue S) reach)
    (hf : reach.type = farType S) :
    (m.act tid (.casSafe v.buffer v.index)).SealPermit S v.buffer n reach := by
  intro hcur
  have ha : m.Allowed tid (.casSafe v.buffer v.index) := hv.buffer
  have hslot := (h.later ha).slot_of_current hn hr hcur
  have hfar : m.type n (nearValue S) = farType S := by
    rw [hslot] at hcur
    rw [(hr.2 hcur).1, hf]
  have hnd : n ∉ m.dead := by
    intro hd
    have hlive := h.live_of_edge hn (inner_nearValue S) hfar (fun hne => absurd rfl hne)
    exact List.disjoint_of_nodup_append h.nodup hlive hd
  have hin := hi ▸ inner_farValue S
  have hj := h.joined_of_link (h.live_of_value hv.buffer hin hval) (hl.resolve_right hnd)
  refine ⟨⟨(isLink_casSafe m _ _ _ _ _).mpr hj.1, (isLink_casSafe m _ _ _ _ _).mpr hj.2⟩, ?_⟩
  rw [type_casSafe, ← hi, hval]
  decide

theorem seen_countNear (hcur : m.slot v.buffer v.index = v.near) :
    (m.act tid (.casSafe v.buffer v.index)).Seen v.buffer v.index v.countNear.near := by
  rw [Memory.Seen, Memory.type, slot_casSafe, hcur]
  exact ⟨le_rfl, fun _ => ⟨rfl, fun _ => rfl⟩⟩

/-- A successful `casSafe` secures the permit. -/
theorem casSafe_knows (h : Shape m) (hv : m.ViewOk S v) (hr : k.Ready m tid S call v)
    (hc : k.Checked m S v) {i : ℤ} {x : Slot} (hk : k.safe S v = (b, i, x))
    (hcur : m.slot b i = x) :
    m.Allowed tid (.casSafe b i) ∧
      (Point.effect v k).Knows (m.act tid (.casSafe b i)) tid S call := by
  have hb : m.Published b := by
    cases k <;> cases hk <;> exact hv.buffer
  have ha : m.Allowed tid (.casSafe b i) := hb
  have hl := h.later ha
  have hp : KeepsPrivate tid m (m.act tid (.casSafe b i)) := by
    intro n R ho
    have hne : n ≠ b := fun he => h.not_published ho (he ▸ hb)
    exact ⟨ho, funext fun j => m.slot_cas_ne b n i j _ _ (.inl hne)⟩
  have hr' := hr.later hl hp hv.buffer
  have hv' := hv.later hl
  have hc' := hc.later hl hv.buffer
  have hpush : b = v.buffer → i = v.index → m.slot v.buffer v.index = v.near →
      (m.act tid (.casSafe b i)).PushPermit S v.buffer v.index v.far := by
    intro _ _ hs _
    rw [Memory.reads, type_casSafe, Memory.type, hs]
    exact hv.reads_near
  have hpop : m.slot v.buffer (v.index + farDirection S) = v.far → v.far.type = farType S →
      (m.act tid (.casSafe b i)).PopPermit S v.buffer v.index v.near := by
    intro hs ht _
    rw [type_casSafe, Memory.type, hs]
    exact ht
  refine ⟨ha, ?_⟩
  cases k with
  | interiorPush =>
    obtain ⟨rfl, rfl, rfl⟩ := hk
    exact ⟨⟨hv', hr', hc', trivial⟩, hpush rfl rfl hcur⟩
  | append n =>
    obtain ⟨rfl, rfl, rfl⟩ := hk
    exact ⟨⟨hv', hr', hc', trivial⟩, hpush rfl rfl hcur⟩
  | straddle n reach => exact ⟨⟨hv', hr', hc', trivial⟩, trivial⟩
  | interiorPop =>
    obtain ⟨rfl, rfl, rfl⟩ := hk
    exact ⟨⟨hv', hr', hc', trivial⟩, hpop hcur (hv.inner hr.2)⟩
  | «seal» n reach =>
    obtain ⟨rfl, rfl, rfl⟩ := hk
    obtain ⟨-, hi, -, -, hn, hlk, hre, hf⟩ := hr
    have hval : v.near.type = .value := by
      rcases hv.near_value (fun ht => hc (.inl ht)) hcur with ht | ht
      · exact ht
      · have hst := hc (.inr ht)
        rw [Memory.Stale, hcur] at hst
        exact absurd hst (lt_irrefl _)
    have hval' : m.type v.buffer v.index = .value := by rw [Memory.type, hcur, hval]
    exact ⟨⟨hv', hr', hc', seen_countNear hcur⟩,
      sealPermit_of_casSafe h hv hn hi hval' hlk hre hf⟩
  | remove n =>
    obtain ⟨rfl, rfl, rfl⟩ := hk
    exact ⟨⟨hv', hr', hc', seen_countNear hcur⟩, trivial⟩
  | boundaryPop =>
    obtain ⟨rfl, rfl, rfl⟩ := hk
    exact ⟨⟨hv', hr', hc', trivial⟩, hpop hcur hr.2.2⟩

omit [DecidableEq τ] in
/-- With its permit an attempt does to the deque what its name says. -/
theorem effect_allowed (h : Shape m) (hv : m.ViewOk S v) (hr : k.Ready m tid S call v)
    (hc : k.Checked m S v) (hp : k.Permit m S v) {i : ℤ} {x : Slot}
    (hk : k.target S v = (b, i, x)) (hcur : m.slot b i = x) :
    m.Allowed tid (k.action S call v w) := by
  cases k with
  | interiorPush =>
    obtain ⟨rfl, rfl, rfl⟩ := hk
    refine ⟨hv.buffer, hv.index.next hr.2, ?_, fun _ => ?_⟩
    · rw [Memory.type, hcur, hv.inner hr.2]
    · rw [add_sub_cancel_right]
      exact hp (congrArg Slot.count hcur)
  | append n =>
    obtain ⟨rfl, rfl, rfl⟩ := hk
    obtain ⟨-, hi, hf, hprep, ho⟩ := hr
    have hreads := hp (congrArg Slot.count hcur)
    rw [hi] at hreads
    rw [hi, farValue_add] at hcur
    refine ⟨hv.buffer, by rw [Memory.type, hcur, hf], fun ht => hreads ?_, hprep, ho⟩
    rw [Memory.reads, ht, SlotType.reads_farType]
  | straddle n reach =>
    obtain ⟨rfl, rfl, rfl⟩ := hk
    obtain ⟨-, -, hn, -, hf⟩ := hr
    exact ⟨hn, inner_nearValue S, by rw [Memory.type, hcur, hf], fun hne => absurd rfl hne⟩
  | interiorPop =>
    obtain ⟨rfl, rfl, rfl⟩ := hk
    have hval : v.near.type = .value := by
      rcases hv.near_value hc hcur with ht | ht
      · exact ht
      · exact absurd (hv.sealed ht) hr.2
    exact ⟨hv.buffer, hv.index_inner hval, by rw [Memory.type, hcur, hval],
      hp (congrArg Slot.count hcur)⟩
  | «seal» n reach =>
    obtain ⟨rfl, rfl, rfl⟩ := hk
    obtain ⟨-, -, -, -, -, -, -, hf⟩ := hr
    obtain ⟨hj, hns⟩ := hp (congrArg Slot.count hcur)
    exact ⟨by rw [Memory.type, hcur, hf], v.buffer, hv.buffer, hj, hns⟩
  | remove n =>
    obtain ⟨rfl, rfl, rfl⟩ := hk
    obtain ⟨hi, ht, hw, -, hs⟩ := hr
    rw [hi, farValue_add] at hcur
    exact ⟨hv.buffer, ⟨⟨by rw [Memory.type, hcur, ht], by rw [hcur, hw]⟩, hs.2⟩, hs.1⟩
  | boundaryPop =>
    obtain ⟨rfl, rfl, rfl⟩ := hk
    have hfar := hp (congrArg Slot.count hcur)
    have hval : v.near.type = .value := by
      rcases hv.near_value hc hcur with ht | ht
      · exact ht
      · -- a sealed slot stands beside a link, which the permit excludes
        rw [hr.2.1, farValue_add] at hfar
        have hs : m.type v.buffer (farValue S) = .sealed := by
          rw [Memory.type, ← hr.2.1, hcur, ht]
        have hlink := (h.buffer _ hv.buffer).sealedLink S hs
        exact absurd (hfar.symm.trans hlink) (farType_ne_value S)
    exact ⟨hv.buffer, hv.index_inner hval, by rw [Memory.type, hcur, hval], hfar⟩

omit [DecidableEq τ] in
theorem unsafe_knows (hv : m.ViewOk S v) (hr : k.Ready m tid S call v) :
    (k.unsafeNext S call v).Knows m tid S call := by
  cases k with
  | «seal» n reach =>
    obtain ⟨hc, hi, hf, rfl, hn, hl, -, ht⟩ := hr
    exact popRemove_knows ⟨⟨hv, hi⟩, hf, hl, hn⟩
      (fun hs => absurd (ht.symm.trans hs) (farType_ne_sealed S)) hc
  | remove n => exact afterRemove_knows ⟨hv, hr.1⟩
  | _ => exact ⟨trivial, trivial⟩

omit [DecidableEq τ] in
theorem missed_knows (hf : (Point.effect v k).Facts m tid S call) :
    (k.missedNext S call v).Knows m tid S call := by
  obtain ⟨hv, hr, -, hn'⟩ := hf
  cases k with
  | «seal» n reach =>
    obtain ⟨hc, hi, hf, rfl, hn, hl, -, ht⟩ := hr
    exact popRemove_knows (v := v.countNear) ⟨⟨hv.countNear hn', hi⟩, hf, hl, hn⟩
      (fun hs => absurd (ht.symm.trans hs) (farType_ne_sealed S)) hc
  | remove n => exact afterRemove_knows ⟨hv.countNear hn', hr.1⟩
  | _ => exact ⟨trivial, trivial⟩

theorem done_knows (h : Shape m) (hf : (Point.effect v k).Facts m tid S call)
    (hp : k.Permit m S v) {i : ℤ} {x : Slot} (hk : k.target S v = (b, i, x))
    (hcur : m.slot b i = x) :
    (k.doneNext S v).Knows (m.act tid (k.action S call v w)) tid S call := by
  obtain ⟨hv, hr, hc, hn'⟩ := hf
  have ha := effect_allowed (w := w) h hv hr hc hp hk hcur
  have hl := h.later ha
  cases k with
  | interiorPush => exact ⟨trivial, trivial⟩
  | append n => exact ⟨.inl (mem_add.mpr (.inl rfl)), trivial⟩
  | straddle n reach => exact ⟨hl.published n hr.2.2.1, trivial⟩
  | interiorPop => exact ⟨trivial, trivial⟩
  | «seal» n reach =>
    obtain ⟨rfl, rfl, rfl⟩ := hk
    obtain ⟨hcall, hi, hfar, rfl, hn, hlk, -, -⟩ := hr
    have hj := (hp (congrArg Slot.count hcur)).1
    have hv' := (hv.countNear hn').later hl
    have hs : (m.act tid (.seal S v.far.word w)).SealedTo S v.buffer v.far.word :=
      ⟨m.type_cas _ _ w .sealed,
        (m.isLink_cas_ne _ _ _ _ _ w .sealed (.inr (nearLink_ne_nearValue S))).mpr hj.2⟩
    exact popRemove_knows (v := v.countNear) ⟨⟨hv', hi⟩, hfar, hl.linked_of hv.buffer hlk,
      hl.published _ hn⟩ (fun _ => hs) hcall
  | remove n =>
    obtain ⟨rfl, rfl, rfl⟩ := hk
    have hv' := (hv.countNear hn').later hl
    have hi := hr.1
    have hslot : (m.act tid (.unlink S v.buffer n w)).slot v.buffer (v.index + farDirection S) =
        ⟨w, v.far.count + 1, farType S⟩ := by
      rw [hi, farValue_add] at hcur ⊢
      rw [← hcur]
      exact m.slot_cas v.buffer (farLink S) w (farType S)
    have hseen : (m.act tid (.unlink S v.buffer n w)).Seen v.buffer
        (v.index + farDirection S) (v.countNear.emptyFar S).far := by
      rw [Memory.Seen, Memory.type, hslot]
      exact ⟨le_rfl, fun _ => ⟨rfl, fun ht => absurd ht (farType_ne_value S)⟩⟩
    exact ⟨⟨hv'.emptyFar hseen, hi⟩, trivial⟩
  | boundaryPop => exact ⟨hl.published _ hv.buffer, trivial⟩

end Attempts

section Next

variable {c : Choice} {a : Action} {pt : Point} {p : Option Point}

/-- The stores to private buffers keep them clean. -/
def Action.Tidy (m : Memory τ) (tid : τ) (S : Side) : Action → Prop
  | .store n i x => m.owner n = .thread S tid ∧
    (i = nearLink S ∨ i = nearValue S ∨ x.type = farType S)
  | .cache R n => R = S ∧ m.Clean S n
  | _ => True

variable [DecidableEq τ]

/-- The action is allowed and tidy, and the thread knows its next point after it. -/
def Action.Keeps (m : Memory τ) (tid : τ) (S : Side) (call : Call Word) (a : Action)
    (p : Option Point) : Prop :=
  m.Allowed tid a ∧ a.Tidy m tid S ∧ ∀ pt', p = some pt' → pt'.Knows (m.act tid a) tid S call

theorem skip_keeps (hk : pt.Knows m tid S call) : Action.skip.Keeps m tid S call (some pt) := by
  refine ⟨trivial, trivial, ?_⟩
  rintro _ ⟨⟩
  exact hk

theorem action_keeps (ha : m.Allowed tid a) (ht : a.Tidy m tid S)
    (hk : pt.Knows (m.act tid a) tid S call) : a.Keeps m tid S call (some pt) := by
  refine ⟨ha, ht, ?_⟩
  rintro _ ⟨⟩
  exact hk

theorem findSealed_keeps (h : Shape m) {f : Find} {k : LinkKind}
    (hf : (Point.findSealed f k).Facts m tid S call)
    (hn : next m c tid S call (.findSealed f k) = some (a, p)) : a.Keeps m tid S call p := by
  cases hn
  obtain ⟨hf, hs⟩ := hf
  have hlink (R : Side) (hs : m.type f.buffer (farValue R) = .sealed) :
      m.Published (m.slot f.buffer (farLink R)).word :=
    h.target _ R _ hf.buffer ⟨(h.buffer _ hf.buffer).sealedLink R hs, rfl⟩
  rcases hs with ⟨rfl, hs⟩ | ⟨rfl, hs⟩
  · exact skip_keeps ⟨⟨hf, hlink S hs⟩, trivial⟩
  · exact skip_keeps ⟨⟨hf, hlink S.opposite hs⟩, trivial⟩

theorem findNeighbor_keeps {f : Find} {n : Address} {k : LinkKind}
    (hf : (Point.findNeighbor f n k).Facts m tid S call)
    (hn : next m c tid S call (.findNeighbor f n k) = some (a, p)) : a.Keeps m tid S call p := by
  cases hn
  have hedge (d : Address) (he : k.edge S f.buffer n (m.type n (k.probe S)) = some d) :
      m.Published d := by
    have hd : d = f.buffer ∨ d = n := by
      cases k <;> simp only [LinkKind.edge] at he <;> split_ifs at he <;> simp_all
    rcases hd with rfl | rfl
    · exact hf.1.buffer
    · exact hf.2
  cases he : k.edge S f.buffer n (m.type n (k.probe S)) with
  | none => exact skip_keeps ⟨⟨hf.1.hint, hf.2⟩, trivial⟩
  | some d => exact skip_keeps ⟨⟨hf.1.hint, hedge d he, (inner_farValue S).near S⟩, trivial⟩

theorem alloc_keeps (h : Shape m) {v : View} (hf : (Point.alloc v).Facts m tid S call)
    (hn : next m c tid S call (.alloc v) = some (a, p)) : a.Keeps m tid S call p := by
  simp only [next] at hn
  split_ifs at hn with ho
  cases hn
  have ha : m.Allowed tid (.alloc S c.address) := ho
  exact action_keeps ho trivial
    ⟨⟨Memory.AppendOk.later (h.later ha) hf, Function.update_self _ _ _⟩, trivial⟩

theorem fill_keeps (h : Shape m) {v : View} {n : Address}
    (hf : (Point.fill v n i).Facts m tid S call)
    (hn : next m c tid S call (.fill v n i) = some (a, p)) : a.Keeps m tid S call p := by
  obtain ⟨hv, ho, hfill⟩ := hf
  simp only [next] at hn
  split_ifs at hn with hi
  · cases hn
    have ha : m.Allowed tid (.store n i ⟨c.junk, c.junkCount, farType S⟩) := ⟨S, ho⟩
    refine action_keeps ha ⟨ho, .inr (.inr rfl)⟩
      ⟨⟨hv.later (h.later ha), ho, fun j h₀ h₁ => ?_⟩, trivial⟩
    by_cases hj : j = i
    · rw [hj, type_store]
    · rw [type_store_ne _ _ _ hj]
      exact hfill j h₀ (by omega)
  · cases hn
    have hc : m.Clean S n := fun j h₀ h₁ _ _ => hfill j h₀ (by omega)
    have ha : m.Allowed tid (.cache S n) := ho
    exact action_keeps ho ⟨rfl, hc⟩ ⟨⟨hv.later (h.later ha), ho, hc⟩, trivial⟩

theorem insertLink_keeps (h : Shape m) {v : View} {n : Address}
    (hf : (Point.insertLink v n).Facts m tid S call)
    (hn : next m c tid S call (.insertLink v n) = some (a, p)) : a.Keeps m tid S call p := by
  cases hn
  obtain ⟨hv, ho, hc⟩ := hf
  have ha : m.Allowed tid (.store n (nearLink S) ⟨v.buffer, c.junkCount, .value⟩) := ⟨S, ho⟩
  have hlink : (m.act tid (.store n (nearLink S) ⟨v.buffer, c.junkCount, .value⟩)).IsLink n
      (nearLink S) v.buffer := by
    refine ⟨type_store n _ _, ?_⟩
    simp [Memory.act, Memory.set]
  exact action_keeps ha ⟨ho, .inl rfl⟩
    ⟨⟨hv.later (h.later ha), ho, clean_store hc (.inl rfl), hlink⟩, trivial⟩

theorem insertValue_keeps (h : Shape m) {v : View} {n : Address}
    (hf : (Point.insertValue v n).Facts m tid S call)
    (hn : next m c tid S call (.insertValue v n) = some (a, p)) : a.Keeps m tid S call p := by
  cases hn
  obtain ⟨hv, ho, hc, hlink⟩ := hf
  have ha : m.Allowed tid (.store n (nearValue S) ⟨pushedValue call, c.junkCount, .value⟩) :=
    ⟨S, ho⟩
  obtain ⟨w, rfl⟩ := hv.isPush
  have hword : ((m.act tid (.store n (nearValue S) ⟨w, c.junkCount, .value⟩)).slot n
      (nearValue S)).word = w := by
    simp [Memory.act, Memory.set]
  exact action_keeps ha ⟨ho, .inr (.inl rfl)⟩ ⟨⟨(hv.later (h.later ha)).toViewOk,
    ⟨⟨w, rfl, hword⟩, hv.atEnd, hv.isFar, prepared_of_stores hc hlink, ho⟩, trivial⟩, trivial⟩

theorem back_keeps (h : Shape m) {v : View} {x : Slot} (hf : (Point.back v x).Facts m tid S call)
    (hn : next m c tid S call (.back v x) = some (a, p)) : a.Keeps m tid S call p := by
  cases hn
  obtain ⟨hv, hx, hs⟩ := hf
  split_ifs with hw
  · exact skip_keeps ⟨trivial, trivial⟩
  · have hto (ht : x.type = .sealed) : m.SealedTo S v.buffer v.far.word :=
      sealedTo_of_back h hv.neighbor (hs ht) (not_not.mp hw)
    cases call with
    | push w => exact skip_keeps (pushStraddle_knows hv hx hto ⟨w, rfl⟩)
    | pop => exact skip_keeps (popSeal_knows hv hx hto rfl)

theorem recheck_keeps {v : View} {k : Attempt} (hf : (Point.recheck v k).Facts m tid S call)
    (hn : next m c tid S call (.recheck v k) = some (a, p)) : a.Keeps m tid S call p := by
  cases hn
  split_ifs with hc
  · exact skip_keeps ⟨trivial, trivial⟩
  · obtain ⟨-, hv, hr⟩ := hf
    have hst := hv.near.stale_of_ne hc
    refine skip_keeps ⟨⟨hv, hr, ?_⟩, trivial⟩
    cases k <;> first | trivial | exact fun _ => hst

theorem safe_keeps (h : Shape m) {v : View} {k : Attempt}
    (hf : (Point.safe v k).Facts m tid S call)
    (hn : next m c tid S call (.safe v k) = some (a, p)) : a.Keeps m tid S call p := by
  simp only [next] at hn
  split_ifs at hn with hc
  · cases hn
    obtain ⟨ha, hk⟩ := casSafe_knows h hf.1 hf.2.1 hf.2.2 rfl hc
    exact action_keeps ha trivial hk
  · cases hn
    exact skip_keeps (unsafe_knows hf.1 hf.2.1)

theorem effect_keeps (h : Shape m) {v : View} {k : Attempt}
    (hf : (Point.effect v k).Facts m tid S call) (hp : k.Permit m S v)
    (hn : next m c tid S call (.effect v k) = some (a, p)) : a.Keeps m tid S call p := by
  simp only [next] at hn
  split_ifs at hn with hc
  · cases hn
    have ha := effect_allowed (w := c.junk) h hf.1 hf.2.1 hf.2.2.1 hp rfl hc
    have ht : (k.action S call v c.junk).Tidy m tid S := by cases k <;> trivial
    exact action_keeps ha ht (done_knows h hf hp rfl hc)
  · cases hn
    exact skip_keeps (missed_knows hf)

theorem updLink_keeps (h : Shape m) {v : View} {n : Address} {u : Update}
    (hf : (Point.updLink v n u i).Facts m tid S call)
    (hn : next m c tid S call (.updLink v n u i) = some (a, p)) : a.Keeps m tid S call p := by
  cases hn
  obtain ⟨hu, R, rfl, hs⟩ := hf
  have hl := (h.buffer _ hu.updBuffer).sealedLink R hs
  exact skip_keeps ⟨⟨hu, h.target _ R _ hu.updBuffer ⟨hl, rfl⟩⟩, trivial⟩

theorem updCas_keeps (h : Shape m) {v : View} {n : Address} {u : Update}
    (hf : (Point.updCas v n u).Facts m tid S call)
    (hn : next m c tid S call (.updCas v n u) = some (a, p)) : a.Keeps m tid S call p := by
  have hu : m.UpdateOk S v u := hf
  simp only [next] at hn
  split_ifs at hn with hx
  · cases hn
    have ha : m.Allowed tid (.setHint u.side ⟨u.buffer, u.hint.count + 1⟩) := hu.updBuffer
    exact action_keeps ha trivial (updDone_knows (hu.toBoundaryOk.later (h.later ha)) u.side)
  · cases hn
    exact skip_keeps ⟨hu.toBoundaryOk, trivial⟩

/-- A step of a thread keeps its knowledge. -/
theorem next_knows (h : Shape m) (hclean : ∀ n, m.cache S tid = some n → m.Clean S n)
    (hk : pt.Knows m tid S call) (hn : next m c tid S call pt = some (a, p)) :
    m.Allowed tid a ∧ a.Tidy m tid S ∧
      ∀ pt', p = some pt' → pt'.Knows (m.act tid a) tid S call := by
  obtain ⟨hf, hp⟩ := hk
  cases pt with
  | hintLoad =>
    cases hn
    exact skip_keeps ⟨h.hint S, trivial⟩
  | hintReserve x =>
    cases hn
    exact skip_keeps ⟨hf, trivial⟩
  | hintCheck x =>
    cases hn
    split_ifs
    · exact skip_keeps ⟨⟨hf, hf⟩, trivial⟩
    · exact skip_keeps ⟨trivial, trivial⟩
  | findLocal f =>
    cases hn
    exact skip_keeps ⟨⟨hf, (clamp_inner _).range⟩, trivial⟩
  | findSlot f i =>
    cases hn
    exact skip_keeps (findSwitch_knows h hf.1 hf.2.1 hf.2.2)
  | findPeek f i =>
    cases hn
    split_ifs
    · exact skip_keeps ⟨⟨hf.1.hint, hf.1.buffer, hf.2⟩, trivial⟩
    · exact skip_keeps ⟨⟨hf.1, hf.2.next_range⟩, trivial⟩
  | findSealed f k => exact findSealed_keeps h hf hn
  | findReserve f n k =>
    cases hn
    exact skip_keeps ⟨⟨⟨hf.1.hint, hf.1.buffer⟩, hf.2⟩, trivial⟩
  | findValidate f n k =>
    cases hn
    split_ifs
    · exact skip_keeps ⟨trivial, trivial⟩
    · exact skip_keeps ⟨hf, trivial⟩
  | findNeighbor f n k => exact findNeighbor_keeps hf hn
  | failed => exact hf.elim
  | near x b i =>
    cases hn
    exact skip_keeps ⟨⟨hf.1, hf.2.1, hf.2.2, m.seen_self b i⟩, trivial⟩
  | far x b i y =>
    cases hn
    exact skip_keeps (checkEdge_knows h hclean hf.1 hf.2.1 hf.2.2.1 hf.2.2.2)
  | alloc v => exact alloc_keeps h hf hn
  | initLeft v n =>
    cases hn
    have ha : m.Allowed tid (.setLocalHint .left n (nearValue S)) := trivial
    exact action_keeps trivial trivial ⟨⟨hf.1.later (h.later ha), hf.2⟩, trivial⟩
  | initRight v n =>
    cases hn
    have ha : m.Allowed tid (.setLocalHint .right n (nearValue S)) := trivial
    exact action_keeps trivial trivial
      ⟨⟨hf.1.later (h.later ha), hf.2, fun j h₀ h₁ => absurd h₀ (by omega)⟩, trivial⟩
  | fill v n i => exact fill_keeps h hf hn
  | insertLink v n => exact insertLink_keeps h hf hn
  | insertValue v n => exact insertValue_keeps h hf hn
  | reach v =>
    cases hn
    exact skip_keeps ⟨⟨hf, m.seen_self _ _, id⟩, trivial⟩
  | back v x => exact back_keeps h hf hn
  | recheck v k => exact recheck_keeps hf hn
  | safe v k => exact safe_keeps h hf hn
  | effect v k => exact effect_keeps h hf hp hn
  | addLocal b d r =>
    cases hn
    exact action_keeps trivial trivial ⟨trivial, trivial⟩
  | casHint x b r =>
    simp only [next] at hn
    split_ifs at hn with hx
    · cases hn
      exact action_keeps (a := .setHint S ⟨b, x.count + 1⟩) hf trivial ⟨trivial, trivial⟩
    · cases hn
      exact skip_keeps ⟨trivial, trivial⟩
  | updThreshold v n R =>
    cases hn
    exact skip_keeps ⟨hf, trivial⟩
  | updLoad v n R t =>
    cases hn
    exact skip_keeps ⟨⟨hf, h.hint R, h.hint R⟩, trivial⟩
  | updFirst v n u =>
    cases hn
    exact skip_keeps ⟨⟨hf, id⟩, trivial⟩
  | updSecond v n u x =>
    cases hn
    exact skip_keeps ⟨⟨hf.1, hf.2, id⟩, trivial⟩
  | updThird v n u x y =>
    cases hn
    split_ifs
    · exact skip_keeps (updSealed_knows hf.1 hf.2.1 hf.2.2)
    · exact skip_keeps ⟨hf.1, trivial⟩
  | updLink v n u i => exact updLink_keeps h hf hn
  | updReserve v n u q =>
    cases hn
    exact skip_keeps ⟨⟨⟨hf.1.toBoundaryOk, hf.1.updHint, hf.1.updBuffer⟩, hf.2⟩, trivial⟩
  | updValidate v n u q =>
    cases hn
    split_ifs
    · exact skip_keeps ⟨hf.1.toBoundaryOk, trivial⟩
    · exact skip_keeps ⟨⟨hf.1.toBoundaryOk, hf.1.updHint, hf.2⟩, trivial⟩
  | updCas v n u => exact updCas_keeps h hf hn
  | retire v n =>
    cases hn
    have ha : m.Allowed tid (.retire n) := trivial
    have hl := h.later ha
    exact action_keeps trivial trivial (afterRemove_knows (Memory.BoundaryOk.later hl hf))
  | clearFirst r =>
    cases hn
    exact skip_keeps ⟨trivial, trivial⟩
  | clearSecond r =>
    cases hn
    refine ⟨trivial, trivial, ?_⟩
    rintro _ ⟨⟩

end Next

end UnboundedDeque.OFDeque
