import UnboundedDeque.OFDequeFindEdge

/-!
# The search from an unlinked buffer

An unlinked buffer is sealed at one end and still holds the link beside it. The search
for an edge that begins there follows these links until it comes to a live buffer or to a
slot that looks like an edge. Where this slot is none, a hint leads astray.
-/
namespace UnboundedDeque.OFDeque
open StepMachine

section Astray

variable {τ : Type*} [BufferSize] {m : Memory τ} {S R : Side} {tid : τ}
  {call : Call Word} {b c n : Address} {i : ℤ} {f : Find} {k : LinkKind}
  {Q : Memory τ → Point → Prop} {V : Point → Prop} {hint : Hint}

/-- An unlinked buffer that is sealed at its end `R` and links to `n` there. -/
structure Memory.Stray (m : Memory τ) (R : Side) (b n : Address) : Prop where
  dead : b ∈ m.dead
  «sealed» : m.type b (farValue R) = .sealed
  link : m.IsLink b (farLink R) n

/-- The last slot for values of a buffer is taken for the edge of `S` by a search that
comes from a sealed neighbour. -/
def Memory.Shows (m : Memory τ) (S : Side) (n : Address) : Prop :=
  m.type n (farValue S) = nearType S ∨ m.type n (farValue S) = .value

/-- From a buffer the links of unlinked buffers lead to a slot that the search for the edge
of `S` takes for the edge, and that is none. -/
inductive Memory.Astray (m : Memory τ) (S : Side) : Address → Prop
  | far {b n : Address} (out : m.Stray S b n) (empty : m.type n (nearValue S) = farType S)
      (back : (m.slot n (nearLink S)).word ≠ b) : m.Astray S b
  | near {b n c : Address} (out : m.Stray S.opposite b n) (shows : m.Shows S n)
      (link : m.IsLink n (farLink S) c) (full : m.reads c (nearValue S) ≠ farType S) :
      m.Astray S b
  | farOn {b n : Address} (out : m.Stray S b n) (go : m.type n (nearValue S) ≠ farType S)
      (next : m.Astray S n) : m.Astray S b
  | nearOn {b n : Address} (out : m.Stray S.opposite b n) (go : ¬m.Shows S n)
      (next : m.Astray S n) : m.Astray S b

/-- The slot at which the search for the edge of `S` from a buffer ends. -/
inductive Memory.Finds (m : Memory τ) (S : Side) : Address → Address → ℤ → Prop
  | live {b c : Address} {i : ℤ} (live : b ∈ m.chain) (edge : m.EdgeAt S c i) : m.Finds S b c i
  | far {b n : Address} (out : m.Stray S b n) (empty : m.type n (nearValue S) = farType S) :
      m.Finds S b b (farValue S)
  | near {b n : Address} (out : m.Stray S.opposite b n) (shows : m.Shows S n) :
      m.Finds S b n (farValue S)
  | farOn {b n c : Address} {i : ℤ} (out : m.Stray S b n)
      (go : m.type n (nearValue S) ≠ farType S) (next : m.Finds S n c i) : m.Finds S b c i
  | nearOn {b n c : Address} {i : ℤ} (out : m.Stray S.opposite b n) (go : ¬m.Shows S n)
      (next : m.Finds S n c i) : m.Finds S b c i

section Stray

theorem Memory.Astray.dead (h : m.Astray S b) : b ∈ m.dead := by
  cases h with
  | far out => exact out.dead
  | near out => exact out.dead
  | farOn out => exact out.dead
  | nearOn out => exact out.dead

theorem Shape.exists_stray (h : Shape m) (hb : b ∈ m.dead) :
    ∃ R n, m.Stray R b n ∧ m.Published n ∧ m.rank n < m.rank b := by
  obtain ⟨l, k, hk⟩ := List.append_of_mem hb
  obtain ⟨R, n, hs, hl, -⟩ := h.dead l b k hk
  have hfollow : m.follow R b = some n := by
    rw [h.follow_of_sealed (.inr hb) hs, hl.2]
  exact ⟨R, n, ⟨hb, hs, hl⟩, follow_rank h (.inr hb) hfollow⟩

/-- All slots for values of an unlinked buffer are empty for the other end. -/
theorem Memory.Stray.reads (hx : m.Stray R b n) (h : Shape m) (hi : Inner i) :
    m.reads b i = nearType R := by
  have hs : (m.type b (nearValue R.opposite)).reads (nearValue R.opposite) =
      farType R.opposite := by
    rw [nearValue_opposite, hx.sealed, SlotType.reads_sealed_farValue]
    rfl
  exact (h.buffer b (.inr hx.dead)).reads_of_nearValue hs hi

theorem Memory.Stray.type (hx : m.Stray R b n) (h : Shape m) (hi : Inner i)
    (hne : i ≠ farValue R) : m.type b i = nearType R := by
  have hread : m.reads b i = nearType R := hx.reads h hi
  have hns : m.type b i ≠ .sealed := by
    intro hs
    obtain ⟨T, rfl⟩ := (h.buffer b (.inr hx.dead)).sealedAt i hi hs
    rcases R.eq_or_eq_opposite T with rfl | rfl
    · exact hne rfl
    · rw [Memory.reads_sealed_far hs, nearType_opposite] at hread
      exact farType_ne_nearType R hread
  rwa [Memory.reads_of_ne_sealed hns] at hread

/-- An unlinked buffer is sealed at one end. -/
theorem Memory.Stray.side_eq (hx : m.Stray R b n) (h : Shape m)
    (hs : m.type b (farValue S) = .sealed) : S = R := by
  by_contra hne
  have hv : farValue S ≠ farValue R := by
    rcases R.eq_or_eq_opposite S with rfl | rfl
    · exact absurd rfl hne
    · exact nearValue_ne_farValue R
  rw [hx.type h (inner_farValue S) hv] at hs
  exact nearType_ne_sealed R hs

theorem Memory.Stray.unique (hx : m.Stray R b n) (hy : m.Stray R b c) : n = c :=
  hx.link.2.symm.trans hy.link.2

theorem Memory.Stray.published (hx : m.Stray R b n) (h : Shape m) : m.Published n :=
  h.target b R n (.inr hx.dead) hx.link

end Stray

section Walk

variable [DecidableEq τ] (hV : ∀ p, p.finds = true → V p) (h : Shape m)
include hV h

/-- The walk in an unlinked buffer towards its sealed end. -/
theorem solo_stray_far (hx : m.Stray S f.buffer n) (hi : Inner i)
    (hgo : Solo tid S call V Q m (.findReserve f n .sealedFar)) :
    Solo tid S call V Q m (.findSlot f i) := by
  induction hk : ((farValue S - i) * farDirection S).toNat using Nat.strong_induction_on
    generalizing i with
  | _ k ih =>
    by_cases hv : i = farValue S
    · subst hv
      have hword : (m.slot f.buffer (farLink S)).word = n := hx.link.2
      refine solo_findSlot hV (findSwitch_sealedFar hx.sealed) (.skipVia hgo (fun _ => ?_) (hV _ rfl))
      rw [← hword]
      rfl
    · have ht : m.type f.buffer i = nearType S := hx.type h hi hv
      have hfar : (m.slot f.buffer i).type ≠ farType S := by
        rw [show (m.slot f.buffer i).type = nearType S from ht]
        exact (farType_ne_nearType S).symm
      have hsealed : (m.slot f.buffer i).type ≠ .sealed := by
        rw [show (m.slot f.buffer i).type = nearType S from ht]
        exact nearType_ne_sealed S
      have hnext : Inner (i + farDirection S) := (hi.near S).next hv
      have hpeek : m.type f.buffer (i + farDirection S) ≠ farType S := by
        intro hf
        have hread := hx.reads h hnext
        rw [Memory.reads_of_type hf] at hread
        exact farType_ne_nearType S hread
      refine solo_findSlot hV (findSwitch_peek hi hfar hsealed) ?_
      refine .skipVia (q := .findSlot f (i + farDirection S)) (ih _ ?_ hnext rfl)
        (fun _ => by simp only [OFDeque.next, if_neg hpeek]) (hV _ rfl)
      obtain ⟨h₁, h₂⟩ := hnext
      obtain ⟨h₃, h₄⟩ := hi
      rw [← hk]
      cases S <;> simp only [farValue, farDirection] at * <;> omega

/-- The walk in an unlinked buffer from its other end. -/
theorem solo_stray_near (hx : m.Stray S.opposite f.buffer n) (hi : Inner i)
    (hgo : Solo tid S call V Q m (.findReserve f n .sealedNear)) :
    Solo tid S call V Q m (.findSlot f i) := by
  induction hk : ((i - nearValue S) * farDirection S).toNat using Nat.strong_induction_on
    generalizing i with
  | _ k ih =>
    by_cases hv : i = nearValue S
    · subst hv
      have hword : (m.slot f.buffer (nearLink S)).word = n := hx.link.2
      refine solo_findSlot hV (findSwitch_sealedNear hx.sealed)
        (.skipVia hgo (fun _ => ?_) (hV _ rfl))
      rw [← hword]
      rfl
    · have ht : m.type f.buffer i = farType S := by
        rw [hx.type h hi hv, nearType_opposite]
      refine solo_findSlot hV (findSwitch_far hi ht) ?_
      have hprev : Inner (i - farDirection S) := (hi.prev S).resolve_left hv
      refine ih _ ?_ hprev rfl
      obtain ⟨h₁, h₂⟩ := hprev
      obtain ⟨h₃, h₄⟩ := hi
      rw [← hk]
      cases S <;> simp only [nearValue, Side.opposite, farValue, farDirection] at * <;> omega

/-- The search from any buffer, if the hint does not change. -/
theorem solo_search (hc : hint.count = (m.hint S).count) (hb : m.Published f.buffer)
    (hf : f.hint = hint)
    (hend : ∀ c i, m.Finds S f.buffer c i → Solo tid S call V Q m (.near hint c i)) :
    Solo tid S call V Q m (.findLocal f) := by
  induction hr : m.rank f.buffer using Nat.strong_induction_on generalizing f with
  | _ r ih =>
    rcases hb with hlive | hdead
    · exact solo_findEdge hV h.wellFormed h.sealedBeside hc
        (fun c i e => hend c i (.live hlive e)) hlive hf
    · obtain ⟨R, n, hx, hn, hlt⟩ := h.exists_stray hdead
      have hcount : ¬f.hint.count ≠ (m.hint S).count := by
        rw [hf, hc]
        exact not_not.mpr rfl
      have hvalidate {k : LinkKind}
          (hgo : Solo tid S call V Q m (.findNeighbor { f with hazSlot := !f.hazSlot } n k)) :
          Solo tid S call V Q m (.findReserve f n k) := by
        refine .skipVia (.skipVia hgo (fun _ => ?_) (hV _ rfl)) (fun _ => rfl) (hV _ rfl)
        simp only [OFDeque.next, if_neg hcount]
      have hnext (hend' : ∀ c i, m.Finds S n c i → m.Finds S f.buffer c i) (z : Bool) :
          Solo tid S call V Q m (.findLocal { f with hazSlot := z, buffer := n }) :=
        ih (m.rank n) (hr ▸ hlt) (f := { f with hazSlot := z, buffer := n }) hn hf
          (fun c i hci => hend c i (hend' c i hci)) rfl
      have hfound {k : LinkKind} {b : Address}
          (he : k.edge S f.buffer n (m.type n (k.probe S)) = some b)
          (hb : m.Finds S f.buffer b (farValue S)) :
          Solo tid S call V Q m (.findNeighbor { f with hazSlot := !f.hazSlot } n k) := by
        refine .skipVia (q := .near f.hint b (farValue S)) ?_ (fun _ => ?_) (hV _ rfl)
        · rw [hf]
          exact hend b _ hb
        · simp only [OFDeque.next, he]
      have hon {k : LinkKind} (he : k.edge S f.buffer n (m.type n (k.probe S)) = none)
          (hb : ∀ c i, m.Finds S n c i → m.Finds S f.buffer c i) :
          Solo tid S call V Q m (.findNeighbor { f with hazSlot := !f.hazSlot } n k) :=
        .skipVia (hnext hb (!f.hazSlot)) (fun _ => by simp only [OFDeque.next, he]) (hV _ rfl)
      refine .skipVia (q := .findSlot f (clamp (m.localHint S f.buffer))) ?_ (fun _ => rfl) (hV _ rfl)
      rcases S.eq_or_eq_opposite R with rfl | rfl
      · refine solo_stray_far hV h hx (clamp_inner _) (hvalidate ?_)
        by_cases he : m.type n (nearValue R) = farType R
        · exact hfound (if_pos he) (.far hx he)
        · exact hon (if_neg he) fun c i => .farOn hx he
      · refine solo_stray_near hV h hx (clamp_inner _) (hvalidate ?_)
        by_cases he : m.Shows S n
        · exact hfound (if_pos he) (.near hx he)
        · exact hon (if_neg he) fun c i => .nearOn hx he

end Walk

section Ends

/-- A slot from which a round alone gets on: the slot after it is empty, or the link after
it leads to a buffer that links back and is empty or sealed. -/
structure Memory.Passes (m : Memory τ) (S : Side) (b : Address) (i : ℤ) : Prop where
  published : m.Published b
  near : Near S i
  first : i = nearLink S → m.type b i = nearType S
  notFar : m.type b i ≠ farType S
  «sealed» : m.type b i = .sealed → i = farValue S
  inner : i ≠ farValue S → m.type b (i + farDirection S) = farType S
  last : i = farValue S → m.type b (farLink S) = farType S ∨
    ∃ n, m.IsLink b (farLink S) n ∧ (m.slot n (nearLink S)).word = b ∧
      (m.type n (nearValue S) = farType S ∨ m.type n (nearValue S) = .sealed)

/-- The last slot of a buffer from which no round gets on: it holds a link to a buffer that
does not link back or is neither empty nor sealed. -/
structure Memory.Stuck (m : Memory τ) (S : Side) (b n : Address) : Prop where
  notFar : m.type b (farValue S) ≠ farType S
  link : m.IsLink b (farLink S) n
  wrong : (m.slot n (nearLink S)).word ≠ b ∨ m.reads n (nearValue S) ≠ farType S

theorem Memory.Shows.not_far (hs : m.Shows S n) : m.type n (farValue S) ≠ farType S := by
  intro hf
  rcases hs with ht | ht
  · exact farType_ne_nearType S (hf.symm.trans ht)
  · exact farType_ne_value S (hf.symm.trans ht)

theorem Memory.Shows.not_sealed (hs : m.Shows S n) : m.type n (farValue S) ≠ .sealed := by
  intro hf
  rcases hs with ht | ht
  · exact nearType_ne_sealed S (ht.symm.trans hf)
  · cases ht.symm.trans hf

/-- A buffer that shows an edge is live. -/
theorem Memory.Shows.live (hs : m.Shows S n) (h : Shape m) (hn : m.Published n) : n ∈ m.chain := by
  rcases hn with hlive | hdead
  · exact hlive
  · exfalso
    obtain ⟨R, b, hx, -⟩ := h.exists_stray hdead
    rcases S.eq_or_eq_opposite R with rfl | rfl
    · exact hs.not_sealed hx.sealed
    · have ht : m.type n (farValue S) = nearType S.opposite :=
        hx.type h (inner_farValue S) (by
          rw [farValue_opposite]
          exact (nearValue_ne_farValue S).symm)
      rw [nearType_opposite] at ht
      exact hs.not_far ht

theorem reads_far_iff : m.reads b (nearValue S) = farType S ↔
    m.type b (nearValue S) = farType S ∨ m.type b (nearValue S) = .sealed := by
  constructor
  · intro hr
    by_cases hs : m.type b (nearValue S) = .sealed
    · exact .inr hs
    · rw [Memory.reads_of_ne_sealed hs] at hr
      exact .inl hr
  · rintro (ht | ht)
    · exact Memory.reads_of_type ht
    · exact Memory.reads_sealed_near ht

/-- A round gets on from an edge of the live chain. -/
theorem Memory.EdgeAt.passes (e : m.EdgeAt S b i) (h : Shape m) : m.Passes S b i where
  published := .inl e.live
  near := e.near
  first := e.first
  notFar ht := e.notFar (Memory.reads_of_type ht)
  «sealed» hs := by
    rcases e.near.cases with rfl | hi
    · exact absurd (hs.symm.trans (e.first rfl)) (nearType_ne_sealed S).symm
    · rcases h.wellFormed.sealed_index e.live hi hs S with hv | rfl
      · exact hv
      · exact absurd (Memory.reads_sealed_near hs) e.notFar
  inner := e.inner
  last hv := by
    rcases e.last hv with hf | ⟨n, hn, hj, hr⟩
    · exact .inl hf
    · exact .inr ⟨n, hj.1, hj.2.2, reads_far_iff.mp hr⟩

/-- Where no links lead astray, a round gets on from the slot the search ends at. -/
theorem Memory.Finds.passes (hf : m.Finds S b c i) (h : Shape m) (hb : ¬m.Astray S b) :
    m.Passes S c i := by
  induction hf with
  | live hlive edge => exact edge.passes h
  | @far b n hx empty =>
    have hback : (m.slot n (nearLink S)).word = b := by
      by_contra hne
      exact hb (.far hx empty hne)
    refine ⟨.inr hx.dead, (inner_farValue S).near S, fun he => absurd he.symm
      (nearLink_ne_farValue S), ?_, fun _ => rfl, fun hv => absurd rfl hv, fun _ => ?_⟩
    · rw [hx.sealed]
      exact (farType_ne_sealed S).symm
    · exact .inr ⟨n, hx.link, hback, .inl empty⟩
  | @near b n hx shows =>
    have hn : n ∈ m.chain := shows.live h (hx.published h)
    refine ⟨.inl hn, (inner_farValue S).near S, fun he => absurd he.symm
      (nearLink_ne_farValue S), shows.not_far, fun _ => rfl, fun hv => absurd rfl hv, fun _ => ?_⟩
    rcases (h.buffer n (.inl hn)).link S with ht | ht
    · exact .inl ht
    · have hl : m.IsLink n (farLink S) (m.slot n (farLink S)).word := ⟨ht, rfl⟩
      have hr : m.reads (m.slot n (farLink S)).word (nearValue S) = farType S := by
        by_contra hne
        exact hb (.near hx shows hl hne)
      exact .inr ⟨_, hl, (h.joined_of_link hn hl).2.2, reads_far_iff.mp hr⟩
  | farOn hx go next ih => exact ih fun hn => hb (.farOn hx go hn)
  | nearOn hx go next ih => exact ih fun hn => hb (.nearOn hx go hn)

/-- Where the links lead astray, no round gets on from the slot the search ends at. -/
theorem Memory.Finds.stuck (hf : m.Finds S b c i) (h : Shape m) (hb : m.Astray S b) :
    i = farValue S ∧ ∃ n, m.Stuck S c n := by
  have hside {b n n' : Address} (hx : m.Stray S b n) (hy : m.Stray S.opposite b n') : False :=
    S.opposite_ne (hx.side_eq h hy.sealed)
  induction hf with
  | live hlive edge => exact absurd hb.dead (not_dead_of_live h hlive)
  | @far b n hx empty =>
    refine ⟨rfl, n, ?_, hx.link, ?_⟩
    · rw [hx.sealed]
      exact (farType_ne_sealed S).symm
    · cases hb with
      | far hy empty back => exact .inl (hx.unique hy ▸ back)
      | near hy => exact (hside hx hy).elim
      | farOn hy go => exact absurd (hx.unique hy ▸ empty) go
      | nearOn hy => exact (hside hx hy).elim
  | @near b n hx shows =>
    cases hb with
    | far hy => exact (hside hy hx).elim
    | near hy shows' link full =>
      obtain rfl := hx.unique hy
      exact ⟨rfl, _, shows.not_far, link, .inr full⟩
    | farOn hy => exact (hside hy hx).elim
    | nearOn hy go => exact absurd (hx.unique hy ▸ shows) go
  | farOn hx go next ih =>
    cases hb with
    | far hy empty => exact absurd (hy.unique hx ▸ empty) go
    | near hy => exact (hside hx hy).elim
    | farOn hy go' next' => exact ih (hy.unique hx ▸ next')
    | nearOn hy => exact (hside hx hy).elim
  | nearOn hx go next ih =>
    cases hb with
    | far hy => exact (hside hy hx).elim
    | near hy shows => exact absurd (hy.unique hx ▸ shows) go
    | farOn hy => exact (hside hy hx).elim
    | nearOn hy go' next' => exact ih (hy.unique hx ▸ next')

/-- The link of a buffer sealed at the other end does not lead astray to a live buffer that
is the last one. -/
theorem not_astray_of_last (hopen : m.type b (farValue S) ≠ .sealed)
    (hword : (m.slot b (nearLink S)).word = n) (hend : m.type n (farLink S) ≠ .value)
    (hn : n ∉ m.dead) : ¬m.Astray S b := by
  intro h
  cases h with
  | far out => exact hopen out.sealed
  | near out shows link =>
    obtain rfl := out.link.2.symm.trans hword
    exact hend link.1
  | farOn out => exact hopen out.sealed
  | nearOn out go next =>
    obtain rfl := out.link.2.symm.trans hword
    exact hn next.dead

end Ends

end Astray
end UnboundedDeque.OFDeque
