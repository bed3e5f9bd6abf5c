import UnboundedDeque.OFDequeEdge
import UnboundedDeque.OFDequeRepresentation
import UnboundedDeque.OFDequeSolo

/-!
# `findEdge` run alone

From any index a walk in a buffer ends at an edge or leaves the buffer at one of its
ends. It does not come back through the slot it enters the next buffer by, so it goes
on in one direction until it is at the edge.
-/
namespace UnboundedDeque.OFDeque
open StepMachine

section Find

variable {τ : Type*} {m : Memory τ} {S R : Side} {tid : τ}
  {call : Call Word} {b n : Address} {i : ℤ} {k : LinkKind} {f : Find} {s t : State τ}
  {l r : List Address} {Q : Memory τ → Point → Prop} {V : Point → Prop} {hint : Hint}

/-- The points of `findEdge`. -/
def Point.finds : Point → Bool
  | .findLocal _ | .findSlot _ _ | .findPeek _ _ | .findSealed _ _ | .findReserve _ _ _
  | .findValidate _ _ _ | .findNeighbor _ _ _ => true
  | _ => false

variable [BufferSize]

/-- A sealed slot stands beside a link. -/
def Memory.SealedBeside (m : Memory τ) : Prop :=
  ∀ b ∈ m.chain, ∀ R, m.type b (farValue R) = .sealed → m.type b (farLink R) = .value

/-- The last slot for values towards `R` is such that the search for the edge of `S`
may leave the buffer there. -/
def Memory.Leaves (m : Memory τ) (S R : Side) (b : Address) : Prop :=
  m.reads b (farValue R) = farType S ↔ R ≠ S

/-- The search for the edge of `S` leaves a buffer towards `R`. -/
structure Memory.Exit (m : Memory τ) (S : Side) (b : Address) (R : Side) (n : Address)
    (k : LinkKind) : Prop where
  link : m.IsLink b (farLink R) n
  leaves : m.Leaves S R b
  kind : R = S ∧ (k = .farLink ∨ k = .sealedFar ∧ m.type b (farValue S) = .sealed) ∨
    R = S.opposite ∧ (k = .nearLink ∨ k = .sealedNear ∧ m.type b (nearValue S) = .sealed)

/-- The slot at an index as `findEdge` sees the edge: it is not empty, and the slot
after it, here or in the next buffer, is. -/
structure Memory.EdgeAt (m : Memory τ) (S : Side) (b : Address) (i : ℤ) : Prop where
  live : b ∈ m.chain
  near : Near S i
  first : i = nearLink S → m.type b i = nearType S
  notFar : m.reads b i ≠ farType S
  inner : i ≠ farValue S → m.type b (i + farDirection S) = farType S
  last : i = farValue S → m.type b (farLink S) = farType S ∨
    ∃ n ∈ m.chain, m.Joined S b n ∧ m.reads n (nearValue S) = farType S

omit [BufferSize] in
theorem Memory.reads_of_type (h : m.type b i = farType S) : m.reads b i = farType S := by
  rw [Memory.reads, h, SlotType.reads_farType]

omit [BufferSize] in
theorem Memory.reads_of_ne_sealed (h : m.type b i ≠ .sealed) : m.reads b i = m.type b i :=
  SlotType.reads_of_ne h i

theorem Memory.leaves_far : m.Leaves S S b ↔ m.reads b (farValue S) ≠ farType S := by
  simp [Memory.Leaves]

theorem Memory.leaves_near : m.Leaves S S.opposite b ↔ m.reads b (nearValue S) = farType S := by
  simp [Memory.Leaves, S.opposite_ne]

theorem Memory.reads_sealed_far (h : m.type b (farValue S) = .sealed) :
    m.reads b (farValue S) = nearType S := by
  rw [Memory.reads, h, SlotType.reads_sealed_farValue]

theorem Memory.reads_sealed_near (h : m.type b (nearValue S) = .sealed) :
    m.reads b (nearValue S) = farType S := by
  rw [Memory.reads, h, SlotType.reads_sealed_nearValue]

section Chain

variable (h : m.WellFormed)
include h

/-- The buffer after one in the direction of a side, if it is not the last. -/
theorem Memory.WellFormed.position (hb : orient R m.chain = l ++ b :: r) :
    (r = [] ∧ m.type b (farLink R) = farType R) ∨ ∃ c r', r = c :: r' ∧ m.Joined R b c := by
  cases r with
  | nil =>
    refine .inl ⟨rfl, h.ends R b ?_⟩
    rw [hb, List.getLast?_append, List.getLast?_singleton]
    rfl
  | cons c r =>
    have hj := h.joined R
    rw [hb, List.isChain_append, List.isChain_cons_cons] at hj
    exact .inr ⟨c, r, rfl, hj.2.1.1⟩

theorem Memory.WellFormed.last_of_far (hb : b ∈ m.chain) (hf : m.type b (farLink R) = farType R) :
    (orient R m.chain).getLast? = some b := by
  obtain ⟨l, r, hlr⟩ := List.append_of_mem (mem_orient.mpr hb : b ∈ orient R m.chain)
  rcases h.position hlr with ⟨rfl, -⟩ | ⟨c, r', -, hj⟩
  · rw [hlr, List.getLast?_append, List.getLast?_singleton]
    rfl
  · exact absurd (hf.symm.trans hj.1.1) (farType_ne_value R)

theorem Memory.WellFormed.link_type (hb : b ∈ m.chain) (R : Side) :
    m.type b (farLink R) = farType R ∨ m.type b (farLink R) = .value := by
  obtain ⟨l, r, hlr⟩ := List.append_of_mem (mem_orient.mpr hb : b ∈ orient R m.chain)
  rcases h.position hlr with ⟨-, hf⟩ | ⟨c, r', -, hj⟩
  · exact .inl hf
  · exact .inr hj.1.1

theorem Memory.WellFormed.sealed_index (hb : b ∈ m.chain) (hi : Inner i)
    (hs : m.type b i = .sealed) (S : Side) : i = farValue S ∨ i = nearValue S := by
  obtain ⟨R, rfl, -⟩ := h.sealed b hb i hi hs
  rcases S.eq_or_eq_opposite R with rfl | rfl
  · exact .inr rfl
  · exact .inl (nearValue_opposite S)

/-- What `findEdge` has seen shows an edge. -/
theorem Memory.EdgeAt.isEdge (e : m.EdgeAt S b i) : m.IsEdge S b i := by
  by_cases hv : i = farValue S
  · subst hv
    rcases e.last rfl with hf | ⟨n, -, hj, hn⟩
    · refine h.isEdge (next_last (h.last_of_far e.live hf)) e.notFar ?_
      exact Memory.reads_of_type hf
    · obtain ⟨l, r, hl⟩ := List.append_of_mem (mem_orient.mpr e.live : b ∈ orient S m.chain)
      rcases h.position hl with ⟨-, hf⟩ | ⟨c, r', rfl, hc⟩
      · exact absurd (hf.symm.trans hj.1.1) (farType_ne_value S)
      · obtain rfl : c = n := hc.1.2.symm.trans hj.1.2
        exact h.isEdge (q := (c, nearValue S)) (next_joined hl) e.notFar hn
  · have hfar : m.readsAt (b, i + farDirection S) = farType S := Memory.reads_of_type (e.inner hv)
    refine h.isEdge (q := (b, i + farDirection S)) ?_ e.notFar hfar
    rcases e.near.cases with rfl | hin
    · rw [nearLink_add]
      exact next_first (h.last_of_far (R := S.opposite) e.live (e.first rfl))
    · exact next_inner e.live hin (e.near.next hv)

omit h in
/-- A slot in front of an empty one of its buffer is an edge. -/
theorem Memory.EdgeAt.of_peek (hb : b ∈ m.chain) (hi : Near S i)
    (hl : i = nearLink S → m.type b i = nearType S) (hn : m.reads b i ≠ farType S)
    (hf : m.type b (i + farDirection S) = farType S) : m.EdgeAt S b i where
  live := hb
  near := hi
  first := hl
  notFar := hn
  inner _ := hf
  last hv := .inl (by rwa [hv, farValue_add] at hf)

/-- An edge between two buffers. -/
theorem Memory.EdgeAt.of_joined {l r : List Address} (hl : orient S m.chain = l ++ b :: n :: r)
    (hb : m.reads b (farValue S) ≠ farType S) (hn : m.reads n (nearValue S) = farType S) :
    m.EdgeAt S b (farValue S) where
  live := mem_orient.mp (by rw [hl]; simp : b ∈ orient S m.chain)
  near := (inner_farValue S).near S
  first he := absurd he.symm (nearLink_ne_farValue S)
  notFar := hb
  inner hv := absurd rfl hv
  last _ := by
    have hj := h.joined S
    rw [hl, List.isChain_append, List.isChain_cons_cons] at hj
    exact .inr ⟨n, mem_orient.mp (by rw [hl]; simp : n ∈ orient S m.chain), hj.2.1.1, hn⟩

end Chain

section Switch

variable {x : Slot}

theorem findSwitch_far (hi : Inner i) (hx : x.type = farType S) :
    findSwitch S f i x = .findSlot f (i - farDirection S) := by
  simp [findSwitch, hi.ne_farLink, hi.ne_nearLink, hx]

theorem findSwitch_sealedFar (hx : x.type = .sealed) :
    findSwitch S f (farValue S) x = .findSealed f .sealedFar := by
  have hi := inner_farValue S
  simp [findSwitch, hi.ne_farLink, hi.ne_nearLink, hx, (farType_ne_sealed S).symm]

theorem findSwitch_sealedNear (hx : x.type = .sealed) :
    findSwitch S f (nearValue S) x = .findSealed f .sealedNear := by
  have hi := inner_nearValue S
  simp [findSwitch, hi.ne_farLink, hi.ne_nearLink, hx, (farType_ne_sealed S).symm,
    nearValue_ne_farValue]

theorem findSwitch_peek (hi : Inner i) (hf : x.type ≠ farType S) (hx : x.type ≠ .sealed) :
    findSwitch S f i x = .findPeek f i := by
  simp [findSwitch, hi.ne_farLink, hi.ne_nearLink, hf, hx]

theorem findSwitch_farLink (hx : x.type = .value) :
    findSwitch S f (farLink S) x = .findReserve f x.word .farLink := by
  simp [findSwitch, hx, (farType_ne_value S).symm]

theorem findSwitch_nearLink_near (hx : x.type = nearType S) :
    findSwitch S f (nearLink S) x = .findPeek f (nearLink S) := by
  simp [findSwitch, nearLink_ne_farLink, hx]

theorem findSwitch_nearLink_value (hx : x.type = .value) :
    findSwitch S f (nearLink S) x = .findReserve f x.word .nearLink := by
  simp [findSwitch, nearLink_ne_farLink, hx, (nearType_ne_value S).symm]

end Switch

section Walk

variable [DecidableEq τ] (hV : ∀ p, p.finds = true → V p) (h : m.WellFormed) (hs : m.SealedBeside)
  (hb : f.buffer ∈ m.chain)
  (hedge : ∀ b i, m.EdgeAt S b i → Solo tid S call V Q m (.near f.hint b i))
  (hexit : ∀ R n k, m.Exit S f.buffer R n k → Solo tid S call V Q m (.findReserve f n k))

include hV in
/-- A load of `findEdge` and the switch on it. -/
theorem solo_findSlot {p : Point} (hp : findSwitch S f i (m.slot f.buffer i) = p)
    (hq : Solo tid S call V Q m p) : Solo tid S call V Q m (.findSlot f i) :=
  .skipVia hq (fun _ => by rw [OFDeque.next, hp]) (hV _ rfl)

include hV h hs hb hexit in
/-- A sealed slot leads out of its buffer. -/
theorem solo_sealed (hi : Inner i) (hsi : m.type f.buffer i = .sealed) :
    Solo tid S call V Q m (.findSlot f i) := by
  rcases h.sealed_index hb hi hsi S with rfl | rfl
  · apply solo_findSlot hV (findSwitch_sealedFar hsi)
    refine .skipVia (hexit S (m.slot f.buffer (farLink S)).word .sealedFar
      ⟨⟨hs _ hb S hsi, rfl⟩, ?_, .inl ⟨rfl, .inr ⟨rfl, hsi⟩⟩⟩) (fun _ => rfl) (hV _ rfl)
    rw [Memory.leaves_far, Memory.reads_sealed_far hsi]
    exact (farType_ne_nearType S).symm
  · apply solo_findSlot hV (findSwitch_sealedNear hsi)
    refine .skipVia (hexit S.opposite (m.slot f.buffer (nearLink S)).word .sealedNear
      ⟨⟨hs _ hb S.opposite hsi, rfl⟩, ?_, .inr ⟨rfl, .inr ⟨rfl, hsi⟩⟩⟩) (fun _ => rfl) (hV _ rfl)
    rw [Memory.leaves_near, Memory.reads_sealed_near hsi]

include hV h hs hb hedge hexit

/-- The walk towards the side, from a slot that is not empty for it. -/
theorem solo_findPeek (hi : Near S i) (hl : i = nearLink S → m.type f.buffer i = nearType S)
    (hn : m.reads f.buffer i ≠ farType S) : Solo tid S call V Q m (.findPeek f i) := by
  induction hk : ((farValue S - i) * farDirection S).toNat using Nat.strong_induction_on
    generalizing i with
  | _ k ih =>
    by_cases hf : m.type f.buffer (i + farDirection S) = farType S
    · refine .skipVia (hedge _ _ (.of_peek hb hi hl hn hf)) (fun _ => ?_) (hV _ rfl)
      simp only [OFDeque.next, if_pos hf]
    · refine .skipVia (q := .findSlot f (i + farDirection S)) ?_
        (fun _ => by simp only [OFDeque.next, if_neg hf]) (hV _ rfl)
      by_cases hv : i = farValue S
      · subst hv
        rw [farValue_add] at hf ⊢
        have hlink := (h.link_type hb S).resolve_left hf
        exact solo_findSlot hV (findSwitch_farLink hlink)
          (hexit S _ _ ⟨⟨hlink, rfl⟩, Memory.leaves_far.mpr hn, .inl ⟨rfl, .inl rfl⟩⟩)
      · have hin := hi.next hv
        by_cases hsi : m.type f.buffer (i + farDirection S) = .sealed
        · exact solo_sealed hV h hs hb hexit hin hsi
        · apply solo_findSlot hV (findSwitch_peek hin hf hsi)
          refine ih _ ?_ (hin.near S) (fun he => absurd he (hin.ne_nearLink S)) ?_ rfl
          · obtain ⟨h₁, h₂⟩ := hin
            obtain ⟨h₃, h₄, -⟩ := hi
            rw [← hk]
            cases S <;> simp only [farValue, farDirection] at * <;> omega
          · rwa [Memory.reads_of_ne_sealed hsi]

/-- The walk in a buffer from any slot for values. -/
theorem solo_walk (hi : Inner i) : Solo tid S call V Q m (.findSlot f i) := by
  induction hk : ((i - nearValue S) * farDirection S).toNat using Nat.strong_induction_on
    generalizing i with
  | _ k ih =>
    by_cases hsi : m.type f.buffer i = .sealed
    · exact solo_sealed hV h hs hb hexit hi hsi
    · by_cases hf : m.type f.buffer i = farType S
      · apply solo_findSlot hV (findSwitch_far hi hf)
        rcases hi.prev S with rfl | hprev
        · have hlink : nearValue S - farDirection S = nearLink S := by
            rw [← nearLink_add, add_sub_cancel_right]
          rw [hlink]
          rcases h.link_type hb S.opposite with ht | ht
          · rw [farLink_opposite, farType_opposite] at ht
            apply solo_findSlot hV (findSwitch_nearLink_near ht)
            refine solo_findPeek hV h hs hb hedge hexit (near_nearLink S) (fun _ => ht) ?_
            rw [Memory.reads_of_ne_sealed (by rw [ht]; exact nearType_ne_sealed S), ht]
            exact (farType_ne_nearType S).symm
          · exact solo_findSlot hV (findSwitch_nearLink_value ht) (hexit S.opposite _ _
              ⟨⟨ht, rfl⟩, Memory.leaves_near.mpr (Memory.reads_of_type hf), .inr ⟨rfl, .inl rfl⟩⟩)
        · refine ih _ ?_ hprev rfl
          obtain ⟨h₁, h₂⟩ := hprev
          obtain ⟨h₃, h₄⟩ := hi
          rw [← hk]
          cases S <;> simp only [nearValue, Side.opposite, farValue, farDirection] at * <;> omega
      · apply solo_findSlot hV (findSwitch_peek hi hf hsi)
        refine solo_findPeek hV h hs hb hedge hexit (hi.near S)
          (fun he => absurd he (hi.ne_nearLink S)) ?_
        rwa [Memory.reads_of_ne_sealed hsi]

end Walk

section Jump

variable [DecidableEq τ] (hV : ∀ p, p.finds = true → V p) (h : m.WellFormed)
  (hc : f.hint.count = (m.hint S).count)
  (hedge : ∀ b i, m.EdgeAt S b i → Solo tid S call V Q m (.near f.hint b i))
include hV h hc hedge

/-- The step into the next buffer finds the edge between the two, or the search cannot
leave the next one where it has entered it. -/
theorem solo_findReserve (hl : orient R m.chain = l ++ f.buffer :: n :: r)
    (hx : m.Exit S f.buffer R n k)
    (hgo : ∀ z, ¬m.Leaves S R.opposite n →
      Solo tid S call V Q m (.findLocal { f with hazSlot := z, buffer := n })) :
    Solo tid S call V Q m (.findReserve f n k) := by
  refine .skipVia (q := .findValidate { f with hazSlot := !f.hazSlot } n k) ?_ (fun _ => rfl)
    (hV _ rfl)
  refine .skipVia (q := .findNeighbor { f with hazSlot := !f.hazSlot } n k) ?_
    (fun _ => by simp only [OFDeque.next, hc, ne_eq, not_true, if_false]) (hV _ rfl)
  have hapart : m.type f.buffer (farValue R) = .sealed → m.type n (nearValue R) ≠ .sealed := by
    have ha := h.apart R
    rw [hl, List.isChain_append, List.isChain_cons_cons] at ha
    exact ha.2.1.1
  have hfound {b : Address} (he : k.edge S f.buffer n (m.type n (k.probe S)) = some b)
      (hb : m.EdgeAt S b (farValue S)) :
      Solo tid S call V Q m (.findNeighbor { f with hazSlot := !f.hazSlot } n k) :=
    .skipVia (hedge b _ hb) (fun _ => by simp only [OFDeque.next, he]) (hV _ rfl)
  have hon (he : k.edge S f.buffer n (m.type n (k.probe S)) = none)
      (hn : ¬m.Leaves S R.opposite n) :
      Solo tid S call V Q m (.findNeighbor { f with hazSlot := !f.hazSlot } n k) :=
    .skipVia (hgo (!f.hazSlot) hn) (fun _ => by simp only [OFDeque.next, he]) (hV _ rfl)
  rcases hx.kind with ⟨rfl, hk⟩ | ⟨rfl, hk⟩
  · have hnot := Memory.leaves_far.mp hx.leaves
    have hedge' (hr : m.reads n (nearValue R) = farType R) : m.EdgeAt R f.buffer (farValue R) :=
      .of_joined h hl hnot hr
    have hgo' (hr : m.reads n (nearValue R) ≠ farType R) : ¬m.Leaves R R.opposite n := by
      rwa [Memory.leaves_near]
    rcases hk with rfl | ⟨rfl, hsf⟩
    · by_cases ht : m.type n (nearValue R) = farType R ∨ m.type n (nearValue R) = .sealed
      · refine hfound (b := f.buffer) (if_pos ht) (hedge' ?_)
        rcases ht with ht | ht
        · exact Memory.reads_of_type ht
        · exact Memory.reads_sealed_near ht
      · refine hon (if_neg ht) (hgo' ?_)
        obtain ⟨h₁, h₂⟩ := not_or.mp ht
        rwa [Memory.reads_of_ne_sealed h₂]
    · by_cases ht : m.type n (nearValue R) = farType R
      · exact hfound (b := f.buffer) (if_pos ht) (hedge' (Memory.reads_of_type ht))
      · refine hon (if_neg ht) (hgo' ?_)
        rwa [Memory.reads_of_ne_sealed (hapart hsf)]
  · have hfar := Memory.leaves_near.mp hx.leaves
    have hl' : orient S m.chain = r.reverse ++ n :: f.buffer :: l.reverse := by
      rw [← S.opposite_opposite, orient_opposite, hl]
      simp
    have hedge' (hr : m.reads n (farValue S) ≠ farType S) : m.EdgeAt S n (farValue S) :=
      .of_joined h hl' hr hfar
    have hgo' (ht : m.type n (farValue S) = farType S) : ¬m.Leaves S S.opposite.opposite n := by
      rw [S.opposite_opposite, Memory.leaves_far, not_not]
      exact Memory.reads_of_type ht
    rcases hk with rfl | ⟨rfl, hsn⟩
    · by_cases ht : m.type n (farValue S) = farType S
      · exact hon (if_neg (not_not.mpr ht)) (hgo' ht)
      · refine hfound (b := n) (if_pos ht) (hedge' fun hr => ht ?_)
        exact SlotType.eq_farType_of_reads hr
    · have hns : m.type n (farValue S) ≠ .sealed := by
        have := hapart hsn
        rwa [nearValue_opposite] at this
      by_cases ht : m.type n (farValue S) = nearType S ∨ m.type n (farValue S) = .value
      · refine hfound (b := n) (if_pos ht) (hedge' fun hr => ?_)
        rw [SlotType.eq_farType_of_reads hr] at ht
        exact ht.elim (farType_ne_nearType S) (farType_ne_value S)
      · refine hon (if_neg ht) (hgo' ?_)
        rcases SlotType.cases_side S (m.type n (farValue S)) with hT | hT | hT | hT
        · exact hT
        · exact absurd (.inl hT) ht
        · exact absurd hT hns
        · exact absurd (.inr hT) ht

end Jump

section Search

variable [DecidableEq τ] (hV : ∀ p, p.finds = true → V p) (h : m.WellFormed) (hs : m.SealedBeside)
  (hc : hint.count = (m.hint S).count)
  (hedge : ∀ b i, m.EdgeAt S b i → Solo tid S call V Q m (.near hint b i))
include hV h hs hc hedge

/-- The search goes on towards a side it cannot come back from. -/
theorem solo_findLocal (hl : orient R m.chain = l ++ f.buffer :: r) (hf : f.hint = hint)
    (hin : ¬m.Leaves S R.opposite f.buffer) : Solo tid S call V Q m (.findLocal f) := by
  induction r generalizing l f with
  | nil =>
    have hb : f.buffer ∈ m.chain :=
      mem_orient.mp (by rw [hl]; simp : f.buffer ∈ orient R m.chain)
    refine .skipVia (solo_walk hV h hs hb (hf ▸ hedge) (fun R' n k hx => ?_) (clamp_inner _))
      (fun _ => rfl) (hV _ rfl)
    rcases R.eq_or_eq_opposite R' with rfl | rfl
    · rcases h.position hl with ⟨-, ht⟩ | ⟨c, r', hr, -⟩
      · exact absurd (ht.symm.trans hx.link.1) (farType_ne_value R')
      · cases hr
    · exact absurd hx.leaves hin
  | cons c r ih =>
    have hb : f.buffer ∈ m.chain :=
      mem_orient.mp (by rw [hl]; simp : f.buffer ∈ orient R m.chain)
    refine .skipVia (solo_walk hV h hs hb (hf ▸ hedge) (fun R' n k hx => ?_) (clamp_inner _))
      (fun _ => rfl) (hV _ rfl)
    rcases R.eq_or_eq_opposite R' with rfl | rfl
    · rcases h.position hl with ⟨hr, -⟩ | ⟨c', r', hr, hj⟩
      · cases hr
      · obtain ⟨rfl, rfl⟩ := List.cons.inj hr
        obtain rfl : c = n := hj.1.2.symm.trans hx.link.2
        refine solo_findReserve hV h (hf ▸ hc) (hf ▸ hedge) hl hx fun z hz => ?_
        exact ih (l := l ++ [f.buffer]) (f := { f with hazSlot := z, buffer := c })
          (by rw [hl]; simp) hf hz
    · exact absurd hx.leaves hin

/-- `findEdge` run alone finds the edge from every live buffer. -/
theorem solo_findEdge (hb : f.buffer ∈ m.chain) (hf : f.hint = hint) :
    Solo tid S call V Q m (.findLocal f) := by
  refine .skipVia (solo_walk hV h hs hb (hf ▸ hedge) (fun R n k hx => ?_) (clamp_inner _))
    (fun _ => rfl) (hV _ rfl)
  obtain ⟨l, r, hl⟩ := List.append_of_mem (mem_orient.mpr hb : f.buffer ∈ orient R m.chain)
  rcases h.position hl with ⟨-, ht⟩ | ⟨c, r', rfl, hj⟩
  · exact absurd (ht.symm.trans hx.link.1) (farType_ne_value R)
  · obtain rfl : c = n := hj.1.2.symm.trans hx.link.2
    refine solo_findReserve hV h (hf ▸ hc) (hf ▸ hedge) hl hx fun z hz => ?_
    exact solo_findLocal hV h hs hc hedge (l := l ++ [f.buffer]) (r := r')
      (f := { f with hazSlot := z, buffer := c }) (by rw [hl]; simp) hf hz

end Search

/-- The one edge of a side is where `findEdge` has ended. -/
structure Found (s : State τ) (tid : τ) (g : Frame) (t : State τ) : Prop where
  mem : t.mem = s.mem
  edge : ∃ h c i, t.frames tid = some { g with point := .near h c i } ∧
    s.mem.IsEdge g.side c i ∧ ∀ c' i', s.mem.IsEdge g.side c' i' → c' = c ∧ i' = i

/-- A thread is in `findEdge`. -/
def InFindEdge (tid : τ) (t : State τ) : Prop :=
  ∃ g, t.frames tid = some g ∧ g.point.finds = true

variable [DecidableEq τ]

/-- From every live buffer and with any local hints, `findEdge` run alone returns
the one edge of its side. -/
theorem edge_found_from_anywhere (h : s.mem.WellFormed) (hs : s.mem.SealedBeside)
    {g : Frame} (hg : s.frames tid = some g)
    (hp : g.point = .findLocal ⟨⟨b, (s.mem.hint g.side).count⟩, true, b⟩) (hb : b ∈ s.mem.chain) :
    (machine τ).Leads (fun a => a.1 = tid) (InFindEdge tid) (Found s tid g) s := by
  have hsolo : Solo tid g.side g.call (fun p => p.finds = true) (fun m p => m = s.mem ∧ ∃ h c i,
      p = .near h c i ∧ s.mem.IsEdge g.side c i) s.mem g.point := by
    rw [hp]
    refine solo_findEdge (fun p hp => hp) h hs ?_ (fun c i hi => ?_) hb rfl
    · rfl
    · exact .done ⟨rfl, _, c, i, rfl, hi.isEdge h⟩
  apply (leads_of_solo hg hsolo).mono
  rintro t ⟨p, ht, hm, h', c, i, rfl, hi⟩
  exact ⟨hm, h', c, i, by rw [ht, Function.update_self], hi, fun c' i' hi' => hi'.unique hi⟩

omit [DecidableEq τ] in
/-- The chain of a reachable state is well-formed. -/
theorem Shape.wellFormed (h : Shape m) : m.WellFormed where
  nonempty := h.nonempty
  nodup := h.nodup.of_append_left
  joined := h.joined
  ends := h.ends
  sorted := by
    have hends (S : Side) (t : SlotType)
        (ht : t ∈ (orient S m.chain).getLast?.toList.map fun b => m.reads b (farLink S)) :
        t = farType S := by
      obtain ⟨b, hb, rfl⟩ := List.mem_map.mp ht
      exact Memory.reads_of_type (h.ends S b (Option.mem_toList.mp hb))
    have hmap : m.places.map m.readsAt =
        (orient .left m.chain).getLast?.toList.map (fun b => m.reads b (farLink .left)) ++
          m.readings ++
          (orient .right m.chain).getLast?.toList.map (fun b => m.reads b (farLink .right)) := by
      simp [Memory.places, Memory.readings, Memory.readsAt, orient, farLink, List.map_flatMap,
        Function.comp_def]
    rw [hmap]
    apply replicate_of_before
    · rw [List.pairwise_append, List.pairwise_append]
      refine ⟨⟨?_, h.readings_before, ?_⟩, ?_, ?_⟩
      · apply List.pairwise_of_forall_mem_list
        intro t ht u hu
        rw [hends .left t ht, hends .left u hu]
        exact ⟨id, id⟩
      · intro t ht u hu
        rw [hends .left t ht]
        exact ⟨fun h => (by cases h), fun _ => rfl⟩
      · apply List.pairwise_of_forall_mem_list
        intro t ht u hu
        rw [hends .right t ht, hends .right u hu]
        exact ⟨id, id⟩
      · intro t ht u hu
        rw [hends .right u hu]
        exact ⟨fun _ => rfl, fun h => (by cases h)⟩
    · intro hs
      rcases List.mem_append.mp hs with hs | hs
      · rcases List.mem_append.mp hs with hs | hs
        · cases hends .left _ hs
        · rw [Memory.readings, List.mem_flatMap] at hs
          obtain ⟨b, -, hs⟩ := hs
          obtain ⟨i, -, hs⟩ := List.mem_map.mp hs
          exact SlotType.reads_ne_sealed _ i hs
      · cases hends .right _ hs
  «sealed» b hb i hi hs := by
    rcases sealed_of_type (h.buffer b (.inl hb)) hi hs .left with rfl | rfl
    · refine ⟨.right, rfl, ?_⟩
      exact h.sealed_last (S := .right) hb hs
    · exact ⟨.left, rfl, h.sealed_last hb hs⟩
  apart S := by
    apply (h.joined S).imp_of_mem_imp
    intro b c hb _ hj
    exact h.apart S b c (.inl (mem_orient.mp hb)) hj

omit [DecidableEq τ] in
theorem Shape.sealedBeside (h : Shape m) : m.SealedBeside := fun b hb R =>
  (h.buffer b (.inl hb)).sealedLink R

end Find

section FourSlots

attribute [local instance] four

/-- The right local hint of buffer 0 is out of the slots for values, a pop has sealed buffer 1
and is about to unlink it, and a push starts its search at buffer 1, which the right hint names. -/
def inFindEdge : State ℕ :=
  ((machine ℕ).exec (fun _ _ => True)
    (steps 14 1 .right (.push 1) 1 ++ steps 14 1 .right .pop 1 ++ steps 14 1 .right (.push 2) 1 ++
      steps 25 1 .right (.push 3) 1 ++ steps 30 2 .right .pop 1 ++ steps 4 0 .right (.push 9) 2)
    (constructed ℕ)).getD (constructed ℕ)

/-- The locals at the start of `findEdge`. -/
def Point.finding : Point → Option (Hint × Bool × Address)
  | .findLocal f => some (f.hint, f.hazSlot, f.buffer)
  | _ => none

theorem Point.eq_of_finding {p : Point} {hint : Hint} {z : Bool} {b : Address}
    (h : p.finding = some (hint, z, b)) : p = .findLocal ⟨hint, z, b⟩ := by
  cases p with
  | findLocal f =>
    cases h
    rfl
  | _ => cases h

theorem inFindEdge_found : inFindEdge.mem.chain = [0, 1] ∧ inFindEdge.mem.type 1 1 = .sealed ∧
    inFindEdge.mem.localHint .right 0 = 3 ∧ ∃ g, inFindEdge.frames 0 = some g ∧ g.side = .right ∧
      (machine ℕ).Leads (fun a => a.1 = 0) (InFindEdge 0) (Found inFindEdge 0 g) inFindEdge := by
  have hrun : (machine ℕ).Reachable inFindEdge := Machine.Run.exec_getD _ (.start init_constructed)
  have hshape := (run_inv hrun).shape
  have hstate : inFindEdge.mem.chain = [0, 1] ∧ inFindEdge.mem.type 1 1 = .sealed ∧
      inFindEdge.mem.localHint .right 0 = 3 ∧ inFindEdge.mem.hint .right = ⟨1, 2⟩ ∧
      (inFindEdge.frames 0).map (fun g => (g.side, g.point.finding)) =
        some (.right, some (⟨1, 2⟩, true, 1)) := by decide +kernel
  obtain ⟨hchain, hsealed, hlocal, hhint, hframe⟩ := hstate
  obtain ⟨g, hg, he⟩ := Option.map_eq_some_iff.mp hframe
  obtain ⟨hside, hfinding⟩ := Prod.mk.inj he
  refine ⟨hchain, hsealed, hlocal, g, hg, hside, ?_⟩
  refine edge_found_from_anywhere (b := 1) hshape.wellFormed hshape.sealedBeside hg ?_ ?_
  · rw [hside, hhint]
    exact Point.eq_of_finding hfinding
  · rw [hchain]
    exact List.mem_cons_of_mem _ (List.mem_singleton_self 1)

/-- The frame of a left call at the start of `findEdge`. -/
def findingFrame (call : Call Word) : Frame := ⟨.left, call, .findLocal ⟨⟨0, 0⟩, true, 0⟩⟩

/-- A chain of one buffer that is sealed, with a word in its right link slot as it may
be left there; a thread is about to search for the left edge. -/
def sealedAlone : State ℕ where
  mem := {
    slot := fun b i =>
      if b ≠ 0 then ⟨0, 0, .value⟩
      else if i ≤ 1 then ⟨0, 0, .left⟩
      else if i = 2 then ⟨0, 0, .sealed⟩
      else ⟨7, 0, .right⟩
    localHint := fun _ _ => 1
    hint := fun _ => ⟨0, 0⟩
    cache := fun _ _ => none
    retired := []
    owner := fun b => if b = 0 ∨ b = 7 then .published else .unused
    chain := [0]
    dead := [7]
    stamp := fun _ _ => 0 }
  frames := fun tid => if tid = 0 then some (findingFrame .pop) else none

theorem sealedAlone_wellFormed : sealedAlone.mem.WellFormed where
  nonempty := List.cons_ne_nil _ _
  nodup := List.nodup_singleton _
  joined S := by cases S <;> exact List.isChain_singleton _
  ends S b hb := by
    cases S
    · obtain rfl : 0 = b := Option.some.inj hb
      rfl
    · obtain rfl : 0 = b := Option.some.inj hb
      rfl
  sorted := ⟨3, 0, 1, by decide⟩
  «sealed» b hb i hi hs := by
    obtain rfl := List.mem_singleton.mp hb
    have hi' : i = 1 ∨ i = 2 := by
      have := hi.1
      have : i ≤ 2 := hi.2
      omega
    rcases hi' with rfl | rfl
    · cases hs
    · refine ⟨.left, rfl, rfl, fun j hj hne => ?_⟩
      have hj' : j = 1 := by
        have := hj.1
        have : j ≤ 2 := hj.2
        omega
      rw [hj']
      rfl
  apart S := by cases S <;> exact List.isChain_singleton _

/-- Where `findEdge` has returned. -/
def Point.nearIndex : Point → Option (Address × ℤ)
  | .near _ b i => some (b, i)
  | _ => none

theorem Point.finds_of_nearIndex {p : Point} {x : Address × ℤ} (h : p.nearIndex = some x) :
    p.finds = false := by
  cases p with
  | near _ b i => rfl
  | _ => cases h

/-- A sealed buffer without a neighbour leads `findEdge` out of the chain. -/
theorem not_edge_found_alone : ¬∀ s : State ℕ, s.mem.WellFormed → ∀ tid g b,
    s.frames tid = some g → g.point = .findLocal ⟨⟨b, (s.mem.hint g.side).count⟩, true, b⟩ →
      b ∈ s.mem.chain →
        (machine ℕ).Leads (fun a => a.1 = tid) (InFindEdge tid) (Found s tid g) s := by
  intro hall
  have h := hall sealedAlone sealedAlone_wellFormed 0 (findingFrame .pop) 0 rfl rfl (by decide)
  obtain ⟨t, ht, hnear⟩ : ∃ t, (machine ℕ).exec
      (fun a s => a.1 = 0 ∧ (s.frames 0).any fun f => f.point.finds)
        (steps 7 0 .left .pop 0) sealedAlone = some t ∧
      ((t.frames 0).bind fun f => f.point.nearIndex) = some (7, 1) :=
    ⟨_, Option.eq_some_of_isSome (by decide +kernel), by decide +kernel⟩
  obtain ⟨f, hf, hi⟩ := Option.bind_eq_some_iff.mp hnear
  have hleads := h.along (t := t) (fun a s hok => ⟨hok.1, fun hfound => ?_⟩) ht
  · have hstuck : ¬InFindEdge 0 t := by
      rintro ⟨g, hg, hp⟩
      obtain rfl := Option.some.inj (hf.symm.trans hg)
      rw [Point.finds_of_nearIndex hi] at hp
      cases hp
    obtain ⟨h', c, i, hc, hedge, -⟩ := (hleads.not_stuck hstuck).edge
    obtain rfl := Option.some.inj (hf.symm.trans hc)
    obtain ⟨rfl, rfl⟩ := Prod.mk.inj (Option.some.inj hi)
    obtain ⟨l, r, hlr, -⟩ := hedge
    have hmem : ((7, 1) : Address × ℤ) ∈ Side.left.toward sealedAlone.mem.places := by
      rw [show Side.left.toward sealedAlone.mem.places = l ++ (7, 1) :: r from hlr]
      simp
    exact absurd hmem (by decide)
  · obtain ⟨h', c, i, hc, -⟩ := hfound.edge
    have hfinds := hok.2
    rw [hc] at hfinds
    cases hfinds

end FourSlots
end UnboundedDeque.OFDeque
