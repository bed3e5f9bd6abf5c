import UnboundedDeque.OFDequeSequential

/-!
# Local hints of a sequential run

A push or a pop within a buffer moves the local hint along with the edge. A push into
the next buffer and a pop of the last value before a boundary move the edge alone, so a
hint stays close to the edge only while these find it close to the slot they go to.
-/
namespace UnboundedDeque.OFDeque
open StepMachine

section Drift

variable {τ : Type*} {m m' : Memory τ} {S R : Side} {tid : τ}
  {call : Call Word} {b c n : Address} {i j : ℤ} {t : SlotType} {w : Word}

/-- Two indices differ by one at most. -/
def Close (i j : ℤ) : Prop := |i - j| ≤ 1

instance (i j : ℤ) : Decidable (Close i j) := inferInstanceAs (Decidable (_ ≤ _))

theorem close_self (i : ℤ) : Close i i := by
  simp [Close]

theorem close_add {d : ℤ} (h : Close i j) : Close (i + d) (j + d) := by
  rwa [Close, add_sub_add_right_eq_sub]

variable [BufferSize]

/-- The local hint of a side is close to the edge of the side. -/
def Memory.HintClose (m : Memory τ) (S : Side) : Prop :=
  ∀ b i, m.IsEdge S b i → Inner i → Close (m.localHint S b) i

/-- The local hints of a side are close to the edge, and to the last slot for values
in the buffers with a link towards the side. -/
structure Memory.Aligned (m : Memory τ) (S : Side) : Prop where
  edge : ∀ b i, m.EdgeAt S b i → Close (m.localHint S b) i
  full : ∀ b ∈ m.chain, m.type b (farLink S) = .value → Close (m.localHint S b) (farValue S)

section Edges

omit [BufferSize] in
theorem orient_eq_toward (S : Side) (l : List Address) : orient S l = S.toward l := by
  cases S <;> rfl

/-- In the chain the joined buffers are the neighbours. -/
theorem Shape.next_iff (h : Shape m) (hb : b ∈ m.chain) :
    m.Joined S b n ↔ S.Next m.chain b n := by
  constructor
  · intro hj
    obtain ⟨l, r, hl⟩ := List.append_of_mem (mem_orient.mpr hb : b ∈ orient S m.chain)
    rcases h.wellFormed.position hl with ⟨-, hf⟩ | ⟨c, r', rfl, hc⟩
    · exact absurd (hf.symm.trans hj.1.1) (farType_ne_value S)
    · obtain rfl : c = n := hc.1.2.symm.trans hj.1.2
      rw [orient_eq_toward] at hl
      exact Side.next_of_split hl
  · intro hn
    obtain ⟨l, r, hl⟩ := hn.split
    have hj := h.joined S
    rw [orient_eq_toward, hl, List.isChain_append, List.isChain_cons_cons] at hj
    exact hj.2.1.1

theorem Memory.EdgeAt.unique (h : m.Calm) (e : m.EdgeAt S b i) (e' : m.EdgeAt S c j) :
    b = c ∧ i = j :=
  (e.isEdge h.shape.wellFormed).unique (e'.isEdge h.shape.wellFormed)

/-- An edge in a changed memory was one before, if the slots that are empty for its side
are the same. -/
theorem Memory.EdgeAt.transfer (h : m.Calm) (h' : m'.Calm) (e : m'.EdgeAt R c j)
    (hc : c ∈ m.chain) (hnext : ∀ x, R.Next m'.chain c x → R.Next m.chain c x)
    (hfar : ∀ x ∈ m.chain, x ∈ m'.chain → ∀ i, m'.type x i = farType R ↔ m.type x i = farType R)
    (hlink : j = nearLink R → m'.type c j = nearType R → m.type c j = nearType R) :
    m.EdgeAt R c j where
  live := hc
  near := e.near
  first hj := hlink hj (e.first hj)
  notFar hr := by
    rcases e.near.cases with hj | hj
    · have ht := hlink hj (e.first hj)
      rw [Memory.reads_of_ne_sealed (by rw [ht]; exact nearType_ne_sealed R), ht] at hr
      exact farType_ne_nearType R hr.symm
    · rw [h.reads_eq hc hj] at hr
      exact e.notFar (Memory.reads_of_type ((hfar c hc e.live j).mpr hr))
  inner hj := (hfar c hc e.live _).mp (e.inner hj)
  last hj := by
    rcases e.last hj with ht | ⟨x, hx, hjoin, hr⟩
    · exact .inl ((hfar c hc e.live _).mp ht)
    · have hn := hnext x ((h'.shape.next_iff e.live).mp hjoin)
      rw [h'.reads_eq hx (inner_nearValue R)] at hr
      refine .inr ⟨x, hn.mem_target, (h.shape.next_iff hc).mpr hn, ?_⟩
      exact Memory.reads_of_type ((hfar x hn.mem_target hx _).mp hr)

/-- The walk towards a side from a slot that is not empty ends in its buffer, if this
is the last one. -/
theorem exists_edge_inside (h : m.Calm) (hb : b ∈ m.chain) (hl : m.type b (farLink S) = farType S)
    (hi : Inner i) (hn : m.reads b i ≠ farType S) : ∃ i, m.EdgeAt S b i := by
  induction hk : ((farValue S - i) * farDirection S).toNat using Nat.strong_induction_on
    generalizing i with
  | _ k ih =>
    by_cases hf : m.type b (i + farDirection S) = farType S
    · exact ⟨i, .of_peek hb (hi.near S) (fun he => absurd he (hi.ne_nearLink S)) hn hf⟩
    · by_cases hv : i = farValue S
      · rw [hv, farValue_add] at hf
        exact absurd hl hf
      · have hnext := (hi.near S).next hv
        refine ih _ ?_ hnext (h.reads_eq hb hnext ▸ hf) rfl
        obtain ⟨h₁, h₂⟩ := hi
        obtain ⟨h₃, h₄⟩ := hnext
        rw [← hk]
        cases S <;> simp only [farValue, farDirection] at * <;> omega

/-- Every side has an edge. -/
theorem Memory.Calm.exists_edge (h : m.Calm) (S : Side) : ∃ b i, m.EdgeAt S b i := by
  obtain ⟨b, hb⟩ : ∃ b, (orient S m.chain).getLast? = some b := by
    apply Option.ne_none_iff_exists'.mp
    rw [ne_eq, List.getLast?_eq_none_iff, orient_eq_nil]
    exact h.shape.nonempty
  have hmem : b ∈ m.chain := mem_orient.mp (List.mem_of_getLast? hb)
  have hl := h.shape.ends S b hb
  by_cases hn : m.type b (nearValue S) = farType S
  · rcases h.shape.end_or_joined hmem S.opposite with ⟨-, -, ht⟩ | ⟨c, hc, hj⟩
    · refine ⟨b, nearLink S, .of_peek hmem (near_nearLink S) (fun _ => ht) ?_ ?_⟩
      · rw [← farLink_opposite, Memory.reads_of_type ht]
        exact (farType_ne_nearType S).symm
      · rw [nearLink_add, hn]
    · have hj' := Shape.joined_symm hj
      rw [S.opposite_opposite] at hj'
      have hfull := (h.shape.buffer c (.inl hc)).noFar S hj'.1.1
      refine ⟨c, farValue S, hc, (inner_farValue S).near S,
        fun he => absurd he.symm (nearLink_ne_farValue S),
        fun hr => hfull (SlotType.eq_farType_of_reads hr), fun hne => absurd rfl hne,
        fun _ => .inr ⟨b, hmem, hj', Memory.reads_of_type hn⟩⟩
  · have hin := inner_nearValue S
    obtain ⟨i, e⟩ := exists_edge_inside h hmem hl hin (h.reads_eq hmem hin ▸ hn)
    exact ⟨b, i, e⟩

theorem Memory.IsEdge.edgeAt (h : m.Calm) (e : m.IsEdge S b i) : m.EdgeAt S b i := by
  obtain ⟨c, j, e'⟩ := h.exists_edge S
  obtain ⟨rfl, rfl⟩ := e.unique (e'.isEdge h.shape.wellFormed)
  exact e'

end Edges

section Retype

omit [BufferSize]

theorem retype_self (f : Address → ℤ → SlotType) (b : Address) (i : ℤ) (t : SlotType) :
    retype f b i t b i = t := by
  rw [retype, Function.update_self, Function.update_self]

theorem retype_ne (f : Address → ℤ → SlotType) (t : SlotType) (h : c ≠ b ∨ j ≠ i) :
    retype f b i t c j = f c j := by
  by_cases hc : c = b
  · subst hc
    rw [retype, Function.update_self, Function.update_of_ne (h.resolve_left fun h => h rfl)]
  · rw [retype, Function.update_of_ne hc]

/-- A slot that is empty neither before nor after for a side. -/
theorem retype_far {f : Address → ℤ → SlotType} (hf : f b i ≠ farType R) (ht : t ≠ farType R)
    (c : Address) (j : ℤ) : retype f b i t c j = farType R ↔ f c j = farType R := by
  by_cases h : c = b ∧ j = i
  · obtain ⟨rfl, rfl⟩ := h
    rw [retype_self]
    exact ⟨fun h => absurd h ht, fun h => absurd h hf⟩
  · rw [retype_ne f t (not_and_or.mp h)]

theorem value_ne_far (R : Side) : SlotType.value ≠ farType R := (farType_ne_value R).symm

theorem far_ne_opposite (S : Side) : farType S ≠ farType S.opposite := farType_ne_nearType S

end Retype

section SameChain

variable (h : m.Calm) (h' : m'.Calm) (hchain : m'.chain = m.chain)
  (htype : m'.type = retype m.type b i t) (hi : Inner i)
include h h' hchain htype hi

/-- The other end of the deque is where it was. -/
theorem aligned_opposite (hf : m.type b i ≠ farType R) (ht : t ≠ farType R)
    (hhint : m'.localHint R = m.localHint R) (ha : m.Aligned R) : m'.Aligned R := by
  have hlink (c : Address) (S : Side) : m'.type c (farLink S) = m.type c (farLink S) := by
    rw [htype]
    exact retype_ne m.type t (.inr (hi.ne_farLink S).symm)
  refine ⟨fun c j e => ?_, fun c hc hl => ?_⟩
  · rw [hhint]
    refine ha.edge c j (e.transfer h h' (hchain ▸ e.live) (fun x hx => hchain ▸ hx)
      (fun x _ _ k => ?_) fun hj hl => ?_)
    · rw [htype]
      exact retype_far hf ht x k
    · subst hj
      exact (hlink c R.opposite).symm.trans hl
  · rw [hhint]
    exact ha.full c (hchain ▸ hc) ((hlink c R).symm.trans hl)

end SameChain

section Inside

variable (h : m.Calm)
include h

/-- Beyond an empty slot come empty ones. -/
theorem far_next (hb : b ∈ m.chain) (hj : Inner j) (hj' : Inner (j + farDirection S))
    (hf : m.type b j = farType S) : m.type b (j + farDirection S) = farType S := by
  have hr := (h.shape.buffer b (.inl hb)).closed S j hj hj' (Memory.reads_of_type hf)
  rwa [← h.reads_eq hb hj']

/-- The slot before one with a value is not empty. -/
theorem before_ne_far (hb : b ∈ m.chain) (hi : Inner (i - farDirection S)) (hin : Inner i)
    (hv : m.type b i = .value) : m.type b (i - farDirection S) ≠ farType S := by
  intro hf
  have hnext := far_next h hb hi (by rwa [sub_add_cancel]) hf
  rw [sub_add_cancel, hv] at hnext
  exact value_ne_far S hnext

/-- The buffer with the edge inside is the last one. -/
theorem last_of_inside (e : m.EdgeAt S b i) (hi : i ≠ farValue S) :
    m.type b (farLink S) = farType S := by
  apply (h.shape.buffer b (.inl e.live)).farLink_of_reads (e.near.next hi)
  exact Memory.reads_of_type (e.inner hi)

/-- The neighbour beyond the edge is empty. -/
theorem far_of_joined (e : m.EdgeAt S b (farValue S)) (hj : m.Joined S b n) :
    n ∈ m.chain ∧ m.type n (nearValue S) = farType S := by
  rcases h.far_type e with hf | ⟨n', hn, hj', ht⟩
  · exact absurd (hf.symm.trans hj.1.1) (farType_ne_value S)
  · obtain rfl : n' = n := hj'.1.2.symm.trans hj.1.2
    exact ⟨hn, ht⟩

theorem edge_interiorPush (e : m.EdgeAt S b i) (hi : i ≠ farValue S) (hchain : m'.chain = m.chain)
    (htype : m'.type = retype m.type b (i + farDirection S) .value) :
    m'.EdgeAt S b (i + farDirection S) := by
  have hin := e.near.next hi
  have hnew : m'.type b (i + farDirection S) = .value := by rw [htype, retype_self]
  refine ⟨hchain ▸ e.live, hin.near S, fun he => absurd he (hin.ne_nearLink S), ?_, fun hne => ?_,
    fun _ => .inl ?_⟩
  · rw [Memory.reads, hnew, SlotType.reads_value]
    exact value_ne_far S
  · rw [htype, retype_ne _ _ (.inr fun he => farDirection_ne_zero S (add_eq_left.mp he))]
    exact far_next h e.live hin ((hin.near S).next hne) (e.inner hi)
  · rw [htype, retype_ne _ _ (.inr (hin.ne_farLink S).symm)]
    exact last_of_inside h e hi

theorem edge_straddle (e : m.EdgeAt S b (farValue S)) (hj : m.Joined S b n)
    (hchain : m'.chain = m.chain) (htype : m'.type = retype m.type n (nearValue S) .value) :
    m'.EdgeAt S n (nearValue S) := by
  obtain ⟨hn, ht⟩ := far_of_joined h e hj
  have hin := inner_nearValue S
  have hnew : m'.type n (nearValue S) = .value := by rw [htype, retype_self]
  refine ⟨hchain ▸ hn, hin.near S, fun he => absurd he (hin.ne_nearLink S), ?_, fun hne => ?_,
    fun he => absurd he (nearValue_ne_farValue S)⟩
  · rw [Memory.reads, hnew, SlotType.reads_value]
    exact value_ne_far S
  · rw [htype, retype_ne _ _ (.inr fun he => farDirection_ne_zero S (add_eq_left.mp he))]
    exact far_next h hn hin ((hin.near S).next hne) ht

/-- The edge after a value has been removed within a buffer. -/
theorem edge_pop (hb : b ∈ m.chain) (hin : Inner i) (hprev : Inner (i - farDirection S))
    (hv : m.type b i = .value) (hchain : m'.chain = m.chain)
    (htype : m'.type = retype m.type b i (farType S)) :
    m'.EdgeAt S b (i - farDirection S) := by
  have hne : i - farDirection S ≠ i := fun he => farDirection_ne_zero S (sub_eq_self.mp he)
  refine ⟨hchain ▸ hb, hprev.near S, fun he => absurd he (hprev.ne_nearLink S), fun hr => ?_,
    fun _ => ?_, fun he => ?_⟩
  · have hr' : m.reads b (i - farDirection S) = farType S := by
      rwa [Memory.reads, htype, retype_ne _ _ (.inr hne)] at hr
    rw [h.reads_eq hb hprev] at hr'
    exact before_ne_far h hb hprev hin hv hr'
  · rw [sub_add_cancel, htype, retype_self]
  · have hlink : i = farLink S := by
      rw [← farValue_add, ← he, sub_add_cancel]
    exact absurd hlink (hin.ne_farLink S)

/-- The edge after the first value of a buffer has been removed. -/
theorem edge_first (hb : b ∈ m.chain) (hv : m.type b (nearValue S) = .value)
    (hchain : m'.chain = m.chain) (htype : m'.type = retype m.type b (nearValue S) (farType S))
    (h' : m'.Calm) : m'.EdgeAt S b (nearLink S) ∨
      ∃ c ∈ m.chain, c ≠ b ∧ m.type c (farLink S) = .value ∧ m'.EdgeAt S c (farValue S) := by
  have hnew : m'.type b (nearValue S) = farType S := by rw [htype, retype_self]
  have hold (c : Address) (i : ℤ) (hi : c ≠ b ∨ i ≠ nearValue S) : m'.type c i = m.type c i := by
    rw [htype, retype_ne _ _ hi]
  rcases h.shape.end_or_joined hb S.opposite with ⟨rest, -, hf⟩ | ⟨c, hc, hj⟩
  · have hf' : m'.type b (nearLink S) = nearType S :=
      (hold b _ (.inr (inner_nearValue S |>.ne_nearLink S).symm)).trans hf
    refine .inl ⟨hchain ▸ hb, near_nearLink S, fun _ => hf', ?_, fun _ => ?_,
      fun he => absurd he (nearLink_ne_farValue S)⟩
    · rw [Memory.reads_of_ne_sealed (by rw [hf']; exact nearType_ne_sealed S), hf']
      exact (farType_ne_nearType S).symm
    · rw [nearLink_add, hnew]
  · have hj' : m.Joined S c b := by
      have := Shape.joined_symm hj
      rwa [S.opposite_opposite] at this
    have hcb : c ≠ b := by
      rintro rfl
      have hnext := (h.shape.next_iff hb).mp hj'
      exact hnext.ne h.shape.nodup.of_append_left rfl
    have hfull : m.type c (farValue S) ≠ farType S :=
      (h.shape.buffer c (.inl hc)).noFar S hj'.1.1
    refine .inr ⟨c, hc, hcb, hj'.1.1, ⟨hchain ▸ hc, (inner_farValue S).near S,
      fun he => absurd he.symm (nearLink_ne_farValue S), fun hr => ?_, fun hne => absurd rfl hne,
      fun _ => .inr ⟨b, hchain ▸ hb, ?_, Memory.reads_of_type hnew⟩⟩⟩
    · apply hfull
      rw [← hold c _ (.inl hcb)]
      exact SlotType.eq_farType_of_reads hr
    · rw [h'.shape.next_iff (hchain ▸ hc), hchain]
      exact (h.shape.next_iff hc).mp hj'

end Inside

section Fits

instance (m : Memory τ) (b : Address) (i : ℤ) (n : Address) : Decidable (m.IsLink b i n) :=
  inferInstanceAs (Decidable (_ ∧ _))

instance (m : Memory τ) (S : Side) (b n : Address) : Decidable (m.Joined S b n) :=
  inferInstanceAs (Decidable (_ ∧ _))

instance (S : Side) (i : ℤ) : Decidable (Near S i) :=
  inferInstanceAs (Decidable (_ ∧ _ ∧ _))

instance (m : Memory τ) (S : Side) (b : Address) (i : ℤ) : Decidable (m.EdgeAt S b i) :=
  decidable_of_iff (b ∈ m.chain ∧ Near S i ∧ (i = nearLink S → m.type b i = nearType S) ∧
    m.reads b i ≠ farType S ∧ (i ≠ farValue S → m.type b (i + farDirection S) = farType S) ∧
      (i = farValue S → m.type b (farLink S) = farType S ∨
        ∃ n ∈ m.chain, m.Joined S b n ∧ m.reads n (nearValue S) = farType S))
    ⟨fun h => ⟨h.1, h.2.1, h.2.2.1, h.2.2.2.1, h.2.2.2.2.1, h.2.2.2.2.2⟩,
      fun h => ⟨h.live, h.near, h.first, h.notFar, h.inner, h.last⟩⟩

/-- A call that moves the edge over a boundary, or back before one, finds the local hint
close to the slot it goes to. -/
def Memory.HintFits (m : Memory τ) (S : Side) : Call Word → Prop
  | .push _ => ∀ b ∈ m.chain, m.EdgeAt S b (farValue S) →
    ∀ n ∈ m.chain, m.Joined S b n → Close (m.localHint S n) (nearValue S)
  | .pop => ∀ b ∈ m.chain, m.EdgeAt S b (farValue S) → m.type b (farValue S) = .value →
    Close (m.localHint S b) (farValue S - farDirection S)

instance (m : Memory τ) (S : Side) (call : Call Word) : Decidable (m.HintFits S call) := by
  cases call <;> unfold Memory.HintFits <;> infer_instance

omit [BufferSize] in
/-- A local hint that has been moved. -/
theorem nudge_self (f : Side → Address → ℤ) (S : Side) (b : Address) (d : ℤ) :
    nudge f S b d S b = f S b + d := by
  rw [nudge, Function.update_self, Function.update_self]

omit [BufferSize] in
theorem nudge_ne (f : Side → Address → ℤ) (d : ℤ) (h : c ≠ b) : nudge f S b d S c = f S c := by
  rw [nudge, Function.update_self, Function.update_of_ne h]

omit [BufferSize] in
theorem nudge_opposite (f : Side → Address → ℤ) (S : Side) (b : Address) (d : ℤ) :
    nudge f S b d S.opposite = f S.opposite := Function.update_of_ne S.opposite_ne _ _

/-- The side of a call that moves the edge to an index of a known buffer. -/
theorem aligned_of_edge (h' : m'.Calm) (e : m'.EdgeAt S b i) (hc : Close (m'.localHint S b) i)
    (hfull : ∀ c ∈ m'.chain, m'.type c (farLink S) = .value →
      Close (m'.localHint S c) (farValue S)) : m'.Aligned S := by
  refine ⟨fun c j e' => ?_, hfull⟩
  obtain ⟨rfl, rfl⟩ := e.unique h' e'
  exact hc

theorem aligned_interiorPush (h : m.Calm) (h' : m'.Calm) (e : m.EdgeAt S b i)
    (hi : i ≠ farValue S) (hchain : m'.chain = m.chain)
    (htype : m'.type = retype m.type b (i + farDirection S) .value)
    (hhint : m'.localHint = nudge m.localHint S b (farDirection S)) (ha : ∀ R, m.Aligned R) :
    ∀ R, m'.Aligned R := by
  have hin := e.near.next hi
  intro R
  rcases S.eq_or_eq_opposite R with rfl | rfl
  · refine aligned_of_edge h' (edge_interiorPush h e hi hchain htype) ?_ fun c hc hl => ?_
    · rw [hhint, nudge_self]
      exact close_add ((ha R).edge b i e)
    · rw [htype, retype_ne _ _ (.inr (hin.ne_farLink R).symm)] at hl
      have hcb : c ≠ b := by
        rintro rfl
        exact value_ne_far R (hl.symm.trans (last_of_inside h e hi))
      rw [hhint, nudge_ne _ _ hcb]
      exact (ha R).full c (hchain ▸ hc) hl
  · apply aligned_opposite h h' hchain htype hin _ (value_ne_far _) _ (ha _)
    · rw [e.inner hi]
      exact far_ne_opposite S
    · rw [hhint, nudge_opposite]

theorem aligned_straddle (h : m.Calm) (h' : m'.Calm) (e : m.EdgeAt S b (farValue S))
    (hj : m.Joined S b n) (hchain : m'.chain = m.chain)
    (htype : m'.type = retype m.type n (nearValue S) .value)
    (hhint : m'.localHint = m.localHint) (hfit : Close (m.localHint S n) (nearValue S))
    (ha : ∀ R, m.Aligned R) : ∀ R, m'.Aligned R := by
  have hin := inner_nearValue S
  intro R
  rcases S.eq_or_eq_opposite R with rfl | rfl
  · refine aligned_of_edge h' (edge_straddle h e hj hchain htype) ?_ fun c hc hl => ?_
    · rwa [hhint]
    · rw [htype, retype_ne _ _ (.inr (hin.ne_farLink R).symm)] at hl
      rw [hhint]
      exact (ha R).full c (hchain ▸ hc) hl
  · apply aligned_opposite h h' hchain htype hin _ (value_ne_far _) _ (ha _)
    · rw [(far_of_joined h e hj).2]
      exact far_ne_opposite S
    · rw [hhint]

theorem aligned_interiorPop (h : m.Calm) (h' : m'.Calm) (e : m.EdgeAt S b i)
    (hi : i ≠ farValue S) (hv : m.type b i = .value) (hchain : m'.chain = m.chain)
    (htype : m'.type = retype m.type b i (farType S))
    (hhint : m'.localHint = nudge m.localHint S b (-farDirection S)) (ha : ∀ R, m.Aligned R) :
    ∀ R, m'.Aligned R := by
  have hin : Inner i := by
    rcases h.near_type e with ht | ⟨hin, -⟩
    · exact absurd (ht.symm.trans hv) (nearType_ne_value S)
    · exact hin
  intro R
  rcases S.eq_or_eq_opposite R with rfl | rfl
  · have hfull (c : Address) (hc : c ∈ m'.chain) (hl : m'.type c (farLink R) = .value) :
        Close (m'.localHint R c) (farValue R) := by
      rw [htype, retype_ne _ _ (.inr (hin.ne_farLink R).symm)] at hl
      have hcb : c ≠ b := by
        rintro rfl
        exact value_ne_far R (hl.symm.trans (last_of_inside h e hi))
      rw [hhint, nudge_ne _ _ hcb]
      exact (ha R).full c (hchain ▸ hc) hl
    have hhere : Close (m'.localHint R b) (i - farDirection R) := by
      rw [hhint, nudge_self, sub_eq_add_neg]
      exact close_add ((ha R).edge b i e)
    rcases hin.prev R with rfl | hprev
    · rcases edge_first h e.live hv hchain htype h' with e' | ⟨c, hc, hcb, hl, e'⟩
      · refine aligned_of_edge h' e' ?_ hfull
        rwa [← nearLink_add, add_sub_cancel_right] at hhere
      · refine aligned_of_edge h' e' ?_ hfull
        rw [hhint, nudge_ne _ _ hcb]
        exact (ha R).full c hc hl
    · exact aligned_of_edge h' (edge_pop h e.live hin hprev hv hchain htype) hhere hfull
  · apply aligned_opposite h h' hchain htype hin _ (far_ne_opposite S) _ (ha _)
    · rw [hv]
      exact value_ne_far _
    · rw [hhint, nudge_opposite]

theorem aligned_boundaryPop (h : m.Calm) (h' : m'.Calm) (e : m.EdgeAt S b (farValue S))
    (hv : m.type b (farValue S) = .value) (hchain : m'.chain = m.chain)
    (htype : m'.type = retype m.type b (farValue S) (farType S))
    (hhint : m'.localHint = m.localHint)
    (hfit : Close (m.localHint S b) (farValue S - farDirection S)) (ha : ∀ R, m.Aligned R) :
    ∀ R, m'.Aligned R := by
  have hin := inner_farValue S
  intro R
  rcases S.eq_or_eq_opposite R with rfl | rfl
  · have hprev : Inner (farValue R - farDirection R) := by
      rcases hin.prev R with he | hprev
      · exact absurd he.symm (nearValue_ne_farValue R)
      · exact hprev
    refine aligned_of_edge h' (edge_pop h e.live hin hprev hv hchain htype) ?_ fun c hc hl => ?_
    · rwa [hhint]
    · rw [htype, retype_ne _ _ (.inr (hin.ne_farLink R).symm)] at hl
      rw [hhint]
      exact (ha R).full c (hchain ▸ hc) hl
  · apply aligned_opposite h h' hchain htype hin _ (far_ne_opposite S) _ (ha _)
    · rw [hv]
      exact value_ne_far _
    · rw [hhint]

theorem aligned_append (h : m.Calm) (h' : m'.Calm) (e : m.EdgeAt S b (farValue S))
    (hl : m.type b (farLink S) = farType S) (hn : n ∉ m.chain) (hchain : m'.chain = S.add n m.chain)
    (htype : ∀ c ∈ m.chain, m'.type c = retype m.type b (farLink S) .value c)
    (hprep : m'.Prepared S b n) (hhint : ∀ R, m'.localHint R n = nearValue S)
    (hhints : ∀ R, ∀ c ≠ n, m'.localHint R c = m.localHint R c) (ha : ∀ R, m.Aligned R) :
    ∀ R, m'.Aligned R := by
  have hin := inner_nearValue S
  have hlinks : farLink S.opposite ≠ farLink S := nearLink_ne_farLink S
  have hold {c : Address} (hc : c ∈ m.chain) {i : ℤ} (hi : c ≠ b ∨ i ≠ farLink S) :
      m'.type c i = m.type c i := by
    rw [htype c hc]
    exact retype_ne _ _ hi
  have hne {c : Address} (hc : c ∈ m.chain) : c ≠ n := fun he => hn (he ▸ hc)
  intro R
  rcases S.eq_or_eq_opposite R with rfl | rfl
  · have e' : m'.EdgeAt R n (nearValue R) := by
      refine ⟨hchain ▸ mem_add.mpr (.inl rfl), hin.near R,
        fun he => absurd he (hin.ne_nearLink R), ?_, fun hi => ?_,
        fun he => absurd he (nearValue_ne_farValue R)⟩
      · rw [Memory.reads, hprep.value, SlotType.reads_value]
        exact value_ne_far R
      · exact hprep.rest _ ((hin.near R).next hi) (hin.next_ne_nearValue R)
    refine aligned_of_edge h' e' (hhint R ▸ close_self _) fun c hc ht => ?_
    rcases mem_add.mp (hchain ▸ hc) with rfl | hc
    · exact absurd (ht.symm.trans hprep.farLink) (value_ne_far R)
    · rw [hhints R c (hne hc)]
      by_cases hcb : c = b
      · rw [hcb]
        exact (ha R).edge b _ e
      · exact (ha R).full c hc ((hold hc (.inl hcb)).symm.trans ht)
  · refine ⟨fun c j e' => ?_, fun c hc ht => ?_⟩
    · rcases mem_add.mp (hchain ▸ e'.live) with rfl | hc
      · -- the new buffer has no slot that is empty for the other end
        have hj : j = farValue S.opposite := by
          by_contra hj
          have hin' := e'.near.next hj
          have hf := e'.inner hj
          by_cases hjn : j + farDirection S.opposite = nearValue S
          · rw [hjn, hprep.value] at hf
            exact value_ne_far _ hf
          · rw [hprep.rest _ hin' hjn] at hf
            exact far_ne_opposite S hf
        rw [hj, hhint]
        exact close_self _
      · rw [hhints _ c (hne hc)]
        refine (ha _).edge c j (e'.transfer h h' hc (fun x hx => ?_) (fun x hx _ k => ?_)
          fun hj ht => ?_)
        · rw [hchain] at hx
          exact (Side.next_add_opposite.mp hx).resolve_right fun hcn => hne hc hcn.1
        · rw [htype x hx]
          apply retype_far _ (value_ne_far _)
          rw [hl]
          exact far_ne_opposite S
        · subst hj
          by_cases hcb : c = b
          · have hval : m'.type c (nearLink S.opposite) = .value := by
              rw [nearLink_opposite, htype c hc, hcb, retype_self]
            exact absurd (ht.symm.trans hval) (nearType_ne_value _)
          · rwa [hold hc (.inl hcb)] at ht
    · rcases mem_add.mp (hchain ▸ hc) with rfl | hc
      · rw [hhint]
        exact close_self _
      · rw [hhints _ c (hne hc)]
        exact (ha _).full c hc ((hold hc (.inr hlinks)).symm.trans ht)

theorem aligned_drop (h : m.Calm) (h' : m'.Calm) (e : m.EdgeAt S b (farValue S))
    (hj : m.Joined S b n) (hv : m.type b (farValue S) = .value) (hchain : m.chain = S.add n m'.chain)
    (htype : ∀ c ∈ m'.chain, m'.type c = retype m.type b (farLink S) (farType S) c)
    (hhint : m'.localHint = m.localHint) (ha : ∀ R, m.Aligned R) :
    m'.EdgeAt S b (farValue S) ∧ ∀ R, m'.Aligned R := by
  have hlinks : farLink S.opposite ≠ farLink S := nearLink_ne_farLink S
  have hmem {c : Address} (hc : c ∈ m'.chain) : c ∈ m.chain := hchain ▸ mem_add.mpr (.inr hc)
  have hold {c : Address} (hc : c ∈ m'.chain) {i : ℤ} (hi : c ≠ b ∨ i ≠ farLink S) :
      m'.type c i = m.type c i := by
    rw [htype c hc]
    exact retype_ne _ _ hi
  have hb : b ∈ m'.chain := by
    have hbn := ((h.shape.next_iff e.live).mp hj).ne h.shape.nodup.of_append_left
    exact (mem_add.mp (hchain ▸ e.live)).resolve_left hbn
  have hv' : m'.type b (farValue S) = .value :=
    (hold hb (.inr ((inner_farValue S).ne_farLink S))).trans hv
  have hl' : m'.type b (farLink S) = farType S := by rw [htype b hb, retype_self]
  have e₁ : m'.EdgeAt S b (farValue S) := .of_value hb hv' hl'
  refine ⟨e₁, fun R => ?_⟩
  rcases S.eq_or_eq_opposite R with rfl | rfl
  · refine aligned_of_edge h' e₁ (hhint ▸ (ha R).edge b _ e) fun c hc ht => ?_
    have hcb : c ≠ b := by
      rintro rfl
      exact value_ne_far R (ht.symm.trans hl')
    rw [hhint]
    exact (ha R).full c (hmem hc) ((hold hc (.inl hcb)).symm.trans ht)
  · refine ⟨fun c j e' => ?_, fun c hc ht => ?_⟩
    · rw [hhint]
      refine (ha _).edge c j (e'.transfer h h' (hmem e'.live) (fun x hx => ?_)
        (fun x _ hx k => ?_) fun hj ht => ?_)
      · rw [hchain]
        exact hx.add S n
      · rw [htype x hx]
        apply retype_far _ (far_ne_opposite S)
        rw [hj.1.1]
        exact value_ne_far _
      · subst hj
        by_cases hcb : c = b
        · have hf := e'.inner (nearLink_ne_farValue _)
          rw [nearLink_add, nearValue_opposite, hcb, hv'] at hf
          exact absurd hf (value_ne_far _)
        · rwa [hold e'.live (.inl hcb)] at ht
    · rw [hhint]
      exact (ha _).full c (hmem hc) ((hold hc (.inr hlinks)).symm.trans ht)

/-- A call that finds its hint fit keeps the hints close to the edges. -/
theorem Moves.aligned (hm : Moves S call m m') (h : m.Calm) (h' : m'.Calm)
    (hfit : m.HintFits S call) (ha : ∀ R, m.Aligned R) : ∀ R, m'.Aligned R := by
  induction hm with
  | stay _ _ => exact ha
  | interiorPush e hi hchain htype hhint =>
    exact aligned_interiorPush h h' e hi hchain htype hhint ha
  | append e hl hn hchain htype hprep hhint hhints =>
    exact aligned_append h h' e hl hn hchain htype hprep hhint hhints ha
  | straddle e hj hchain htype hhint =>
    have hn := (far_of_joined h e hj).1
    exact aligned_straddle h h' e hj hchain htype hhint (hfit _ e.live e _ hn hj) ha
  | interiorPop e hi hv hchain htype hhint =>
    exact aligned_interiorPop h h' e hi hv hchain htype hhint ha
  | boundaryPop e hl hv hchain htype hhint =>
    exact aligned_boundaryPop h h' e hv hchain htype hhint (hfit _ e.live e hv) ha
  | drop e hj hv hchain htype hhint hcalm _ ih =>
    obtain ⟨e₁, ha₁⟩ := aligned_drop h hcalm e hj hv hchain htype hhint ha
    refine ih hcalm h' (fun c _ e' _ => ?_) ha₁
    obtain ⟨rfl, -⟩ := e₁.unique hcalm e'
    rw [hhint]
    exact hfit _ e.live e hv

/-- A call that finds its hint unfit moves the edge away from it. -/
theorem Moves.not_close (hm : Moves S call m m') (h : m.Calm) (h' : m'.Calm)
    (hfit : ¬m.HintFits S call) (ha : ∀ R, m.Aligned R) : ¬m'.HintClose S := by
  intro hclose
  have hedge {b : Address} {i : ℤ} (e : m'.EdgeAt S b i) (hi : Inner i) :
      Close (m'.localHint S b) i := hclose b i (e.isEdge h'.shape.wellFormed) hi
  apply hfit
  clear hfit
  induction hm with
  | stay e ht =>
    intro c _ e' hv
    obtain ⟨rfl, rfl⟩ := e.unique h e'
    exact absurd (ht.symm.trans hv) (nearType_ne_value S)
  | interiorPush e hi _ _ _ =>
    intro c _ e' n _ _
    exact absurd (e.unique h e').2 hi
  | append e hl _ _ _ _ _ _ =>
    intro c _ e' n _ hj
    obtain ⟨rfl, -⟩ := e.unique h e'
    exact absurd (hl.symm.trans hj.1.1) (farType_ne_value S)
  | straddle e hj hchain htype hhint =>
    intro c _ e' n _ hj'
    obtain ⟨rfl, -⟩ := e.unique h e'
    obtain rfl := hj.1.2.symm.trans hj'.1.2
    rw [← hhint]
    exact hedge (edge_straddle h e hj hchain htype) (inner_nearValue S)
  | interiorPop e hi _ _ _ _ =>
    intro c _ e' _
    exact absurd (e.unique h e').2 hi
  | boundaryPop e _ hv hchain htype hhint =>
    intro c _ e' _
    obtain ⟨rfl, -⟩ := e.unique h e'
    have hprev := (inner_farValue S).prev S |>.resolve_left (nearValue_ne_farValue S).symm
    rw [← hhint]
    exact hedge (edge_pop h e.live (inner_farValue S) hprev hv hchain htype) hprev
  | drop e hj hv hchain htype hhint hcalm _ ih =>
    obtain ⟨e₁, ha₁⟩ := aligned_drop h hcalm e hj hv hchain htype hhint ha
    intro c _ e' _
    obtain ⟨rfl, -⟩ := e.unique h e'
    rw [← hhint]
    refine ih hcalm h' ha₁ hclose hedge _ e₁.live e₁ ?_
    rw [htype _ e₁.live, retype_ne _ _ (.inr ((inner_farValue S).ne_farLink S)), hv]

/-- A new deque has its edges and its local hints in the middle of its buffer. -/
theorem aligned_init (hm : m.Init) : ∀ R, m.Aligned R := by
  have h := calm_init hm
  obtain ⟨b, hb, -, -, -, hleft, hright, hl, hr⟩ := hm.buffer
  have hsize := four_le_bufferSize
  have hmem : b ∈ m.chain := hb ▸ List.mem_singleton_self b
  have hfull (R : Side) : ∀ c ∈ m.chain, m.type c (farLink R) = .value →
      Close (m.localHint R c) (farValue R) := by
    intro c hc ht
    obtain rfl := List.mem_singleton.mp (hb ▸ hc)
    have hf := h.shape.ends R c (by rw [hb]; cases R <;> rfl)
    exact absurd (ht.symm.trans hf) (value_ne_far R)
  intro R
  cases R with
  | left =>
    have e : m.EdgeAt .left b (bufferSize / 2) := by
      refine .of_peek hmem ?_ (fun he => ?_) ?_ (hl _ ?_ ?_)
      · exact ⟨by omega, by omega, by simp only [farLink]; omega⟩
      · simp only [nearLink, Side.opposite, farLink] at he
        omega
      · have ht := hr (bufferSize / 2) le_rfl (by omega)
        rw [Memory.reads, ht, SlotType.reads_of_ne (by decide)]
        decide
      · simp only [farDirection]
        omega
      · simp only [farDirection]
        omega
    exact aligned_of_edge h e (hleft ▸ close_self _) (hfull .left)
  | right =>
    have e : m.EdgeAt .right b (bufferSize / 2 - 1) := by
      refine .of_peek hmem ?_ (fun he => ?_) ?_ (hr _ ?_ ?_)
      · exact ⟨by omega, by omega, by simp only [farLink]; omega⟩
      · simp only [nearLink, Side.opposite, farLink] at he
        omega
      · have ht := hl (bufferSize / 2 - 1) (by omega) (by omega)
        rw [Memory.reads, ht, SlotType.reads_of_ne (by decide)]
        decide
      · simp only [farDirection]
        omega
      · simp only [farDirection]
        omega
    exact aligned_of_edge h e (hright ▸ close_self _) (hfull .right)

end Fits

section Reused

variable {o : Address → Owner τ} {dead retired : List Address} {stamp : Address → Side → ℕ}

/-- The past of a memory has no part in its edges. -/
theorem edgeAt_reuse : (m.reuse o dead retired stamp).EdgeAt S b i ↔ m.EdgeAt S b i :=
  ⟨fun e => ⟨e.live, e.near, e.first, e.notFar, e.inner, e.last⟩,
    fun e => ⟨e.live, e.near, e.first, e.notFar, e.inner, e.last⟩⟩

theorem Memory.Aligned.reuse (ha : m.Aligned S) : (m.reuse o dead retired stamp).Aligned S :=
  ⟨fun b i e => ha.edge b i (edgeAt_reuse.mp e), ha.full⟩

theorem hintFits_reuse :
    (m.reuse o dead retired stamp).HintFits S call ↔ m.HintFits S call := by
  cases call with
  | push w =>
    exact ⟨fun h b hb e => h b hb (edgeAt_reuse.mpr e), fun h b hb e => h b hb (edgeAt_reuse.mp e)⟩
  | pop =>
    exact ⟨fun h b hb e => h b hb (edgeAt_reuse.mpr e), fun h b hb e => h b hb (edgeAt_reuse.mp e)⟩

end Reused

section Runs

variable {k : ℕ}

/-- Calls are made one after another, and each finds its hint fit. -/
def Fitting (a : Fin k × Choice) (u : Pooled k × List Return) : Prop :=
  Alone a u ∧
    (u.1.deque.frames a.1 = none → u.1.deque.mem.HintFits a.2.call.1 a.2.call.2)

/-- In a sequential run whose calls find their hints fit, the local hints are close to
the edges after every call; a call that does not find its hint fit leaves it away from
the edge. -/
theorem hints_stay_close {u : Pooled k × List Return} (h : (recorded k).Run Fitting u)
    (hidle : ∀ q, u.1.deque.frames q = none) : (∀ S, u.1.deque.mem.HintClose S) ∧
      ∀ a u', (recorded k).step a u = some u' →
        ¬u.1.deque.mem.HintFits a.2.call.1 a.2.call.2 →
          (recorded k).Leads (fun b => b.1 = a.1) (Busy a.1)
            (Rests fun m => ¬m.HintClose a.2.call.1) u' := by
  have hkeep : KeptBy (fun m : Memory (Fin k) => ∀ R, m.Aligned R) Fitting := by
    intro a u hok hnone hcalm ha m r hr o retired stamp R
    have hfit : u.1.deque.mem.forget.HintFits a.2.call.1 a.2.call.2 :=
      hintFits_reuse.mpr (hok.2 hnone)
    exact (hr.moves.aligned hcalm hr.calm hfit ha R).reuse
  rcases run_inTurn (fun _ => aligned_init) hkeep (fun _ _ hok => hok.1) h with hr | ⟨tid, hb, -⟩
  · refine ⟨fun S b i e _ => ?_, ?_⟩
    · have he : u.1.deque.mem.forget.IsEdge S b i := e
      exact (hr.kept S).edge b i (he.edgeAt hr.calm)
    · rintro ⟨tid, c⟩ u' hs hfit
      rw [hr.started hs]
      refine leads_call hr fun m r hm o retired stamp => ?_
      have hunfit : ¬u.1.deque.mem.forget.HintFits c.call.1 c.call.2 :=
        fun hf => hfit (hintFits_reuse.mp hf)
      exact hm.moves.not_close hr.calm hm.calm hunfit hr.kept
  · exact absurd (hidle tid) hb.frame

instance (a : Fin k × Choice) (u : Pooled k × List Return) : Decidable (Fitting a u) :=
  inferInstanceAs (Decidable (_ ∧ _))

end Runs

end Drift

section Boundary

attribute [local instance] four

/-- A right push, pop and push. -/
def threeCalls : Pooled 2 × List Return :=
  ((recorded 2).exec Fitting (callSteps 14 first .right (.push 1) 1 ++
    callSteps 14 first .right .pop 1 ++ callSteps 15 first .right (.push 2) 1) newDeque).getD newDeque

/-- The next pop starts in a buffer whose hint does not fit. -/
theorem threeCalls_close : (∀ S, threeCalls.1.deque.mem.HintClose S) ∧
    ∃ u', (recorded 2).step (second, ⟨(.right, .pop), 1, 5, 0⟩) threeCalls = some u' ∧
      (recorded 2).Leads (fun b => b.1 = second) (Busy second)
        (Rests fun m => ¬m.HintClose .right) u' := by
  have hrun : (recorded 2).Run Fitting threeCalls :=
    Machine.Run.exec_getD _ (.start ⟨⟨init_constructed, rfl⟩, rfl⟩)
  have hend : (∀ q, threeCalls.1.deque.frames q = none) ∧
      ((recorded 2).step (second, ⟨(.right, .pop), 1, 5, 0⟩) threeCalls).isSome ∧
      ¬threeCalls.1.deque.mem.HintFits .right .pop := by decide +kernel
  obtain ⟨hidle, hsome, hfit⟩ := hend
  obtain ⟨hclose, hunfit⟩ := hints_stay_close hrun hidle
  obtain ⟨u', hs⟩ := Option.isSome_iff_exists.mp hsome
  exact ⟨hclose, u', hs, hunfit _ u' hs hfit⟩

/-- A right push, pop, push and pop. -/
def fourCalls : Pooled 2 × List Return :=
  ((recorded 2).exec Alone (callSteps 14 first .right (.push 1) 1 ++
    callSteps 14 first .right .pop 1 ++ callSteps 15 first .right (.push 2) 1 ++
      callSteps 14 first .right .pop 1) newDeque).getD newDeque

/-- Two values pushed and popped at the boundary leave the hint two slots off. -/
theorem not_hints_stay_close_alone : ¬∀ u : Pooled 2 × List Return,
    (recorded 2).Run Alone u → (∀ q, u.1.deque.frames q = none) →
      ∀ S, u.1.deque.mem.HintClose S := by
  intro hall
  have hrun : (recorded 2).Run Alone fourCalls := Machine.Run.exec_getD _ start_newDeque
  have hend : (∀ q, fourCalls.1.deque.frames q = none) ∧
      Side.toward .right fourCalls.1.deque.mem.places = [(0, 0)] ++ (0, 1) :: [(0, 2), (0, 3)] ∧
      fourCalls.1.deque.mem.reads 0 1 ≠ farType .right ∧
      (∀ p ∈ [((0 : Address), (2 : ℤ)), (0, 3)],
        fourCalls.1.deque.mem.readsAt p = farType .right) ∧
      ¬Close (fourCalls.1.deque.mem.localHint .right 0) 1 := by decide +kernel
  obtain ⟨hidle, hplaces, hreads, hfar, hunfit⟩ := hend
  have hedge : fourCalls.1.deque.mem.IsEdge .right 0 1 :=
    ⟨[(0, 0)], [(0, 2), (0, 3)], hplaces, by decide, hreads, hfar⟩
  exact hunfit (hall _ hrun hidle .right 0 1 hedge ⟨le_rfl, by decide⟩)

end Boundary
end UnboundedDeque.OFDeque
