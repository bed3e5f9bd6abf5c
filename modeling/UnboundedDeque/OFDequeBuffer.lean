import UnboundedDeque.DequeSide

/-!
# Slots and buffers of `OFDeque.hpp`

The two ends are treated alike through the indices of `OFDequeUtils`. The types
of one buffer's slots keep a shape under every store to a slot that the
operations make; a sealed slot is read as an empty slot of its end.
-/
namespace UnboundedDeque.OFDeque

/-- The template argument `BufferSize`. -/
class BufferSize where
  value : ℤ
  large : 4 ≤ value

def bufferSize [h : BufferSize] : ℤ := h.value

theorem four_le_bufferSize [h : BufferSize] : 4 ≤ bufferSize := h.large

/-- A value of at most four bytes or an address. -/
abbrev Word := ℕ

inductive SlotType
  | left | right | sealed | value
  deriving DecidableEq, Repr

/-- `Slot`. The union of `m_value` and `m_pLink` is one word. -/
structure Slot where
  word : Word
  count : ℕ
  type : SlotType
  deriving DecidableEq, Repr

/-- `GetFarType<S>()`. -/
def farType : Side → SlotType
  | .left => .left
  | .right => .right

def nearType (S : Side) : SlotType := farType S.opposite

/-- `GetFarDirection<S>()`. -/
def farDirection : Side → ℤ
  | .left => -1
  | .right => 1

variable {S R : Side} {i j : ℤ} {f : ℤ → SlotType} {t : SlotType}

section Types

@[simp] theorem farType_opposite (S : Side) : farType S.opposite = nearType S := rfl

@[simp] theorem nearType_opposite (S : Side) : nearType S.opposite = farType S := by
  simp [nearType]

@[simp] theorem farDirection_opposite (S : Side) :
    farDirection S.opposite = -farDirection S := by
  cases S <;> rfl

theorem farType_ne_nearType (S : Side) : farType S ≠ nearType S := by
  cases S <;> decide

theorem farType_inj (h : farType R = farType S) : R = S := by
  cases R <;> cases S <;> first | rfl | cases h

@[simp] theorem farType_ne_value (S : Side) : farType S ≠ .value := by
  cases S <;> decide

@[simp] theorem farType_ne_sealed (S : Side) : farType S ≠ .sealed := by
  cases S <;> decide

@[simp] theorem nearType_ne_value (S : Side) : nearType S ≠ .value := farType_ne_value _

@[simp] theorem nearType_ne_sealed (S : Side) : nearType S ≠ .sealed := farType_ne_sealed _

/-- Every type is the far type of the side, its near type, sealed or a value. -/
theorem SlotType.cases_side (S : Side) (t : SlotType) :
    t = farType S ∨ t = nearType S ∨ t = .sealed ∨ t = .value := by
  cases S <;> cases t <;> decide

end Types

variable [BufferSize]

/-- `GetFarLinkIndex<S>()`. -/
def farLink : Side → ℤ
  | .left => 0
  | .right => bufferSize - 1

def nearLink (S : Side) : ℤ := farLink S.opposite

/-- `GetFarValueIndex<S>()`. -/
def farValue : Side → ℤ
  | .left => 1
  | .right => bufferSize - 2

def nearValue (S : Side) : ℤ := farValue S.opposite

/-- The index of a slot for values. -/
def Inner (i : ℤ) : Prop := 1 ≤ i ∧ i ≤ bufferSize - 2

/-- The index of a slot with a successor towards `S`. -/
def Near (S : Side) (i : ℤ) : Prop := 0 ≤ i ∧ i ≤ bufferSize - 1 ∧ i ≠ farLink S

/-- The type a slot is read as when it stands at index `i`. -/
def SlotType.reads (i : ℤ) : SlotType → SlotType
  | .sealed => if i = 1 then .right else .left
  | t => t

section Indices

@[simp] theorem farLink_opposite (S : Side) : farLink S.opposite = nearLink S := rfl

@[simp] theorem nearLink_opposite (S : Side) : nearLink S.opposite = farLink S := by
  simp [nearLink]

@[simp] theorem farValue_opposite (S : Side) : farValue S.opposite = nearValue S := rfl

@[simp] theorem nearValue_opposite (S : Side) : nearValue S.opposite = farValue S := by
  simp [nearValue]

theorem farValue_add (S : Side) : farValue S + farDirection S = farLink S := by
  cases S <;> simp only [farValue, farDirection, farLink] <;> omega

theorem nearLink_add (S : Side) : nearLink S + farDirection S = nearValue S := by
  cases S <;> simp only [nearLink, Side.opposite, farDirection, farLink, nearValue, farValue] <;>
    omega

theorem inner_farValue (S : Side) : Inner (farValue S) := by
  have := four_le_bufferSize
  cases S <;> simp only [Inner, farValue] <;> omega

theorem inner_nearValue (S : Side) : Inner (nearValue S) := inner_farValue _

theorem nearValue_ne_farValue (S : Side) : nearValue S ≠ farValue S := by
  have := four_le_bufferSize
  cases S <;> simp only [nearValue, Side.opposite, farValue] <;> omega

theorem nearLink_ne_farLink (S : Side) : nearLink S ≠ farLink S := by
  have := four_le_bufferSize
  cases S <;> simp only [nearLink, Side.opposite, farLink] <;> omega

theorem nearLink_ne_farValue (S : Side) : nearLink S ≠ farValue S := by
  have := four_le_bufferSize
  cases S <;> simp only [nearLink, Side.opposite, farLink, farValue] <;> omega

theorem Inner.ne_farLink (h : Inner i) (S : Side) : i ≠ farLink S := by
  have := four_le_bufferSize
  cases S <;> simp only [Inner, farLink] at * <;> omega

theorem Inner.ne_nearLink (h : Inner i) (S : Side) : i ≠ nearLink S := h.ne_farLink _

theorem farLink_not_inner (S : Side) : ¬ Inner (farLink S) := fun h => h.ne_farLink S rfl

theorem Inner.near (h : Inner i) (S : Side) : Near S i := by
  have := four_le_bufferSize
  obtain ⟨h₁, h₂⟩ := h
  exact ⟨by omega, by omega, Inner.ne_farLink ⟨h₁, h₂⟩ S⟩

theorem near_nearLink (S : Side) : Near S (nearLink S) := by
  have := four_le_bufferSize
  refine ⟨?_, ?_, nearLink_ne_farLink S⟩ <;>
    cases S <;> simp only [nearLink, Side.opposite, farLink] <;> omega

/-- A slot with a successor is the near link slot or one for values. -/
theorem Near.cases (h : Near S i) : i = nearLink S ∨ Inner i := by
  have := four_le_bufferSize
  obtain ⟨h₁, h₂, h₃⟩ := h
  cases S <;> simp only [nearLink, Side.opposite, farLink, Inner] at * <;> omega

/-- The successor of a slot before the last one for values is one for values. -/
theorem Near.next (h : Near S i) (hne : i ≠ farValue S) : Inner (i + farDirection S) := by
  have := four_le_bufferSize
  obtain ⟨h₁, h₂, h₃⟩ := h
  cases S <;> simp only [farLink, farValue, farDirection, Inner] at * <;> omega

theorem Inner.next_ne_nearValue (h : Inner i) (S : Side) : i + farDirection S ≠ nearValue S := by
  obtain ⟨h₁, h₂⟩ := h
  cases S <;> simp only [nearValue, Side.opposite, farValue, farDirection] <;> omega

/-- A slot for values is the first one towards `S` or follows another one. -/
theorem Inner.prev (h : Inner i) (S : Side) :
    i = nearValue S ∨ Inner (i - farDirection S) := by
  obtain ⟨h₁, h₂⟩ := h
  cases S <;> simp only [nearValue, Side.opposite, farValue, farDirection, Inner] <;> omega

end Indices

section Reads

omit [BufferSize] in
theorem SlotType.reads_of_ne (h : t ≠ .sealed) (i : ℤ) : t.reads i = t := by
  cases t <;> first | rfl | exact absurd rfl h

omit [BufferSize] in
@[simp] theorem SlotType.reads_farType (S : Side) (i : ℤ) : (farType S).reads i = farType S :=
  reads_of_ne (by simp) i

omit [BufferSize] in
@[simp] theorem SlotType.reads_value (i : ℤ) : SlotType.value.reads i = .value := rfl

@[simp] theorem SlotType.reads_sealed_farValue (S : Side) :
    SlotType.sealed.reads (farValue S) = nearType S := by
  have := four_le_bufferSize
  cases S with
  | left => rfl
  | right =>
    have hne : bufferSize - 2 ≠ 1 := by omega
    simp [SlotType.reads, farValue, hne, nearType, Side.opposite, farType]

@[simp] theorem SlotType.reads_sealed_nearValue (S : Side) :
    SlotType.sealed.reads (nearValue S) = farType S := by
  rw [← farValue_opposite, reads_sealed_farValue, nearType_opposite]

/-- At the last slot for values only the far type itself is read as such. -/
theorem SlotType.eq_farType_of_reads (h : t.reads (farValue S) = farType S) : t = farType S := by
  by_cases ht : t = .sealed
  · rw [ht, reads_sealed_farValue] at h
    exact absurd h.symm (farType_ne_nearType S)
  · rwa [reads_of_ne ht] at h

end Reads

/-- The shape of a published buffer: link slots hold a link or are empty, the
empty slots of each end are contiguous, a link has no empty slot of its end
beside it, and a sealed slot stands beside a link. -/
structure BufferOk (f : ℤ → SlotType) : Prop where
  link : ∀ S, f (farLink S) = farType S ∨ f (farLink S) = .value
  closed : ∀ S i, Inner i → Inner (i + farDirection S) → (f i).reads i = farType S →
    (f (i + farDirection S)).reads (i + farDirection S) = farType S
  noFar : ∀ S, f (farLink S) = .value → f (farValue S) ≠ farType S
  sealedAt : ∀ i, Inner i → f i = .sealed → ∃ S, i = farValue S
  sealedLink : ∀ S, f (farValue S) = .sealed → f (farLink S) = .value

namespace BufferOk

/-- Beyond an empty slot of an end all slots for values are empty. -/
theorem beyond (h : BufferOk f) (hi : Inner i) (hf : (f i).reads i = farType S) (n : ℕ)
    (hn : Inner (i + n * farDirection S)) :
    (f (i + n * farDirection S)).reads (i + n * farDirection S) = farType S := by
  induction n with
  | zero => simpa using hf
  | succ n ih =>
    have hstep : i + (n + 1 : ℕ) * farDirection S = i + n * farDirection S + farDirection S := by
      push_cast
      ring
    have hin : Inner (i + n * farDirection S) := by
      obtain ⟨h₁, h₂⟩ := hi
      obtain ⟨h₃, h₄⟩ := hn
      cases S <;> simp only [Inner, farDirection] at * <;> push_cast at * <;> omega
    rw [hstep] at hn ⊢
    exact h.closed S _ hin hn (ih hin)

/-- An empty slot of an end makes the last slot for values empty too. -/
theorem farValue_of_reads (h : BufferOk f) (hi : Inner i) (hf : (f i).reads i = farType S) :
    f (farValue S) = farType S := by
  have hn : ∃ n : ℕ, farValue S = i + n * farDirection S := by
    obtain ⟨h₁, h₂⟩ := hi
    cases S with
    | left => exact ⟨(i - 1).toNat, by simp only [farValue, farDirection]; omega⟩
    | right =>
      exact ⟨(bufferSize - 2 - i).toNat, by simp only [farValue, farDirection]; omega⟩
  obtain ⟨n, hn⟩ := hn
  have hr := h.beyond hi hf n (hn ▸ inner_farValue S)
  rw [← hn] at hr
  exact SlotType.eq_farType_of_reads hr

/-- A buffer with an empty slot of an end is the last one towards it. -/
theorem farLink_of_reads (h : BufferOk f) (hi : Inner i) (hf : (f i).reads i = farType S) :
    f (farLink S) = farType S := by
  rcases h.link S with hl | hl
  · exact hl
  · exact absurd (h.farValue_of_reads hi hf) (h.noFar S hl)

/-- A sealed buffer is the last one towards the other end. -/
theorem farLink_of_sealed (h : BufferOk f) (hs : f (nearValue S) = .sealed) :
    f (farValue S) = farType S ∧ f (farLink S) = farType S := by
  have hr : (f (nearValue S)).reads (nearValue S) = farType S := by
    rw [hs, SlotType.reads_sealed_nearValue]
  exact ⟨h.farValue_of_reads (inner_nearValue S) hr, h.farLink_of_reads (inner_nearValue S) hr⟩

/-- If the first slot for values is empty, all of them are. -/
theorem reads_of_nearValue (h : BufferOk f)
    (hf : (f (nearValue S)).reads (nearValue S) = farType S) (hi : Inner i) :
    (f i).reads i = farType S := by
  have hn : ∃ n : ℕ, i = nearValue S + n * farDirection S := by
    obtain ⟨h₁, h₂⟩ := hi
    cases S with
    | left =>
      exact ⟨(bufferSize - 2 - i).toNat, by
        simp only [nearValue, Side.opposite, farValue, farDirection]; omega⟩
    | right =>
      exact ⟨(i - 1).toNat, by simp only [nearValue, Side.opposite, farValue, farDirection]; omega⟩
  obtain ⟨n, rfl⟩ := hn
  exact h.beyond (inner_nearValue S) hf n hi

/-- The stores of the operations, as changes of one slot's type. -/
theorem update_value (h : BufferOk f) (hj : Inner j) (hf : f j = farType S)
    (hprev : j ≠ nearValue S →
      (f (j - farDirection S)).reads (j - farDirection S) ≠ farType S) :
    BufferOk (Function.update f j .value) := by
  have hlink (R) : Function.update f j .value (farLink R) = f (farLink R) :=
    Function.update_of_ne (hj.ne_farLink R).symm _ _
  constructor
  · intro R
    rw [hlink]
    exact h.link R
  · intro R i hi hi' hr
    by_cases hij : i = j
    · subst hij
      rw [Function.update_self, SlotType.reads_value] at hr
      exact absurd hr.symm (farType_ne_value R)
    · rw [Function.update_of_ne hij] at hr
      by_cases hij' : i + farDirection R = j
      · exfalso
        rcases S.eq_or_eq_opposite R with rfl | rfl
        · rw [← hij'] at hprev
          apply hprev (hi.next_ne_nearValue R)
          rwa [add_sub_cancel_right]
        · rw [farDirection_opposite] at hij'
          have hj' : Inner (j + farDirection S) := by rwa [show j + farDirection S = i by omega]
          have hc := h.closed S j hj hj' (by rw [hf, SlotType.reads_farType])
          rw [show j + farDirection S = i by omega, hr] at hc
          exact farType_ne_nearType S hc.symm
      · rw [Function.update_of_ne hij']
        exact h.closed R i hi hi' hr
  · intro R hl
    rw [hlink] at hl
    by_cases hR : farValue R = j
    · rw [hR, Function.update_self]
      exact (farType_ne_value R).symm
    · rw [Function.update_of_ne hR]
      exact h.noFar R hl
  · intro i hi hs
    by_cases hij : i = j
    · rw [hij, Function.update_self] at hs
      cases hs
    · rw [Function.update_of_ne hij] at hs
      exact h.sealedAt i hi hs
  · intro R hs
    rw [hlink]
    by_cases hR : farValue R = j
    · rw [hR, Function.update_self] at hs
      cases hs
    · rw [Function.update_of_ne hR] at hs
      exact h.sealedLink R hs

theorem update_far (h : BufferOk f) (hj : Inner j) (hf : f j = .value)
    (hnext : f (j + farDirection S) = farType S) :
    BufferOk (Function.update f j (farType S)) := by
  have hlink (R) : Function.update f j (farType S) (farLink R) = f (farLink R) :=
    Function.update_of_ne (hj.ne_farLink R).symm _ _
  constructor
  · intro R
    rw [hlink]
    exact h.link R
  · intro R i hi hi' hr
    by_cases hij : i = j
    · subst hij
      rw [Function.update_self, SlotType.reads_farType] at hr
      obtain rfl := farType_inj hr
      have hne : i + farDirection S ≠ i := by cases S <;> simp [farDirection]
      rw [Function.update_of_ne hne, hnext, SlotType.reads_farType]
    · rw [Function.update_of_ne hij] at hr
      by_cases hij' : i + farDirection R = j
      · rcases S.eq_or_eq_opposite R with rfl | rfl
        · rw [hij', Function.update_self, SlotType.reads_farType]
        · rw [farDirection_opposite] at hij'
          rw [show i = j + farDirection S by omega, hnext, SlotType.reads_farType] at hr
          exact absurd hr (farType_ne_nearType S)
      · rw [Function.update_of_ne hij']
        exact h.closed R i hi hi' hr
  · intro R hl
    rw [hlink] at hl
    by_cases hR : farValue R = j
    · rw [hR, Function.update_self]
      intro he
      obtain rfl := farType_inj he
      rw [← hR, farValue_add, hl] at hnext
      exact farType_ne_value S hnext.symm
    · rw [Function.update_of_ne hR]
      exact h.noFar R hl
  · intro i hi hs
    by_cases hij : i = j
    · rw [hij, Function.update_self] at hs
      exact absurd hs (farType_ne_sealed S)
    · rw [Function.update_of_ne hij] at hs
      exact h.sealedAt i hi hs
  · intro R hs
    rw [hlink]
    by_cases hR : farValue R = j
    · rw [hR, Function.update_self] at hs
      exact absurd hs (farType_ne_sealed S)
    · rw [Function.update_of_ne hR] at hs
      exact h.sealedLink R hs

theorem update_sealed (h : BufferOk f) (hf : f (nearValue S) = farType S)
    (hl : f (nearLink S) = .value) :
    BufferOk (Function.update f (nearValue S) .sealed) := by
  have hlink (R) : Function.update f (nearValue S) .sealed (farLink R) = f (farLink R) :=
    Function.update_of_ne ((inner_nearValue S).ne_farLink R).symm _ _
  have hreads (i) : (Function.update f (nearValue S) .sealed i).reads i = (f i).reads i := by
    by_cases hi : i = nearValue S
    · rw [hi, Function.update_self, SlotType.reads_sealed_nearValue, hf, SlotType.reads_farType]
    · rw [Function.update_of_ne hi]
  constructor
  · intro R
    rw [hlink]
    exact h.link R
  · intro R i hi hi' hr
    rw [hreads] at hr ⊢
    exact h.closed R i hi hi' hr
  · intro R hR
    rw [hlink] at hR
    by_cases hj : farValue R = nearValue S
    · rw [hj, Function.update_self]
      exact (farType_ne_sealed R).symm
    · rw [Function.update_of_ne hj]
      exact h.noFar R hR
  · intro i hi hs
    by_cases hj : i = nearValue S
    · exact ⟨S.opposite, hj⟩
    · rw [Function.update_of_ne hj] at hs
      exact h.sealedAt i hi hs
  · intro R hs
    rw [hlink]
    rcases S.eq_or_eq_opposite R with rfl | rfl
    · rw [Function.update_of_ne (nearValue_ne_farValue R).symm] at hs
      exact h.sealedLink R hs
    · exact hl

theorem update_link (h : BufferOk f) (hf : f (farValue S) ≠ farType S) :
    BufferOk (Function.update f (farLink S) .value) := by
  have hin (i) (hi : Inner i) : Function.update f (farLink S) .value i = f i :=
    Function.update_of_ne (hi.ne_farLink S) _ _
  constructor
  · intro R
    by_cases hR : farLink R = farLink S
    · rw [hR, Function.update_self]
      exact .inr rfl
    · rw [Function.update_of_ne hR]
      exact h.link R
  · intro R i hi hi' hr
    rw [hin _ hi] at hr
    rw [hin _ hi']
    exact h.closed R i hi hi' hr
  · intro R hR
    rw [hin _ (inner_farValue R)]
    rcases S.eq_or_eq_opposite R with rfl | rfl
    · exact hf
    · rw [farLink_opposite, Function.update_of_ne (nearLink_ne_farLink S)] at hR
      exact h.noFar _ hR
  · intro i hi hs
    rw [hin _ hi] at hs
    exact h.sealedAt i hi hs
  · intro R hs
    rw [hin _ (inner_farValue R)] at hs
    by_cases hR : farLink R = farLink S
    · rw [hR, Function.update_self]
    · rw [Function.update_of_ne hR]
      exact h.sealedLink R hs

theorem update_unlink (h : BufferOk f) (hf : f (farValue S) ≠ .sealed) :
    BufferOk (Function.update f (farLink S) (farType S)) := by
  have hin (i) (hi : Inner i) : Function.update f (farLink S) (farType S) i = f i :=
    Function.update_of_ne (hi.ne_farLink S) _ _
  have hother : Function.update f (farLink S) (farType S) (farLink S.opposite) =
      f (farLink S.opposite) := Function.update_of_ne (nearLink_ne_farLink S) _ _
  constructor
  · intro R
    rcases S.eq_or_eq_opposite R with rfl | rfl
    · rw [Function.update_self]
      exact .inl rfl
    · rw [hother]
      exact h.link _
  · intro R i hi hi' hr
    rw [hin _ hi] at hr
    rw [hin _ hi']
    exact h.closed R i hi hi' hr
  · intro R hR
    rw [hin _ (inner_farValue R)]
    rcases S.eq_or_eq_opposite R with rfl | rfl
    · rw [Function.update_self] at hR
      exact absurd hR (farType_ne_value R)
    · rw [hother] at hR
      exact h.noFar _ hR
  · intro i hi hs
    rw [hin _ hi] at hs
    exact h.sealedAt i hi hs
  · intro R hs
    rw [hin _ (inner_farValue R)] at hs
    rcases S.eq_or_eq_opposite R with rfl | rfl
    · exact absurd hs hf
    · rw [hother]
      exact h.sealedLink _ hs

/-- A buffer as `doPush` prepares it: empty up to one value beside its link. -/
theorem prepared (hlink : f (nearLink S) = .value) (hvalue : f (nearValue S) = .value)
    (hfar : f (farLink S) = farType S)
    (hrest : ∀ i, Inner i → i ≠ nearValue S → f i = farType S) : BufferOk f := by
  constructor
  · intro R
    rcases S.eq_or_eq_opposite R with rfl | rfl
    · exact .inl hfar
    · exact .inr hlink
  · intro R i hi hi' hr
    by_cases hn : i = nearValue S
    · rw [hn, hvalue, SlotType.reads_value] at hr
      exact absurd hr.symm (farType_ne_value R)
    · rw [hrest i hi hn, SlotType.reads_farType] at hr
      obtain rfl := farType_inj hr
      rw [hrest _ hi' (hi.next_ne_nearValue S), SlotType.reads_farType]
  · intro R hR
    rcases S.eq_or_eq_opposite R with rfl | rfl
    · rw [hfar] at hR
      exact absurd hR (farType_ne_value R)
    · rw [farValue_opposite, hvalue]
      exact (farType_ne_value _).symm
  · intro i hi hs
    by_cases hn : i = nearValue S
    · rw [hn, hvalue] at hs
      cases hs
    · rw [hrest i hi hn] at hs
      exact absurd hs (farType_ne_sealed S)
  · intro R hs
    rcases S.eq_or_eq_opposite R with rfl | rfl
    · rw [hrest _ (inner_farValue R) (nearValue_ne_farValue R).symm] at hs
      exact absurd hs (farType_ne_sealed R)
    · exact hlink

/-- `Buffer::fill(split)`. -/
theorem filled {split : ℤ} (hl : ∀ i, 0 ≤ i → i < split → f i = .left)
    (hr : ∀ i, split ≤ i → i < bufferSize → f i = .right)
    (hsplit : 1 < split ∧ split < bufferSize - 1) : BufferOk f := by
  have hsize := four_le_bufferSize
  have hf : ∀ i, 0 ≤ i → i < bufferSize → f i = if i < split then .left else .right := by
    intro i h₀ h₁
    split_ifs with h
    · exact hl i h₀ h
    · exact hr i (by omega) h₁
  constructor
  · intro S
    cases S with
    | left => exact .inl (hl _ le_rfl (by simp only [farLink]; omega))
    | right => exact .inl (hr _ (by simp only [farLink]; omega) (by simp only [farLink]; omega))
  · rintro S i ⟨h₁, h₂⟩ ⟨h₃, h₄⟩ hi
    rw [hf i (by omega) (by omega)] at hi
    rw [hf _ (by omega) (by omega)]
    cases S with
    | left =>
      have : i < split := by
        by_contra hge
        rw [if_neg hge] at hi
        cases hi
      rw [if_pos (by simp only [farDirection]; omega)]
      rfl
    | right =>
      have : ¬ i < split := by
        intro hlt
        rw [if_pos hlt] at hi
        cases hi
      rw [if_neg (by simp only [farDirection]; omega)]
      rfl
  · intro S hS
    cases S with
    | left =>
      rw [hl _ (by simp [farLink]) (by simp only [farLink]; omega)] at hS
      cases hS
    | right =>
      rw [hr _ (by simp only [farLink]; omega) (by simp only [farLink]; omega)] at hS
      cases hS
  · rintro i ⟨h₁, h₂⟩ hs
    rw [hf i (by omega) (by omega)] at hs
    split_ifs at hs
  · intro S hs
    obtain ⟨h₁, h₂⟩ := inner_farValue S
    rw [hf _ (by omega) (by omega)] at hs
    split_ifs at hs

end BufferOk
end UnboundedDeque.OFDeque
