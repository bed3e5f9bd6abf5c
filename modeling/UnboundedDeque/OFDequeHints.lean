import UnboundedDeque.OFDequeRuns

/-!
# Hints are moved off an unlinked buffer

A hint compare-exchange names a buffer that was live after its expected hint was
read. So once a hint is newer than the unlinking of a buffer and names another
one, no compare-exchange under way can put the buffer back.
-/
namespace UnboundedDeque.OFDeque
open StepMachine

section Hints

variable {τ : Type*} {m m' : Memory τ} {S R : Side} {tid q : τ}
  {call : Call Word} {v : View} {b n : Address} {i : ℤ} {c : Choice} {a : Action} {pt : Point}
  {x reach : Slot} {k : Attempt} {s t : State τ} {h h' : Hint} {u : Update}

/-- The hint of its side that a call goes by. -/
def Point.hint : Point → Option Hint
  | .hintReserve h | .hintCheck h | .near h _ _ | .far h _ _ _ | .casHint h _ _ => some h
  | .findLocal f | .findSlot f _ | .findPeek f _ | .findSealed f _ | .findReserve f _ _
  | .findValidate f _ _ | .findNeighbor f _ _ => some f.hint
  | .alloc v | .initLeft v _ | .initRight v _ | .fill v _ _ | .insertLink v _ | .insertValue v _
  | .reach v | .back v _ | .recheck v _ | .safe v _ | .effect v _ | .updThreshold v _ _
  | .updLoad v _ _ _ | .updFirst v _ _ | .updSecond v _ _ _ | .updThird v _ _ _ _
  | .updLink v _ _ _ | .updReserve v _ _ _ | .updValidate v _ _ _ | .updCas v _ _
  | .retire v _ => some v.hint
  | .hintLoad | .failed | .addLocal _ _ _ | .clearFirst _ | .clearSecond _ => none

/-- The buffer a call is about to retire. -/
def Point.retiring : Point → Option Address
  | .updThreshold _ n _ | .updLoad _ n _ _ | .updFirst _ n _ | .updSecond _ n _ _
  | .updThird _ n _ _ _ | .updLink _ n _ _ | .updReserve _ n _ _ | .updValidate _ n _ _
  | .updCas _ n _ | .retire _ n => some n
  | _ => none

namespace Memory

/-- The hint of a side has been moved off an unlinked buffer. -/
def Cleared (m : Memory τ) (n : Address) (S : Side) : Prop :=
  (m.hint S).buffer ≠ n ∧ m.stamp n S < (m.hint S).count

/-- A hint read at or before the unlinking of a buffer that a compare-exchange may
put into the hint. -/
def Pending (m : Memory τ) (S : Side) (h : Hint) (b : Address) : Prop :=
  b ∈ m.dead → h.count ≤ m.stamp b S

/-- `retire` before the update of the hint `R`. -/
structure Retiring (m : Memory τ) (n : Address) (R : Side) : Prop where
  dead : n ∈ m.dead
  fresh : n ∉ m.retired
  stamped : ∀ S, m.stamp n S ≤ (m.hint S).count
  left : R = .right → m.Cleared n .left

/-- `updateHint` with its hint loaded. -/
structure Updating (m : Memory τ) (n : Address) (u : Update) : Prop extends
    m.Retiring n u.side where
  threshold : m.stamp n u.side ≤ u.threshold
  loaded : u.threshold ≤ u.hint.count
  held : u.hint.count ≤ (m.hint u.side).count
  cleared : m.stamp n u.side < u.hint.count → u.hint.buffer ≠ n → m.Cleared n u.side
  start : u.hazSlot = none → u.buffer = u.hint.buffer

/-- The buffer that `updateHint` may put into the hint. -/
def Active (m : Memory τ) (n : Address) (u : Update) : Prop :=
  u.buffer ≠ n ∧ m.Pending u.side u.hint u.buffer

end Memory

/-- What a point knows about hints. -/
def Point.Hints (m : Memory τ) (S : Side) : Point → Prop
  | .casHint h b _ => m.Pending S h b
  | .updThreshold _ n R => m.Retiring n R
  | .updLoad _ n R t => m.Retiring n R ∧ m.stamp n R ≤ t ∧ t ≤ (m.hint R).count
  | .updFirst _ n u => m.Updating n u
  | .updSecond _ n u n0 => m.Updating n u ∧ m.Seen u.buffer 1 n0
  | .updThird _ n u n0 n1 => m.Updating n u ∧ m.Seen u.buffer 1 n0 ∧
    (n0.type ≠ .sealed → n1.type ≠ .sealed → (m.slot u.buffer 1).count = n0.count → m.Active n u)
  | .updLink _ n u _ | .updReserve _ n u _ | .updValidate _ n u _ =>
    m.Updating n u ∧ u.hazSlot ≠ none
  | .updCas _ n u => m.Updating n u ∧ m.Active n u
  | .retire _ n => n ∈ m.dead ∧ n ∉ m.retired ∧ ∀ S, m.Cleared n S
  | _ => True

/-- What the hints and the unlinked buffers keep to. -/
structure HintLater (m m' : Memory τ) : Prop where
  count : ∀ S, (m.hint S).count ≤ (m'.hint S).count
  dead : ∀ n, n ∈ m.dead → n ∈ m'.dead
  stamp : ∀ n S, n ∈ m.dead → m'.stamp n S = m.stamp n S
  stamped : ∀ n S, n ∉ m.dead → n ∈ m'.dead → (m.hint S).count ≤ m'.stamp n S
  cleared : ∀ n S, n ∈ m.dead → m.Cleared n S → m'.Cleared n S

section Stability

theorem pending_later (hl : HintLater m m') (hc : h.count ≤ (m.hint S).count)
    (hp : m.Pending S h b) : m'.Pending S h b := by
  intro hd
  by_cases hd' : b ∈ m.dead
  · rw [hl.stamp b S hd']
    exact hp hd'
  · exact hc.trans (hl.stamped b S hd' hd)

theorem retiring_later (hl : HintLater m m') (hn : n ∉ m'.retired) (hr : m.Retiring n R) :
    m'.Retiring n R where
  dead := hl.dead n hr.dead
  fresh := hn
  stamped S := by
    rw [hl.stamp n S hr.dead]
    exact (hr.stamped S).trans (hl.count S)
  left hR := hl.cleared n _ hr.dead (hr.left hR)

theorem updating_later (hl : HintLater m m') (hn : n ∉ m'.retired) (hu : m.Updating n u) :
    m'.Updating n u where
  toRetiring := retiring_later hl hn hu.toRetiring
  threshold := by
    rw [hl.stamp n _ hu.dead]
    exact hu.threshold
  loaded := hu.loaded
  held := hu.held.trans (hl.count _)
  cleared hlt hne := by
    rw [hl.stamp n _ hu.dead] at hlt
    exact hl.cleared n _ hu.dead (hu.cleared hlt hne)
  start := hu.start

theorem active_later (hl : HintLater m m') (hu : m.Updating n u) (ha : m.Active n u) :
    m'.Active n u :=
  ⟨ha.1, pending_later hl hu.held ha.2⟩

variable [BufferSize]

/-- What the others do keeps what a call knows. -/
theorem Point.Hints.later (hl : HintLater m m') (hlater : Later m m')
    (hf : pt.Facts m tid S call) (hheld : ∀ h, pt.hint = some h → h.count ≤ (m.hint S).count)
    (hfresh : ∀ n, pt.retiring = some n → n ∉ m'.retired) (hp : pt.Hints m S) :
    pt.Hints m' S := by
  cases pt with
  | casHint h b r => exact pending_later hl (hheld h rfl) hp
  | updThreshold v n R => exact retiring_later hl (hfresh n rfl) hp
  | updLoad v n R t =>
    obtain ⟨hr, ht, ht'⟩ := hp
    refine ⟨retiring_later hl (hfresh n rfl) hr, ?_, ht'.trans (hl.count R)⟩
    rw [hl.stamp n R hr.dead]
    exact ht
  | updFirst v n u => exact updating_later hl (hfresh n rfl) hp
  | updSecond v n u n0 =>
    exact ⟨updating_later hl (hfresh n rfl) hp.1, hlater.seen hf.1.updBuffer hp.2⟩
  | updThird v n u n0 n1 =>
    obtain ⟨hu, hs, ha⟩ := hp
    refine ⟨updating_later hl (hfresh n rfl) hu, hlater.seen hf.1.updBuffer hs,
      fun h₀ h₁ hc => ?_⟩
    have hslot := hlater.slot_of_current hf.1.updBuffer hs hc
    exact active_later hl hu (ha h₀ h₁ (hslot ▸ hc))
  | updLink v n u i => exact ⟨updating_later hl (hfresh n rfl) hp.1, hp.2⟩
  | updReserve v n u p => exact ⟨updating_later hl (hfresh n rfl) hp.1, hp.2⟩
  | updValidate v n u p => exact ⟨updating_later hl (hfresh n rfl) hp.1, hp.2⟩
  | updCas v n u =>
    exact ⟨updating_later hl (hfresh n rfl) hp.1, active_later hl hp.1 hp.2⟩
  | retire v n =>
    exact ⟨hl.dead n hp.1, hfresh n rfl, fun S => hl.cleared n S hp.1 (hp.2.2 S)⟩
  | _ => trivial

/-- An action that changes a hint does so from a hint that may be replaced by the
new one. -/
def Action.HintOk (m : Memory τ) : Action → Prop
  | .setHint S x => x.count = (m.hint S).count + 1 ∧ m.Pending S (m.hint S) x.buffer
  | _ => True

variable [DecidableEq τ]

theorem hintLater_act (hs : Shape m) (ha : m.Allowed tid a) (hok : a.HintOk m) :
    HintLater m (m.act tid a) := by
  have hsame (hh : (m.act tid a).hint = m.hint) (hd : (m.act tid a).dead = m.dead)
      (ht : (m.act tid a).stamp = m.stamp) : HintLater m (m.act tid a) := by
    constructor
    · exact fun S => by rw [hh]
    · exact fun n hn => by rwa [hd]
    · exact fun n S _ => by rw [ht]
    · intro n S hn hn'
      rw [hd] at hn'
      exact absurd hn' hn
    · intro n S _ hc
      rw [Memory.Cleared, hh, ht]
      exact hc
  cases a with
  | unlink R b n w =>
    obtain ⟨hb, hj, -⟩ := ha
    have hlive := (hs.live_joined hb hj).2
    have hne {p : Address} (hp : p ∈ m.dead) : p ≠ n := by
      rintro rfl
      exact List.disjoint_of_nodup_append hs.nodup hlive hp
    have hstamp {p : Address} (hp : p ∈ m.dead) (S : Side) :
        (m.act tid (.unlink R b n w)).stamp p S = m.stamp p S :=
      congrFun (Function.update_of_ne (hne hp) _ _) S
    constructor
    · exact fun S => le_rfl
    · exact fun p hp => List.mem_cons_of_mem n hp
    · exact fun p S hp => hstamp hp S
    · intro p S hp hp'
      obtain rfl : p = n := (List.mem_cons.mp hp').resolve_right hp
      change (m.hint S).count ≤ Function.update m.stamp p (fun R => (m.hint R).count) p S
      rw [Function.update_self]
    · intro p S hp hc
      rw [Memory.Cleared, hstamp hp S]
      exact hc
  | setHint R x =>
    obtain ⟨hcount, hpend⟩ := hok
    have hhint (S : Side) : (m.act tid (.setHint R x)).hint S = if S = R then x else m.hint S :=
      Function.update_apply _ _ _ _
    constructor
    · intro S
      rw [hhint]
      split_ifs with hS
      · rw [hS, hcount]
        exact Nat.le_succ _
      · exact le_rfl
    · exact fun n hn => hn
    · exact fun n S _ => rfl
    · exact fun n S hn hn' => absurd hn' hn
    · intro n S hn hc
      obtain ⟨hne, hlt⟩ := hc
      rw [Memory.Cleared, hhint]
      split_ifs with hS
      · subst hS
        change x.buffer ≠ n ∧ m.stamp n S < x.count
        refine ⟨?_, by omega⟩
        rintro rfl
        exact absurd (hpend hn) (not_le.mpr hlt)
      · exact ⟨hne, hlt⟩
  | _ => exact hsame rfl rfl rfl

end Stability

section Held

/-- The point goes by this hint or by none. -/
def Point.Holds (pt : Point) (h : Hint) : Prop := pt.hint = none ∨ pt.hint = some h

theorem holds_of_goes (hp : pt.Goes v) : pt.Holds v.hint := by
  cases hp with
  | again => exact .inl rfl
  | _ => exact .inr rfl

variable [BufferSize]

theorem holds_findSwitch (f : Find) : (findSwitch S f i x).Holds f.hint := by
  unfold findSwitch
  split_ifs <;> first | exact .inr rfl | exact .inl rfl

omit [BufferSize] in
theorem holds_doneNext : (k.doneNext S v).Holds v.hint := by
  cases k with
  | «seal» n reach =>
    have hp : (Attempt.doneNext S v (.seal n reach)).Goes v.countNear := goes_popRemove
    have hh : Point.Holds _ v.countNear.hint := holds_of_goes hp
    exact hh
  | interiorPush => exact .inl rfl
  | interiorPop => exact .inl rfl
  | _ => exact .inr rfl

omit [BufferSize] in
theorem holds_updDone : (updDone v n R).Holds v.hint := by
  cases R <;> exact .inr rfl

theorem holds_updSealed : (updSealed v n u i).Holds v.hint := by
  unfold updSealed
  cases u.hazSlot with
  | none =>
    dsimp only
    split_ifs
    · exact holds_updDone
    · exact .inr rfl
    · exact .inr rfl
  | some z =>
    dsimp only
    split_ifs <;> first | exact .inr rfl | exact .inl rfl

variable [DecidableEq τ]

/-- A call keeps its hint until it loads one again. -/
theorem hint_next {p : Point} (hn : next m c tid S call pt = some (a, some p)) :
    (∃ h, pt.hint = some h ∧ p.Holds h) ∨ p.Holds (m.hint S) := by
  have keep {h : Hint} (he : pt.hint = some h) (hp : p.Holds h) :
      (∃ h, pt.hint = some h ∧ p.Holds h) ∨ p.Holds (m.hint S) := .inl ⟨h, he, hp⟩
  cases pt with
  | hintLoad =>
    cases hn
    exact .inr (.inr rfl)
  | findSlot f i =>
    cases hn
    exact keep rfl (holds_findSwitch f)
  | far y b i x =>
    cases hn
    exact keep rfl (holds_of_goes (goes_checkEdge _))
  | back v x =>
    cases hn
    apply keep rfl
    split_ifs
    · exact .inl rfl
    · cases call with
      | push w => exact holds_of_goes goes_pushStraddle
      | pop => exact holds_of_goes goes_popSeal
  | safe v k =>
    simp only [next] at hn
    split_ifs at hn
    · cases hn
      exact keep rfl (.inr rfl)
    · cases hn
      exact keep rfl (holds_of_goes goes_unsafeNext)
  | effect v k =>
    simp only [next] at hn
    split_ifs at hn
    · cases hn
      exact keep rfl holds_doneNext
    · cases hn
      exact keep rfl (holds_of_goes (v := v.countNear) goes_missedNext)
  | updThird v n u y z =>
    cases hn
    apply keep rfl
    split_ifs
    · exact holds_updSealed
    · exact .inr rfl
  | updCas v n u =>
    simp only [next] at hn
    split_ifs at hn
    · cases hn
      exact keep rfl holds_updDone
    · cases hn
      exact keep rfl (.inr rfl)
  | retire v n =>
    cases hn
    exact keep rfl (holds_of_goes goes_afterRemove)
  | hintCheck y =>
    cases hn
    apply keep rfl
    split_ifs
    · exact .inr rfl
    · exact .inl rfl
  | findPeek f i =>
    cases hn
    apply keep rfl
    split_ifs <;> exact .inr rfl
  | findValidate f n j =>
    cases hn
    apply keep rfl
    split_ifs
    · exact .inl rfl
    · exact .inr rfl
  | findNeighbor f n j =>
    cases hn
    apply keep rfl
    split <;> exact .inr rfl
  | recheck v k =>
    cases hn
    apply keep rfl
    split_ifs
    · exact .inl rfl
    · exact .inr rfl
  | updValidate v n u y =>
    cases hn
    apply keep rfl
    split_ifs <;> exact .inr rfl
  | alloc v =>
    simp only [next] at hn
    split_ifs at hn
    cases hn
    exact keep rfl (.inr rfl)
  | fill v n i =>
    simp only [next] at hn
    split_ifs at hn <;> · cases hn; exact keep rfl (.inr rfl)
  | failed => cases hn
  | addLocal b d r =>
    cases hn
    exact .inr (.inl rfl)
  | casHint y b r =>
    cases hn
    exact .inr (.inl rfl)
  | clearFirst r =>
    cases hn
    exact .inr (.inl rfl)
  | clearSecond r => cases hn
  | _ =>
    cases hn
    exact keep rfl (.inr rfl)

end Held

section Steps

theorem hints_of_goes (hp : pt.Goes v) : pt.Hints m S := by
  cases hp <;> trivial

variable [DecidableEq τ] [BufferSize]

theorem next_hintOk {p : Option Point} (hp : pt.Hints m S)
    (hn : next m c tid S call pt = some (a, p)) : a.HintOk m := by
  cases pt with
  | casHint h b r =>
    simp only [next, Option.some.injEq, Prod.mk.injEq] at hn
    obtain ⟨rfl, -⟩ := hn
    split_ifs with hh
    · subst hh
      exact ⟨rfl, hp⟩
    · trivial
  | updCas v n u =>
    simp only [next] at hn
    split_ifs at hn with hh
    · cases hn
      refine ⟨congrArg (fun h : Hint => h.count + 1) hh.symm, ?_⟩
      rw [hh]
      exact hp.2.2
    · cases hn
      trivial
  | effect v k =>
    simp only [next] at hn
    split_ifs at hn
    · cases hn
      cases k <;> trivial
    · cases hn
      trivial
  | alloc v =>
    simp only [next] at hn
    split_ifs at hn
    cases hn
    trivial
  | fill v n i =>
    simp only [next] at hn
    split_ifs at hn <;> · cases hn; trivial
  | safe v k =>
    simp only [next] at hn
    split_ifs at hn <;> · cases hn; trivial
  | failed => cases hn
  | _ =>
    cases hn
    trivial

omit [DecidableEq τ] in
theorem not_dead_of_live (hs : Shape m) (hb : b ∈ m.chain) : b ∉ m.dead :=
  List.disjoint_of_nodup_append hs.nodup hb

omit [DecidableEq τ] in
theorem pending_of_live (hs : Shape m) (hb : b ∈ m.chain) : m.Pending S h b := fun hd =>
  absurd hd (not_dead_of_live hs hb)

/-- After a second compare-exchange the buffer for the hint is live, and an
unlinked buffer has not been retired before. -/
theorem doneNext_hints {w : Word} (hs : Shape m) (hv : m.ViewOk S v)
    (hr : k.Ready m tid S call v) (ha : m.Allowed tid (k.action S call v w))
    (hret : ∀ n ∈ m.retired, n ∈ m.dead) :
    (k.doneNext S v).Hints (m.act tid (k.action S call v w)) S := by
  have hs' := hs.act ha
  cases k with
  | append n => exact pending_of_live hs' (mem_add.mpr (.inl rfl))
  | straddle n x =>
    apply pending_of_live hs'
    apply hs'.live_of_value ((hs.later ha).published n hr.2.2.1) (inner_nearValue S)
    exact m.type_cas n (nearValue S) (pushedValue call) .value
  | boundaryPop =>
    apply pending_of_live hs'
    exact hs.live_of_value hv.buffer ha.2.1 ha.2.2.1
  | remove n =>
    obtain ⟨hb, hj, -⟩ := ha
    have hlive := (hs.live_joined hb hj).2
    refine ⟨List.mem_cons_self, fun hn => ?_, fun S => ?_, fun hR => by cases hR⟩
    · exact not_dead_of_live hs hlive (hret n hn)
    · exact (congrFun (Function.update_self n _ m.stamp) S).le
  | «seal» n x =>
    have hp : (Attempt.doneNext S v (.seal n x)).Goes v.countNear := goes_popRemove
    exact hints_of_goes hp
  | _ => trivial

omit [DecidableEq τ] [BufferSize] in
theorem updDone_hints (hr : m.Retiring n R) (hc : m.Cleared n R) : (updDone v n R).Hints m S := by
  cases R with
  | left => exact ⟨hr.dead, hr.fresh, hr.stamped, fun _ => hc⟩
  | right =>
    refine ⟨hr.dead, hr.fresh, fun S => ?_⟩
    cases S with
    | left => exact hr.left rfl
    | right => exact hc

omit [DecidableEq τ] in
theorem sealedIndex_eq {n0 n1 : Slot} (hi : sealedIndex n0 n1 = -1) :
    n0.type ≠ .sealed ∧ n1.type ≠ .sealed := by
  have hsize := four_le_bufferSize
  unfold sealedIndex at hi
  split_ifs at hi with h₀ h₁
  · omega
  · exact ⟨h₀, h₁⟩

omit [DecidableEq τ] in
theorem updSealed_hints {n0 n1 : Slot} (hu : m.Updating n u)
    (ha : n0.type ≠ .sealed → n1.type ≠ .sealed → m.Active n u) :
    (updSealed v n u (sealedIndex n0 n1)).Hints m S := by
  unfold updSealed
  cases hz : u.hazSlot with
  | none =>
    dsimp only
    split_ifs with hi ht
    · obtain ⟨h₀, h₁⟩ := sealedIndex_eq hi
      apply updDone_hints hu.toRetiring
      apply hu.cleared (lt_of_le_of_lt hu.threshold ht)
      rw [← hu.start hz]
      exact (ha h₀ h₁).1
    · obtain ⟨h₀, h₁⟩ := sealedIndex_eq hi
      exact ⟨hu, ha h₀ h₁⟩
    · exact { hu with start := fun hz' => by cases hz' }
  | some z =>
    have hne : u.hazSlot ≠ none := by simp [hz]
    dsimp only
    split_ifs with hi hfar hnear
    · obtain ⟨h₀, h₁⟩ := sealedIndex_eq hi
      exact ⟨hu, ha h₀ h₁⟩
    · exact ⟨hu, hne⟩
    · exact ⟨hu, hne⟩
    · trivial

omit [DecidableEq τ] in
/-- A buffer neither end of which is sealed is live. -/
theorem live_of_unsealed (hs : Shape m) (hb : m.Published b) (h₀ : m.type b 1 ≠ .sealed)
    (h₁ : m.type b (bufferSize - 2) ≠ .sealed) : b ∈ m.chain := by
  apply Shape.live_of_not_dead hb
  intro hd
  obtain ⟨R, p, hsealed, -⟩ := hs.of_dead hd
  cases R with
  | left => exact h₁ hsealed
  | right => exact h₀ hsealed

/-- What a call knows after a step of its own. -/
theorem next_hints {p : Point} (hs : Shape m) (hk : pt.Knows m tid S call) (hp : pt.Hints m S)
    (hret : ∀ n ∈ m.retired, n ∈ m.dead) (ha : m.Allowed tid a)
    (hn : next m c tid S call pt = some (a, some p)) : p.Hints (m.act tid a) S := by
  have hl := hintLater_act hs ha (next_hintOk hp hn)
  cases pt with
  | effect v k =>
    simp only [next] at hn
    split_ifs at hn
    · cases hn
      exact doneNext_hints hs hk.1.1 hk.1.2.1 ha hret
    · cases hn
      exact hints_of_goes goes_missedNext
  | updThreshold v n R =>
    cases hn
    exact ⟨hp, hp.stamped R, le_rfl⟩
  | updLoad v n R t =>
    cases hn
    obtain ⟨hr, ht, ht'⟩ := hp
    exact ⟨hr, ht, ht', le_rfl, fun hlt hne => ⟨hne, hlt⟩, fun _ => rfl⟩
  | updFirst v n u =>
    cases hn
    exact ⟨hp, m.seen_self _ _⟩
  | updSecond v n u n0 =>
    cases hn
    obtain ⟨hu, hseen⟩ := hp
    refine ⟨hu, hseen, fun h₀ h₁ hc => ?_⟩
    have hlive : u.buffer ∈ m.chain := by
      apply live_of_unsealed hs hk.1.1.updBuffer _ h₁
      rw [(hseen.2 hc).1]
      exact h₀
    exact ⟨fun he => not_dead_of_live hs hlive (he ▸ hu.dead), pending_of_live hs hlive⟩
  | updThird v n u n0 n1 =>
    cases hn
    split_ifs with hc
    · exact updSealed_hints hp.1 fun h₀ h₁ => hp.2.2 h₀ h₁ hc.symm
    · exact hp.1
  | updLink v n u i =>
    cases hn
    exact hp
  | updReserve v n u y =>
    cases hn
    obtain ⟨hu, hz⟩ := hp
    have hz' : u.hazSlot.map (!·) ≠ none := mt Option.map_eq_none_iff.mp hz
    exact ⟨{ hu with start := fun he => absurd he hz' }, hz'⟩
  | updValidate v n u y =>
    cases hn
    obtain ⟨hu, hz⟩ := hp
    split_ifs with hc
    · exact ⟨hu.toRetiring, hu.threshold, hu.loaded.trans hu.held⟩
    · exact { hu with start := fun he => absurd he hz }
  | updCas v n u =>
    simp only [next] at hn
    split_ifs at hn with hh
    · cases hn
      obtain ⟨hu, hact⟩ := hp
      apply updDone_hints (retiring_later hl hu.fresh hu.toRetiring)
      have hhint : (m.act tid (.setHint u.side ⟨u.buffer, u.hint.count + 1⟩)).hint u.side =
          ⟨u.buffer, u.hint.count + 1⟩ := Function.update_self _ _ _
      rw [Memory.Cleared, hhint]
      exact ⟨hact.1, Nat.lt_succ_of_le (hu.threshold.trans hu.loaded)⟩
    · cases hn
      obtain ⟨hu, -⟩ := hp
      exact ⟨hu.toRetiring, hu.threshold, hu.loaded.trans hu.held⟩
  | retire v n =>
    cases hn
    exact hints_of_goes goes_afterRemove
  | far y b i x =>
    cases hn
    exact hints_of_goes (goes_checkEdge _)
  | back v x =>
    cases hn
    split_ifs
    · trivial
    · cases call with
      | push w => exact hints_of_goes goes_pushStraddle
      | pop => exact hints_of_goes goes_popSeal
  | safe v k =>
    simp only [next] at hn
    split_ifs at hn
    · cases hn
      trivial
    · cases hn
      exact hints_of_goes goes_unsafeNext
  | findSlot f i =>
    cases hn
    unfold findSwitch
    split_ifs <;> trivial
  | findNeighbor f n j =>
    cases hn
    split <;> trivial
  | hintCheck y =>
    cases hn
    split_ifs <;> trivial
  | findPeek f i =>
    cases hn
    split_ifs <;> trivial
  | findValidate f n j =>
    cases hn
    split_ifs <;> trivial
  | recheck v k =>
    cases hn
    split_ifs <;> trivial
  | alloc v =>
    simp only [next] at hn
    split_ifs at hn
    cases hn
    trivial
  | fill v n i =>
    simp only [next] at hn
    split_ifs at hn <;> · cases hn; trivial
  | failed => cases hn
  | clearSecond r => cases hn
  | _ =>
    cases hn
    trivial

omit [DecidableEq τ] [BufferSize] in
theorem retiring_of_goes (hp : pt.Goes v) : pt.retiring = none := by
  cases hp <;> rfl

omit [DecidableEq τ] [BufferSize] in
theorem retiring_updDone : (updDone v n R).retiring = some n := by
  cases R <;> rfl

omit [DecidableEq τ] in
theorem retiring_updSealed (u : Update) (i : ℤ) :
    (updSealed v n u i).retiring = some n ∨ (updSealed v n u i).retiring = none := by
  unfold updSealed
  cases u.hazSlot with
  | none =>
    dsimp only
    split_ifs
    · exact .inl retiring_updDone
    · exact .inl rfl
    · exact .inl rfl
  | some z =>
    dsimp only
    split_ifs
    · exact .inl rfl
    · exact .inl rfl
    · exact .inl rfl
    · exact .inr rfl

/-- A call begins to retire a buffer by unlinking it. -/
theorem retiring_unlink {p : Point} (hn : next m c tid S call pt = some (a, some p))
    (hr : p.retiring = some n) : pt.retiring = some n ∨ ∃ b w, a = .unlink S b n w := by
  have hgoes {w : View} {q : Point} (hq : q.Goes w) (he : q.retiring = some n) : False := by
    rw [retiring_of_goes hq] at he
    cases he
  cases pt with
  | effect v k =>
    simp only [next] at hn
    split_ifs at hn
    · cases hn
      cases k with
      | remove n' =>
        cases hr
        exact .inr ⟨_, _, rfl⟩
      | «seal» n' x =>
        have hp : (Attempt.doneNext S v (.seal n' x)).Goes v.countNear := goes_popRemove
        exact (hgoes hp hr).elim
      | _ => cases hr
    · cases hn
      exact (hgoes goes_missedNext hr).elim
  | updThird v n' u n0 n1 =>
    cases hn
    left
    split_ifs at hr
    · rcases retiring_updSealed (v := v) (n := n') u (sealedIndex n0 n1) with he | he
      · exact he.symm.trans hr
      · cases he.symm.trans hr
    · exact hr
  | updValidate v n' u y =>
    cases hn
    split_ifs at hr <;> exact .inl hr
  | updCas v n' u =>
    simp only [next] at hn
    split_ifs at hn
    · cases hn
      cases hu : u.side <;> rw [hu] at hr <;> exact .inl hr
    · cases hn
      exact .inl hr
  | retire v n' =>
    cases hn
    exact (hgoes goes_afterRemove hr).elim
  | far y b i x =>
    cases hn
    exact (hgoes (goes_checkEdge _) hr).elim
  | back v x =>
    cases hn
    split_ifs at hr
    · cases hr
    · cases call with
      | push w => exact (hgoes goes_pushStraddle hr).elim
      | pop => exact (hgoes goes_popSeal hr).elim
  | safe v k =>
    simp only [next] at hn
    split_ifs at hn
    · cases hn
      cases hr
    · cases hn
      exact (hgoes goes_unsafeNext hr).elim
  | findSlot f i =>
    cases hn
    unfold findSwitch at hr
    split_ifs at hr <;> cases hr
  | findNeighbor f n' j =>
    cases hn
    split at hr <;> cases hr
  | hintCheck y =>
    cases hn
    split_ifs at hr <;> cases hr
  | findPeek f i =>
    cases hn
    split_ifs at hr <;> cases hr
  | findValidate f n' j =>
    cases hn
    split_ifs at hr <;> cases hr
  | recheck v k =>
    cases hn
    split_ifs at hr <;> cases hr
  | alloc v =>
    simp only [next] at hn
    split_ifs at hn
    cases hn
    cases hr
  | fill v n' i =>
    simp only [next] at hn
    split_ifs at hn <;> · cases hn; cases hr
  | updThreshold v n' R =>
    cases hn
    exact .inl hr
  | updLoad v n' R t =>
    cases hn
    exact .inl hr
  | updFirst v n' u =>
    cases hn
    exact .inl hr
  | updSecond v n' u n0 =>
    cases hn
    exact .inl hr
  | updLink v n' u i =>
    cases hn
    exact .inl hr
  | updReserve v n' u y =>
    cases hn
    exact .inl hr
  | failed => cases hn
  | clearSecond r => cases hn
  | _ =>
    cases hn
    cases hr

theorem retiring_next {p : Point} (hs : Shape m) (ha : m.Allowed tid a)
    (hn : next m c tid S call pt = some (a, some p)) (hr : p.retiring = some n) :
    pt.retiring = some n ∨ n ∉ m.dead := by
  refine (retiring_unlink hn hr).imp_right ?_
  rintro ⟨b, w, rfl⟩
  obtain ⟨hb, hj, -⟩ := ha
  exact not_dead_of_live hs (hs.live_joined hb hj).2

/-- What is retired, and by whom. -/
theorem retired_next {p : Option Point} (hn : next m c tid S call pt = some (a, p)) :
    (m.act tid a).retired = m.retired ∨
      ∃ v n, pt = .retire v n ∧ (m.act tid a).retired = n :: m.retired := by
  cases pt with
  | retire v n =>
    cases hn
    exact .inr ⟨v, n, rfl, rfl⟩
  | effect v k =>
    simp only [next] at hn
    split_ifs at hn
    · cases hn
      cases k <;> exact .inl rfl
    · cases hn
      exact .inl rfl
  | casHint h b r =>
    simp only [next, Option.some.injEq, Prod.mk.injEq] at hn
    obtain ⟨rfl, -⟩ := hn
    split_ifs <;> exact .inl rfl
  | updCas v n u =>
    simp only [next] at hn
    split_ifs at hn <;> · cases hn; exact .inl rfl
  | alloc v =>
    simp only [next] at hn
    split_ifs at hn
    cases hn
    exact .inl rfl
  | fill v n i =>
    simp only [next] at hn
    split_ifs at hn <;> · cases hn; exact .inl rfl
  | safe v k =>
    simp only [next] at hn
    split_ifs at hn <;> · cases hn; exact .inl rfl
  | failed => cases hn
  | _ =>
    cases hn
    exact .inl rfl

end Steps

section Runs

/-- The invariant of hints and retired buffers. -/
structure HintInv (s : State τ) : Prop where
  hints : ∀ tid f, s.frames tid = some f → f.point.Hints s.mem f.side
  held : ∀ tid f h, s.frames tid = some f → f.point.hint = some h →
    h.count ≤ (s.mem.hint f.side).count
  retired : ∀ n ∈ s.mem.retired, n ∈ s.mem.dead ∧ ∀ S, s.mem.Cleared n S
  nodup : s.mem.retired.Nodup
  once : ∀ p q f g n, s.frames p = some f → s.frames q = some g → f.point.retiring = some n →
    g.point.retiring = some n → p = q

theorem retiring_fresh (hp : pt.Hints m S) (hr : pt.retiring = some n) :
    n ∈ m.dead ∧ n ∉ m.retired := by
  cases pt with
  | updThreshold v n' R =>
    cases hr
    exact ⟨hp.dead, hp.fresh⟩
  | updLoad v n' R t =>
    cases hr
    exact ⟨hp.1.dead, hp.1.fresh⟩
  | updFirst v n' u =>
    cases hr
    exact ⟨hp.dead, hp.fresh⟩
  | retire v n' =>
    cases hr
    exact ⟨hp.1, hp.2.1⟩
  | updSecond v n' u x =>
    cases hr
    exact ⟨hp.1.dead, hp.1.fresh⟩
  | updThird v n' u x y =>
    cases hr
    exact ⟨hp.1.dead, hp.1.fresh⟩
  | updLink v n' u i =>
    cases hr
    exact ⟨hp.1.dead, hp.1.fresh⟩
  | updReserve v n' u y =>
    cases hr
    exact ⟨hp.1.dead, hp.1.fresh⟩
  | updValidate v n' u y =>
    cases hr
    exact ⟨hp.1.dead, hp.1.fresh⟩
  | updCas v n' u =>
    cases hr
    exact ⟨hp.1.dead, hp.1.fresh⟩
  | _ => cases hr

variable [BufferSize]

theorem HintInv.init (h : Init s) : HintInv s where
  hints tid f hf := by simp [h.frames] at hf
  held tid f x hf := by simp [h.frames] at hf
  retired n hn := by simp [h.mem.retired] at hn
  nodup := by simp [h.mem.retired]
  once p q f g n hf := by simp [h.frames] at hf

variable [DecidableEq τ]

theorem HintInv.step (h : HintInv s) (hi : Inv s) (hst : (machine τ).step (tid, c) s = some t) :
    HintInv t := by
  rcases step_cases hst with ⟨hf, rfl⟩ | ⟨f, a, p, hf, hn, rfl⟩
  · constructor
    · intro q g hg
      rcases frame_of_start hg with ⟨-, rfl⟩ | ⟨-, hg⟩
      · trivial
      · exact h.hints q g hg
    · intro q g x hg hx
      rcases frame_of_start hg with ⟨-, rfl⟩ | ⟨-, hg⟩
      · cases hx
      · exact h.held q g x hg hx
    · exact h.retired
    · exact h.nodup
    · intro q r g g' n hg hg' hr hr'
      rcases frame_of_start hg with ⟨-, rfl⟩ | ⟨-, hg⟩
      · cases hr
      · rcases frame_of_start hg' with ⟨-, rfl⟩ | ⟨-, hg'⟩
        · cases hr'
        · exact h.once q r g g' n hg hg' hr hr'
  · have hk : f.point.Knows s.mem tid f.side f.call := ⟨hi.facts tid f hf, hi.permit tid f hf⟩
    have ha := (next_knows hi.shape (hi.clean f.side tid) hk hn).1
    have hl := hintLater_act hi.shape ha (next_hintOk (h.hints tid f hf) hn)
    have hlater := hi.shape.later ha
    have hdead : ∀ n ∈ s.mem.retired, n ∈ s.mem.dead := fun n hn => (h.retired n hn).1
    have hfresh {q : τ} {g : Frame} {n : Address} (hq : q ≠ tid) (hg : s.frames q = some g)
        (hr : g.point.retiring = some n) : n ∉ (s.mem.act tid a).retired := by
      have hn' := (retiring_fresh (h.hints q g hg) hr).2
      rcases retired_next hn with he | ⟨v, n', hp, he⟩
      · rwa [he]
      · rw [he, List.mem_cons, not_or]
        refine ⟨fun hnn => hq (h.once q tid g f n hg hf hr ?_), hn'⟩
        rw [hp, hnn]
        rfl
    constructor
    · intro q g hg
      rcases frame_of_next hg with ⟨rfl, pt, rfl, rfl⟩ | ⟨hq, hg⟩
      · exact next_hints hi.shape hk (h.hints q f hf) hdead ha hn
      · exact (h.hints q g hg).later hl hlater (hi.facts q g hg) (fun x => h.held q g x hg)
          fun n hr => hfresh hq hg hr
    · intro q g x hg hx
      rcases frame_of_next hg with ⟨rfl, pt, rfl, rfl⟩ | ⟨-, hg⟩
      · rcases hint_next hn with ⟨y, hy, hpt⟩ | hpt
        · rcases hpt with hnone | hsome
          · cases hnone.symm.trans hx
          · obtain rfl := Option.some.inj (hsome.symm.trans hx)
            exact (h.held q f _ hf hy).trans (hl.count _)
        · rcases hpt with hnone | hsome
          · cases hnone.symm.trans hx
          · obtain rfl := Option.some.inj (hsome.symm.trans hx)
            exact hl.count _
      · exact (h.held q g x hg hx).trans (hl.count _)
    · intro n hmem
      rcases retired_next hn with he | ⟨v, n', hp, he⟩
      · obtain ⟨hd, hc⟩ := h.retired n (he ▸ hmem)
        exact ⟨hl.dead n hd, fun S => hl.cleared n S hd (hc S)⟩
      · have hhints := h.hints tid f hf
        rw [hp] at hhints
        have hmem' : n ∈ n' :: s.mem.retired := he ▸ hmem
        rcases List.mem_cons.mp hmem' with rfl | hold
        · exact ⟨hl.dead n hhints.1, fun S => hl.cleared n S hhints.1 (hhints.2.2 S)⟩
        · obtain ⟨hd, hc⟩ := h.retired n hold
          exact ⟨hl.dead n hd, fun S => hl.cleared n S hd (hc S)⟩
    · rcases retired_next hn with he | ⟨v, n', hp, he⟩
      · exact he ▸ h.nodup
      · have hhints := h.hints tid f hf
        rw [hp] at hhints
        exact he ▸ List.nodup_cons.mpr ⟨hhints.2.1, h.nodup⟩
    · intro q r g g' n hg hg' hr hr'
      have hnew {q₁ : τ} {g₁ : Frame} {pt : Point} (hp : p = some pt) (hq₁ : q₁ ≠ tid)
          (hg₁ : s.frames q₁ = some g₁) (hr₁ : pt.retiring = some n)
          (hr₂ : g₁.point.retiring = some n) : False := by
        subst hp
        rcases retiring_next hi.shape ha hn hr₁ with hold | hnd
        · exact hq₁ (h.once q₁ tid g₁ f n hg₁ hf hr₂ hold)
        · exact hnd (retiring_fresh (h.hints q₁ g₁ hg₁) hr₂).1
      rcases frame_of_next hg with ⟨hq, pt, hp, rfl⟩ | ⟨hq, hgq⟩
      · rcases frame_of_next hg' with ⟨hr₀, -⟩ | ⟨hr₀, hgr⟩
        · exact hq.trans hr₀.symm
        · exact (hnew hp hr₀ hgr hr hr').elim
      · rcases frame_of_next hg' with ⟨-, pt, hp, rfl⟩ | ⟨hr₀, hgr⟩
        · exact (hnew hp hq hgq hr' hr).elim
        · exact h.once q r g g' n hgq hgr hr hr'

theorem run_hintInv (h : (machine τ).Reachable s) : HintInv s := by
  apply h.invariant (fun _ => HintInv.init)
  rintro ⟨tid, c⟩ s t hr hinv _ hst
  exact hinv.step (run_inv hr) hst

/-- Every step keeps what hints keep to. -/
theorem Inv.hintLater (hi : Inv s) (h : HintInv s) (hst : (machine τ).step (tid, c) s = some t) :
    HintLater s.mem t.mem := by
  rcases step_cases hst with ⟨-, rfl⟩ | ⟨f, a, p, hf, hn, rfl⟩
  · exact ⟨fun S => le_rfl, fun n hn => hn, fun n S _ => rfl, fun n S hn hn' => absurd hn' hn,
      fun n S _ hc => hc⟩
  · exact hintLater_act hi.shape (next_knows hi.shape (hi.clean f.side tid)
      ⟨hi.facts tid f hf, hi.permit tid f hf⟩ hn).1 (next_hintOk (h.hints tid f hf) hn)

/-- A buffer that a call is about to retire or that has been retired. -/
def State.Retired (s : State τ) (n : Address) : Prop :=
  n ∈ s.mem.retired ∨ ∃ tid f v, s.frames tid = some f ∧ f.point = .retire v n

omit [DecidableEq τ] [BufferSize] in
theorem cleared_of_retired (h : HintInv s) (hn : s.Retired n) :
    n ∈ s.mem.dead ∧ ∀ S, s.mem.Cleared n S := by
  rcases hn with hn | ⟨tid, f, v, hf, hp⟩
  · exact h.retired n hn
  · have hhints := h.hints tid f hf
    rw [hp] at hhints
    exact ⟨hhints.1, hhints.2.2⟩

/-- A hint read while a buffer was not unlinked is not newer than its unlinking. -/
theorem stamp_exec {l : List (τ × Choice)} (h : (machine τ).Reachable s)
    (he : (machine τ).exec (fun _ _ => True) l s = some t) (hn : n ∉ s.mem.dead)
    (hd : n ∈ t.mem.dead) (S : Side) : (s.mem.hint S).count ≤ t.mem.stamp n S := by
  have hkeep : (s.mem.hint S).count ≤ (t.mem.hint S).count ∧
      (n ∈ t.mem.dead → (s.mem.hint S).count ≤ t.mem.stamp n S) := by
    apply h.exec_invariant _ ⟨le_rfl, fun hd => absurd hd hn⟩ he
    rintro ⟨tid, c⟩ s' t' hr ⟨hc, hst⟩ - hstep
    have hl := (run_inv hr).hintLater (run_hintInv hr) hstep
    refine ⟨hc.trans (hl.count S), fun hd' => ?_⟩
    by_cases hd : n ∈ s'.mem.dead
    · rw [hl.stamp n S hd]
      exact hst hd
    · exact hc.trans (hl.stamped n S hd hd')
  exact hkeep.2 hd

/-- Every buffer is unlinked and retired at most once. When a buffer is retired,
and ever after, no hint names it, both hints are newer than its unlinking, and a
hint read before the unlinking fails every comparison. -/
theorem hints_leave_retired (h : (machine τ).Reachable s) :
    (s.mem.chain ++ s.mem.dead).Nodup ∧ s.mem.retired.Nodup ∧
      ∀ n, s.Retired n → n ∈ s.mem.dead ∧
        ∀ S, (s.mem.hint S).buffer ≠ n ∧ s.mem.stamp n S < (s.mem.hint S).count ∧
          ∀ r l, (machine τ).Reachable r → (machine τ).exec (fun _ _ => True) l r = some s →
            n ∉ r.mem.dead → s.mem.hint S ≠ r.mem.hint S ∧
              (s.mem.hint S).count ≠ (r.mem.hint S).count := by
  have hinv := run_hintInv h
  refine ⟨(run_inv h).shape.nodup, hinv.nodup, fun n hn => ?_⟩
  obtain ⟨hd, hc⟩ := cleared_of_retired hinv hn
  refine ⟨hd, fun S => ⟨(hc S).1, (hc S).2, fun r l hr he hnd => ?_⟩⟩
  have hlt := (stamp_exec hr he hnd hd S).trans_lt (hc S).2
  exact ⟨fun heq => hlt.ne' (congrArg Hint.count heq), hlt.ne'⟩

end Runs

end Hints

section Retired

attribute [local instance] four

/-- Two left pushes, of which the second one appends a buffer, and two right pops,
of which the second one unlinks and retires the first buffer. -/
def afterRetire : State ℕ :=
  ((machine ℕ).exec (fun _ _ => True) (steps 40 0 .left (.push 11) 1 ++ steps 60 1 .right .pop 1)
    (constructed ℕ)).getD (constructed ℕ)

theorem afterRetire_hints : afterRetire.mem.retired = [0] ∧
    ∀ S, (afterRetire.mem.hint S).buffer ≠ 0 := by
  have hrun : (machine ℕ).Reachable afterRetire := Machine.Run.exec_getD _ (.start init_constructed)
  have hret : afterRetire.mem.retired = [0] := by decide +kernel
  have hn : afterRetire.Retired 0 := .inl (by rw [hret]; exact List.mem_cons_self)
  exact ⟨hret, fun S => (((hints_leave_retired hrun).2.2 0 hn).2 S).1⟩

end Retired
end UnboundedDeque.OFDeque
