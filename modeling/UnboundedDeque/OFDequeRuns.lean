import UnboundedDeque.OFDequeSteps

/-!
# The invariant holds in every run

A thread enters the point of a second compare-exchange only by a successful
`casSafe`, and it changes the content, seals or unlinks only there.
-/
namespace UnboundedDeque.OFDeque
open StepMachine

variable {τ : Type*} {m m' : Memory τ} {S : Side} {tid : τ}
  {call : Call Word} {v : View} {n b : Address} {i : ℤ} {x reach : Slot} {c : Choice}
  {a : Action} {pt : Point} {p : Option Point} {k : Attempt}

/-- Actions that change the content or the chain, or seal. -/
def Action.changes : Action → Bool
  | .push .. | .append .. | .pop .. | .seal .. | .unlink .. => true
  | _ => false

def Point.isEffect : Point → Bool
  | .effect .. => true
  | _ => false

/-- The result a call is about to return. -/
def Point.result : Point → Option (Result Word)
  | .addLocal _ _ r | .casHint _ _ r | .clearFirst r | .clearSecond r => some r
  | _ => none

/-- A point before `casSafe`, or in `retire`. -/
def Point.isPlain (pt : Point) : Bool := !pt.isEffect && pt.result.isNone

section Points

/-- A round goes on with what it has read, or there is a new round. -/
inductive Point.Goes (v : View) : Point → Prop
  | again : Goes v .hintLoad
  | recheck (k : Attempt) : Goes v (.recheck v k)
  | safe (k : Attempt) : Goes v (.safe v k)
  | alloc : Goes v (.alloc v)
  | insertLink (n : Address) : Goes v (.insertLink v n)
  | reach : Goes v (.reach v)

theorem goes_popBoundary : (popBoundary S v).Goes v := by
  unfold popBoundary
  split_ifs
  · exact .recheck _
  · exact .safe _
  · exact .again

theorem goes_popRemove : (popRemove S v n reach).Goes v := by
  unfold popRemove
  split_ifs
  · exact .recheck _
  · exact .safe _
  · exact goes_popBoundary

theorem goes_popSeal : (popSeal S v n reach).Goes v := by
  unfold popSeal
  split_ifs
  · exact .recheck _
  · exact .safe _
  · exact goes_popRemove

theorem goes_pushStraddle : (pushStraddle S v n reach).Goes v := by
  unfold pushStraddle
  split_ifs
  · exact .safe _
  · exact .safe _
  · exact .again

theorem goes_afterRemove : (afterRemove S call v).Goes v := by
  cases call with
  | push w => exact .again
  | pop => exact goes_popBoundary

theorem goes_unsafeNext : (k.unsafeNext S call v).Goes v := by
  cases k with
  | «seal» n reach => exact goes_popRemove
  | remove n => exact goes_afterRemove
  | _ => exact .again

theorem goes_missedNext : (k.missedNext S call v).Goes v.countNear := by
  cases k with
  | «seal» n reach => exact goes_popRemove
  | remove n => exact goes_afterRemove
  | _ => exact .again

theorem plain_of_goes (h : pt.Goes v) : pt.isPlain := by
  cases h <;> rfl

theorem plain_updDone (R : Side) : (updDone v n R).isPlain := by
  cases R <;> rfl

theorem isEffect_of_plain (h : pt.isPlain) : pt.isEffect = false := by
  rw [Point.isPlain, Bool.and_eq_true, Bool.not_eq_true'] at h
  exact h.1

theorem result_of_plain (h : pt.isPlain) : pt.result = none := by
  rw [Point.isPlain, Bool.and_eq_true, Option.isNone_iff_eq_none] at h
  exact h.2

theorem isEffect_doneNext : (k.doneNext S v).isEffect = false := by
  cases k with
  | «seal» n reach => exact isEffect_of_plain (plain_of_goes goes_popRemove)
  | _ => rfl

variable [BufferSize]

theorem goes_checkEdge (cache : Option Address) : (checkEdge S call cache v).Goes v := by
  unfold checkEdge
  split_ifs
  · exact .again
  · exact .again
  · exact .again
  cases call with
  | push w =>
    simp only [pushEdge]
    split_ifs
    · exact .safe _
    · cases cache with
      | none => exact .alloc
      | some n => exact .insertLink n
    · exact .reach
  | pop =>
    simp only [popEdge]
    split_ifs
    · exact .recheck _
    · exact .safe _
    · exact .reach
    · exact goes_popBoundary

theorem plain_findSwitch (f : Find) : (findSwitch S f i x).isPlain := by
  unfold findSwitch
  split_ifs <;> rfl

theorem plain_updSealed (u : Update) : (updSealed v n u i).isPlain := by
  unfold updSealed
  cases u.hazSlot with
  | none =>
    dsimp only
    split_ifs
    · exact plain_updDone _
    · rfl
    · rfl
  | some z =>
    dsimp only
    split_ifs <;> rfl

end Points

variable [BufferSize]

/-- A step that neither attempts a second compare-exchange successfully nor comes
near a result. -/
structure Quiet (m : Memory τ) (S : Side) (pt q : Point) : Prop where
  plain : q.isPlain
  noResult : pt.result = none
  missed : ∀ v k, pt = .effect v k →
    m.slot (k.target S v).1 (k.target S v).2.1 ≠ (k.target S v).2.2

theorem quiet_of_plain {q : Point} (hq : q.isPlain) (hp : pt.isPlain) : Quiet m S pt q where
  plain := hq
  noResult := result_of_plain hp
  missed v k he := by
    rw [he] at hp
    cases hp

section Next

variable [DecidableEq τ]

/-- How a call goes on: it reaches the second compare-exchange by `casSafe`, and
a result by the second compare-exchange or a check for the empty deque. -/
theorem next_cases {q : Point} (hn : next m c tid S call pt = some (a, some q)) :
    Quiet m S pt q ∨
    (∃ v k, pt = .safe v k ∧ q = .effect v k ∧ a = .casSafe (k.safe S v).1 (k.safe S v).2.1 ∧
      m.slot (k.safe S v).1 (k.safe S v).2.1 = (k.safe S v).2.2) ∨
    (∃ v k, pt = .effect v k ∧ q = k.doneNext S v ∧
      m.slot (k.target S v).1 (k.target S v).2.1 = (k.target S v).2.2) ∨
    (∃ v k, pt = .recheck v k ∧ q = .clearFirst .empty ∧
      (m.slot v.buffer v.index).count = v.near.count) ∨
    ∃ r, pt.result = some r ∧ q.result = some r := by
  cases pt with
  | safe v k =>
    simp only [next] at hn
    split_ifs at hn with hc
    · cases hn
      exact .inr (.inl ⟨v, k, rfl, rfl, rfl, hc⟩)
    · cases hn
      exact .inl (quiet_of_plain (plain_of_goes goes_unsafeNext) rfl)
  | effect v k =>
    simp only [next] at hn
    split_ifs at hn with hc
    · cases hn
      exact .inr (.inr (.inl ⟨v, k, rfl, rfl, hc⟩))
    · cases hn
      refine .inl ⟨plain_of_goes goes_missedNext, rfl, fun w j he => ?_⟩
      cases he
      exact hc
  | recheck v k =>
    simp only [next] at hn
    split_ifs at hn with hc
    · cases hn
      exact .inr (.inr (.inr (.inl ⟨v, k, rfl, rfl, hc⟩)))
    · cases hn
      exact .inl (quiet_of_plain rfl rfl)
  | addLocal b d r =>
    cases hn
    exact .inr (.inr (.inr (.inr ⟨r, rfl, rfl⟩)))
  | casHint x b r =>
    cases hn
    exact .inr (.inr (.inr (.inr ⟨r, rfl, rfl⟩)))
  | clearFirst r =>
    cases hn
    exact .inr (.inr (.inr (.inr ⟨r, rfl, rfl⟩)))
  | clearSecond r => cases hn
  | failed => cases hn
  | findSlot f i =>
    cases hn
    exact .inl (quiet_of_plain (plain_findSwitch f) rfl)
  | far x b i y =>
    cases hn
    exact .inl (quiet_of_plain (plain_of_goes (goes_checkEdge _)) rfl)
  | back w x =>
    cases hn
    refine .inl (quiet_of_plain ?_ rfl)
    split_ifs
    · rfl
    · cases call with
      | push w => exact plain_of_goes goes_pushStraddle
      | pop => exact plain_of_goes goes_popSeal
  | updThird w n u x y =>
    cases hn
    refine .inl (quiet_of_plain ?_ rfl)
    split_ifs
    · exact plain_updSealed u
    · rfl
  | updCas w n u =>
    simp only [next] at hn
    split_ifs at hn
    · cases hn
      exact .inl (quiet_of_plain (plain_updDone _) rfl)
    · cases hn
      exact .inl (quiet_of_plain rfl rfl)
  | retire w n =>
    cases hn
    exact .inl (quiet_of_plain (plain_of_goes goes_afterRemove) rfl)
  | findNeighbor f n j =>
    cases hn
    refine .inl (quiet_of_plain ?_ rfl)
    split <;> rfl
  | alloc w =>
    simp only [next] at hn
    split_ifs at hn
    cases hn
    exact .inl (quiet_of_plain rfl rfl)
  | fill w n i =>
    simp only [next] at hn
    split_ifs at hn <;> · cases hn; exact .inl (quiet_of_plain rfl rfl)
  | hintCheck x =>
    cases hn
    refine .inl (quiet_of_plain ?_ rfl)
    split_ifs <;> rfl
  | findPeek f i =>
    cases hn
    refine .inl (quiet_of_plain ?_ rfl)
    split_ifs <;> rfl
  | findValidate f n j =>
    cases hn
    refine .inl (quiet_of_plain ?_ rfl)
    split_ifs <;> rfl
  | updValidate w n u q =>
    cases hn
    refine .inl (quiet_of_plain ?_ rfl)
    split_ifs <;> rfl
  | _ =>
    cases hn
    exact .inl (quiet_of_plain rfl rfl)

/-- The content, the chain and the seals change at the second compare-exchange. -/
theorem next_changes (hn : next m c tid S call pt = some (a, p)) (ha : a.changes = true) :
    ∃ v k, pt = .effect v k ∧ a = k.action S call v c.junk ∧
      m.slot (k.target S v).1 (k.target S v).2.1 = (k.target S v).2.2 ∧
      p = some (k.doneNext S v) := by
  cases pt with
  | effect v k =>
    simp only [next] at hn
    split_ifs at hn with hc
    · cases hn
      exact ⟨v, k, rfl, rfl, hc, rfl⟩
    · cases hn
      cases ha
  | alloc v =>
    simp only [next] at hn
    split_ifs at hn
    cases hn
    cases ha
  | fill v n i =>
    simp only [next] at hn
    split_ifs at hn <;> · cases hn; cases ha
  | safe v k =>
    simp only [next] at hn
    split_ifs at hn <;> · cases hn; cases ha
  | casHint x b r =>
    simp only [next] at hn
    split_ifs at hn <;> · cases hn; cases ha
  | updCas v n u =>
    simp only [next] at hn
    split_ifs at hn <;> · cases hn; cases ha
  | failed => cases hn
  | _ =>
    cases hn
    cases ha

/-- The point of a second compare-exchange is entered by `casSafe`. -/
theorem next_effect (hn : next m c tid S call pt = some (a, p)) {v : View} {k : Attempt}
    (hp : p = some (.effect v k)) :
    pt = .safe v k ∧ a = .casSafe (k.safe S v).1 (k.safe S v).2.1 ∧
      m.slot (k.safe S v).1 (k.safe S v).2.1 = (k.safe S v).2.2 := by
  subst hp
  rcases next_cases hn with hq | ⟨w, j, hpt, hq, ha, hs⟩ | ⟨w, j, -, hq, -⟩ | ⟨w, j, -, hq, -⟩ |
    ⟨r, -, hq⟩
  · cases hq.plain
  · cases hq
    exact ⟨hpt, ha, hs⟩
  · have hne : (Point.effect v k).isEffect = false := hq ▸ isEffect_doneNext
    cases hne
  · cases hq
  · cases hq

end Next

section Exclusion

variable {f g : Frame} {w : View}

omit [BufferSize] in
theorem Frame.pushing_cases (h : f.pushing = some v) :
    ∃ k, f.point = .effect v k ∧ (k = .interiorPush ∨ ∃ n, k = .append n) := by
  unfold Frame.pushing at h
  split at h
  · rename_i _ hp
    cases h
    exact ⟨_, hp, .inl rfl⟩
  · rename_i _ n hp
    cases h
    exact ⟨_, hp, .inr ⟨n, rfl⟩⟩
  · cases h

omit [BufferSize] in
theorem Frame.popping_cases (h : f.popping = some v) :
    ∃ k, f.point = .effect v k ∧ (k = .interiorPop ∨ k = .boundaryPop) := by
  unfold Frame.popping at h
  split at h
  · rename_i _ hp
    cases h
    exact ⟨_, hp, .inl rfl⟩
  · rename_i _ hp
    cases h
    exact ⟨_, hp, .inr rfl⟩
  · cases h

omit [BufferSize] in
theorem Frame.sealing_cases (h : f.sealing = some (v, n, x)) : f.point = .effect v (.seal n x) := by
  unfold Frame.sealing at h
  split at h
  · rename_i _ _ _ hp
    cases h
    exact hp
  · cases h

theorem view_of_effect (hf : f.point.Facts m tid f.side f.call)
    (hp : f.point = .effect v k) : m.ViewOk f.side v ∧ k.Ready m tid f.side f.call v := by
  rw [hp] at hf
  exact ⟨hf.1, hf.2.1⟩

/-- What a thread that holds a permit has seen. -/
theorem Frame.pushing_view (hf : f.point.Facts m tid f.side f.call) (h : f.pushing = some v) :
    m.ViewOk f.side v := by
  obtain ⟨k, hp, -⟩ := f.pushing_cases h
  exact (view_of_effect hf hp).1

theorem Frame.popping_view (hf : f.point.Facts m tid f.side f.call) (h : f.popping = some v) :
    m.ViewOk f.side v := by
  obtain ⟨k, hp, -⟩ := f.popping_cases h
  exact (view_of_effect hf hp).1

theorem Frame.sealing_view (hf : f.point.Facts m tid f.side f.call)
    (h : f.sealing = some (v, n, x)) :
    m.ViewOk f.side v ∧ m.Published n ∧ m.Seen n (nearValue f.side) x ∧
      v.index = farValue f.side := by
  obtain ⟨hv, hr⟩ := view_of_effect hf (f.sealing_cases h)
  exact ⟨hv, hr.2.2.2.2.1, hr.2.2.2.2.2.2.1, hr.2.1⟩

/-- Exclusion is stable. -/
theorem Frame.Exclusive.later (h : Later m m') {q : τ}
    (hf : f.point.Facts m tid f.side f.call) (hg : g.point.Facts m q g.side g.call)
    (he : f.Exclusive m g) : f.Exclusive m' g := by
  constructor
  · intro v w hv hw hs hb hi ⟨h₁, h₂⟩
    have hv' := f.pushing_view hf hv
    have hw' := g.popping_view hg hw
    rw [h.slot_of_current hv'.buffer hv'.far h₁] at h₁
    rw [h.slot_of_current hw'.buffer hw'.near h₂] at h₂
    exact he.pushPop v w hv hw hs hb hi ⟨h₁, h₂⟩
  · intro v n x w q y hv hw hs hb hb' ⟨h₁, h₂⟩
    obtain ⟨-, hn, hx, -⟩ := f.sealing_view hf hv
    obtain ⟨-, hq, hy, -⟩ := g.sealing_view hg hw
    rw [h.slot_of_current hn hx h₁] at h₁
    rw [h.slot_of_current hq hy h₂] at h₂
    exact he.seals v n x w q y hv hw hs hb hb' ⟨h₁, h₂⟩

theorem exclusive_of_point (hf : f.point.isEffect = false) : f.Exclusive m g ∧ g.Exclusive m f := by
  have hpush : f.pushing = none := by
    cases hp : f.pushing with
    | none => rfl
    | some v =>
      obtain ⟨k, hk, -⟩ := f.pushing_cases hp
      rw [hk] at hf
      cases hf
  have hpop : f.popping = none := by
    cases hp : f.popping with
    | none => rfl
    | some v =>
      obtain ⟨k, hk, -⟩ := f.popping_cases hp
      rw [hk] at hf
      cases hf
  have hseal : f.sealing = none := by
    cases hp : f.sealing with
    | none => rfl
    | some y =>
      obtain ⟨v, n, x⟩ := y
      rw [f.sealing_cases hp] at hf
      cases hf
  constructor <;> constructor <;> simp [hpush, hpop, hseal]

/-- One thread is at one point. -/
theorem Frame.exclusive_self (f : Frame) : f.Exclusive m f := by
  constructor
  · intro v w hv hw
    obtain ⟨k, hk, hpush⟩ := f.pushing_cases hv
    obtain ⟨j, hj, hpop⟩ := f.popping_cases hw
    rw [hk] at hj
    cases hj
    rcases hpush with rfl | ⟨n, rfl⟩ <;> rcases hpop with he | he <;> cases he
  · intro v n x w p y _ _ hs
    exact absurd hs f.side.opposite_ne.symm

variable [DecidableEq τ]

theorem count_casSafe (m : Memory τ) (b : Address) (i : ℤ) (hx : m.Seen b i x) :
    ((m.act tid (.casSafe b i)).slot b i).count ≠ x.count := by
  rw [slot_casSafe]
  have := hx.1
  dsimp only
  omega

/-- A successful `casSafe` makes the permits stale that exclude the new one. -/
theorem exclusive_of_casSafe {q : τ} (hg : g.point.Facts m q g.side g.call)
    (hf : (Point.safe v k).Facts m tid S call) (hb : b = (k.safe S v).1)
    (hi : i = (k.safe S v).2.1) :
    Frame.Exclusive (m.act tid (.casSafe b i)) ⟨S, call, .effect v k⟩ g ∧
      g.Exclusive (m.act tid (.casSafe b i)) ⟨S, call, .effect v k⟩ := by
  subst hb hi
  have hnear {w : View} (hw : (⟨S, call, .effect v k⟩ : Frame).pushing = some w) :
      k.safe S v = (w.buffer, w.index, w.near) := by
    obtain ⟨j, hp, hj⟩ := Frame.pushing_cases hw
    cases hp
    rcases hj with rfl | ⟨n, rfl⟩ <;> rfl
  have hfar {w : View} (hw : (⟨S, call, .effect v k⟩ : Frame).popping = some w) :
      k.safe S v = (w.buffer, w.index + farDirection S, w.far) := by
    obtain ⟨j, hp, hj⟩ := Frame.popping_cases hw
    cases hp
    rcases hj with rfl | rfl <;> rfl
  have hseal {w : View} {n : Address} {x : Slot}
      (hw : (⟨S, call, .effect v k⟩ : Frame).sealing = some (w, n, x)) :
      k.safe S v = (w.buffer, farValue S, w.near) := by
    cases Frame.sealing_cases hw
    exact congrArg (fun i => (v.buffer, i, v.near)) hf.2.1.2.1
  constructor
  · constructor
    · intro v' w hv hw _ hb hi ⟨_, hcur⟩
      rw [hnear hv, hb, hi] at hcur
      exact count_casSafe m _ _ (g.popping_view hg hw).near hcur
    · intro v' n x w p y hv hw hs hb _ ⟨_, hcur⟩
      obtain rfl : S = g.side.opposite := hs
      obtain ⟨-, -, hy, -⟩ := g.sealing_view hg hw
      rw [hseal hv, hb, farValue_opposite] at hcur
      exact count_casSafe m _ _ hy hcur
  · constructor
    · intro w v' hw hv hs hb hi ⟨hcur, _⟩
      obtain rfl : g.side = S := hs
      rw [hfar hv, ← hb, ← hi] at hcur
      exact count_casSafe m _ _ (g.pushing_view hg hw).far hcur
    · intro w p y v' n x hw hv hs _ hb ⟨hcur, _⟩
      have hside : S = g.side.opposite := by
        rw [hs]
        exact S.opposite_opposite.symm
      obtain ⟨-, -, hy, -⟩ := g.sealing_view hg hw
      rw [hseal hv, hb, hside, farValue_opposite] at hcur
      exact count_casSafe m _ _ hy hcur

/-- The permits of the other threads stay true. -/
theorem permit_act (h : Shape m) (hn : next m c tid f.side f.call f.point = some (a, p))
    (ha : m.Allowed tid a) {q : τ} (hf : f.point.Knows m tid f.side f.call)
    (hg : g.point.Knows m q g.side g.call) (hfg : f.Exclusive m g) (hgf : g.Exclusive m f) :
    g.point.Permit (m.act tid a) g.side := by
  obtain ⟨hgfacts, hgp⟩ := hg
  cases hpt : g.point with
  | effect w j =>
    rw [hpt] at hgp
    obtain ⟨hw, hready⟩ := view_of_effect hgfacts hpt
    have hpush (hj : g.pushing = some w) (hp : m.PushPermit g.side w.buffer w.index w.far) :
        (m.act tid a).PushPermit g.side w.buffer w.index w.far := by
      apply h.pushPermit_act ha hw.buffer hw.index hw.far hp
      rintro z rfl hcur
      obtain ⟨v, k, hk, hact, hslot, -⟩ := next_changes hn rfl
      have hpop : f.popping = some v ∧ f.side = g.side ∧ v.buffer = w.buffer ∧
          v.index = w.index ∧ m.slot v.buffer v.index = v.near := by
        cases k <;> simp only [Attempt.action, Action.pop.injEq, reduceCtorEq] at hact
        · exact ⟨by rw [Frame.popping, hk], hact.1.symm, hact.2.1.symm, hact.2.2.1.symm, hslot⟩
        · exact ⟨by rw [Frame.popping, hk], hact.1.symm, hact.2.1.symm, hact.2.2.1.symm, hslot⟩
      obtain ⟨hpop, hside, hb, hi, hs⟩ := hpop
      exact hgf.pushPop w v hj hpop hside.symm hb.symm hi.symm ⟨hcur, congrArg Slot.count hs⟩
    have hpop (hj : g.popping = some w)
        (hst : w.near.type = nearType g.side → m.Stale w.buffer w.index w.near)
        (hp : m.PopPermit g.side w.buffer w.index w.near) :
        (m.act tid a).PopPermit g.side w.buffer w.index w.near := by
      have hstale (hi : w.index + farDirection g.side = nearValue g.side) :
          (m.slot w.buffer w.index).count ≠ w.near.count := by
        have hi' : w.index = nearLink g.side := by
          rw [← nearLink_add] at hi
          omega
        exact (hst (hw.nearLink hi')).ne'
      have hex {v : View} (hv : f.pushing = some v) (hside : f.side = g.side)
          (hb : v.buffer = w.buffer) (hi : v.index = w.index)
          (hs : m.slot v.buffer (v.index + farDirection f.side) = v.far) :
          (m.slot w.buffer w.index).count ≠ w.near.count := fun hcur =>
        hfg.pushPop v w hv hj hside hb hi ⟨congrArg Slot.count hs, hcur⟩
      apply h.popPermit_act ha hw.buffer hw.near hp
      · rintro z rfl
        obtain ⟨v, k, hk, hact, hslot, -⟩ := next_changes hn rfl
        cases k <;> simp only [Attempt.action, Action.push.injEq, reduceCtorEq] at hact
        · have hi : v.index = w.index := by
            have := hact.2.2.1
            rw [hact.1] at this
            omega
          exact hex (by rw [Frame.pushing, hk]) hact.1.symm hact.2.1.symm hi hslot
        · exact hstale (hact.1 ▸ hact.2.2.1)
      · rintro z rfl hi
        obtain ⟨v, k, hk, hact, hslot, -⟩ := next_changes hn rfl
        cases k <;> simp only [Attempt.action, Action.append.injEq, reduceCtorEq] at hact
        have hv := (view_of_effect hf.1 hk).2.2.1
        have hi' : v.index = w.index := by
          rw [hv, ← hact.1]
          rw [← farValue_add] at hi
          omega
        exact hex (by rw [Frame.pushing, hk]) hact.1.symm hact.2.1.symm hi' hslot
      · exact hstale
    cases j with
    | interiorPush => exact hpush (by rw [Frame.pushing, hpt]) hgp
    | append n => exact hpush (by rw [Frame.pushing, hpt]) hgp
    | interiorPop =>
      rw [hpt] at hgfacts
      exact hpop (by rw [Frame.popping, hpt]) hgfacts.2.2.1 hgp
    | boundaryPop =>
      rw [hpt] at hgfacts
      exact hpop (by rw [Frame.popping, hpt]) hgfacts.2.2.1 hgp
    | «seal» n x =>
      obtain ⟨-, -, -, -, hnp, -, hx, ht⟩ := hready
      apply h.sealPermit_act ha hw.buffer hnp ht hx hgp
      rintro z rfl hcur
      obtain ⟨v, k, hk, hact, hslot, -⟩ := next_changes hn rfl
      cases k <;> simp only [Attempt.action, Action.seal.injEq, reduceCtorEq] at hact
      rename_i n' y
      obtain ⟨hside, rfl, -⟩ := hact
      have hfp := hf.2
      rw [hk] at hfp
      -- the two seals face each other: each link determines the other's buffer
      have hj₁ := (hgp hcur).1
      have hj₂ := (hfp (congrArg Slot.count hslot)).1
      have hlink := hj₂.2
      rw [← hside, nearLink_opposite] at hlink
      have hbuf : v.buffer = n := hlink.2.symm.trans hj₁.1.2
      exact hgf.seals w n x v w.buffer y (by rw [Frame.sealing, hpt]) (by rw [Frame.sealing, hk])
        (by rw [← hside, Side.opposite_opposite]) rfl hbuf
        ⟨hcur, congrArg Slot.count hslot⟩
    | straddle n x => trivial
    | remove n => trivial
  | _ => trivial

end Exclusion

section Runs

variable {s t : State τ}

theorem Inv.init (h : Init s) : Inv s where
  shape := .init h.mem
  clean S tid n hc := by simp [h.mem.cache] at hc
  facts tid f hf := by simp [h.frames] at hf
  permit tid f hf := by simp [h.frames] at hf
  exclusive p q f g hf := by simp [h.frames] at hf

variable [DecidableEq τ]

/-- The private buffers in the caches stay clean. -/
theorem clean_act (h : Shape m) (hclean : ∀ R k n, m.cache R k = some n → m.Clean R n)
    (ha : m.Allowed tid a) (ht : a.Tidy m tid S) {R : Side} {k : τ}
    (hc : (m.act tid a).cache R k = some n) : (m.act tid a).Clean R n := by
  have hkeep (hc' : m.cache R k = some n) : (m.act tid a).slot n = m.slot n →
      (m.act tid a).Clean R n := fun hs => (hclean R k n hc').congr hs
  have hother {b : Address} (hc' : m.cache R k = some n) (hb : m.Published b) : n ≠ b := fun he =>
    h.not_published (h.cache R k n hc') (he ▸ hb)
  have hcas {b : Address} (hc' : m.cache R k = some n) (hb : m.Published b) (i : ℤ) (w : Word) (t : SlotType) :
      (m.cas b i w t).slot n = m.slot n :=
    funext fun j => m.slot_cas_ne b n i j w t (.inl (hother hc' hb))
  cases a with
  | casSafe b i => exact hkeep hc (hcas hc ha i _ _)
  | push R' b i w => exact hkeep hc (hcas hc ha.1 i _ _)
  | append R' b n' =>
    have hc' : m.cache R k = some n := by
      change Function.update m.cache R' (Function.update (m.cache R') tid none) R k = some n at hc
      by_cases hR : R = R'
      · subst hR
        rw [Function.update_self] at hc
        by_cases hk : k = tid
        · rw [hk, Function.update_self] at hc
          cases hc
        · rwa [Function.update_of_ne hk] at hc
      · rwa [Function.update_of_ne hR] at hc
    exact hkeep hc' (hcas hc' ha.1 _ _ _)
  | pop R' b i w => exact hkeep hc (hcas hc ha.1 i _ _)
  | «seal» R' n' w =>
    obtain ⟨-, b, hb, hj, -⟩ := ha
    exact hkeep hc (hcas hc (h.target b R' n' hb hj.1) _ _ _)
  | unlink R' b n' w => exact hkeep hc (hcas hc ha.1 _ _ _)
  | store n' i x =>
    by_cases hn : n = n'
    · subst hn
      have ho := (h.cache R k n hc).symm.trans ht.1
      simp only [Owner.thread.injEq] at ho
      obtain rfl := ho.1
      exact clean_store (hclean R k n hc) ht.2
    · exact hkeep hc (funext fun j => m.slot_set_ne n' n i j (.inl hn))
  | cache R' n' =>
    obtain ⟨rfl, hn'⟩ := ht
    by_cases hR : R = R' ∧ k = tid
    · obtain ⟨rfl, rfl⟩ := hR
      have he : some n' = some n := by simpa [Memory.act] using hc
      exact Option.some.inj he ▸ hn'
    · have hc' : m.cache R k = some n := by
        rcases not_and_or.mp hR with hne | hne
        · simpa [Memory.act, hne] using hc
        · by_cases hR' : R = R'
          · subst hR'
            simpa [Memory.act, hne] using hc
          · simpa [Memory.act, hR'] using hc
      exact hkeep hc' rfl
  | _ => exact hkeep hc rfl

omit [BufferSize] in
/-- The frames after the start of a call and after a step inside a call. -/
theorem frame_of_start {q : τ} {g : Frame}
    (hg : Function.update s.frames tid (some ⟨S, call, .hintLoad⟩) q = some g) :
    (q = tid ∧ g = ⟨S, call, .hintLoad⟩) ∨ (q ≠ tid ∧ s.frames q = some g) := by
  by_cases hq : q = tid
  · subst hq
    rw [Function.update_self] at hg
    exact .inl ⟨rfl, (Option.some.inj hg).symm⟩
  · rw [Function.update_of_ne hq] at hg
    exact .inr ⟨hq, hg⟩

omit [BufferSize] in
theorem frame_of_next {q : τ} {f g : Frame}
    (hg : Function.update s.frames tid (p.map fun p => { f with point := p }) q = some g) :
    (q = tid ∧ ∃ pt, p = some pt ∧ g = { f with point := pt }) ∨
      (q ≠ tid ∧ s.frames q = some g) := by
  by_cases hq : q = tid
  · subst hq
    rw [Function.update_self] at hg
    obtain ⟨pt, hpt, hg⟩ := Option.map_eq_some_iff.mp hg
    exact .inl ⟨rfl, pt, hpt, hg.symm⟩
  · rw [Function.update_of_ne hq] at hg
    exact .inr ⟨hq, hg⟩

/-- A step starts a call or goes on with it. -/
theorem step_cases (hs : (machine τ).step (tid, c) s = some t) :
    (s.frames tid = none ∧ t = { s with
      frames := Function.update s.frames tid (some ⟨c.call.1, c.call.2, .hintLoad⟩) }) ∨
    ∃ f a p, s.frames tid = some f ∧ next s.mem c tid f.side f.call f.point = some (a, p) ∧
      t = ⟨s.mem.act tid a,
        Function.update s.frames tid (p.map fun p => { f with point := p })⟩ := by
  simp only [machine, step] at hs
  cases hf : s.frames tid with
  | none =>
    rw [hf] at hs
    exact .inl ⟨rfl, (Option.some.inj hs).symm⟩
  | some f =>
    rw [hf] at hs
    obtain ⟨⟨a, p⟩, hn, rfl⟩ := Option.map_eq_some_iff.mp hs
    exact .inr ⟨f, a, p, rfl, hn, rfl⟩

theorem Inv.start (h : Inv s) (tid : τ) (S : Side) (call : Call Word) :
    Inv { s with frames := Function.update s.frames tid (some ⟨S, call, .hintLoad⟩) } := by
  constructor
  · exact h.shape
  · exact h.clean
  · intro q f hf
    rcases frame_of_start hf with ⟨-, rfl⟩ | ⟨-, hf⟩
    · trivial
    · exact h.facts q f hf
  · intro q f hf
    rcases frame_of_start hf with ⟨-, rfl⟩ | ⟨-, hf⟩
    · trivial
    · exact h.permit q f hf
  · intro p q f g hf hg
    rcases frame_of_start hf with ⟨-, rfl⟩ | ⟨-, hf⟩
    · exact (exclusive_of_point rfl).1
    · rcases frame_of_start hg with ⟨-, rfl⟩ | ⟨-, hg⟩
      · exact (exclusive_of_point rfl).2
      · exact h.exclusive p q f g hf hg

/-- A step inside a call keeps the invariant. -/
theorem Inv.next (h : Inv s) {f : Frame} (hf : s.frames tid = some f)
    (hn : next s.mem c tid f.side f.call f.point = some (a, p)) :
    Inv ⟨s.mem.act tid a, Function.update s.frames tid (p.map fun p => { f with point := p })⟩ := by
  have hk : f.point.Knows s.mem tid f.side f.call := ⟨h.facts tid f hf, h.permit tid f hf⟩
  obtain ⟨ha, ht, hp⟩ := next_knows h.shape (h.clean f.side tid) hk hn
  have hl := h.shape.later ha
  have hfacts {q : τ} {g : Frame} (hq : q ≠ tid) (hg : s.frames q = some g) :
      g.point.Facts (s.mem.act tid a) q g.side g.call :=
    (h.facts q g hg).later hl (h.shape.keepsPrivate ha hq)
  -- a new permit comes from `casSafe`
  have hnew {q : τ} {g : Frame} {pt : Point} (hpt : p = some pt) (hg : s.frames q = some g) :
      Frame.Exclusive (s.mem.act tid a) { f with point := pt } g ∧
        g.Exclusive (s.mem.act tid a) { f with point := pt } := by
    cases he : pt.isEffect with
    | false => exact exclusive_of_point he
    | true =>
      obtain ⟨v, k, rfl⟩ : ∃ v k, pt = .effect v k := by
        cases pt <;> first | exact ⟨_, _, rfl⟩ | cases he
      obtain ⟨hsafe, rfl, -⟩ := next_effect hn hpt
      exact exclusive_of_casSafe (h.facts q g hg) (hsafe ▸ hk.1) rfl rfl
  constructor
  · exact h.shape.act ha
  · intro R k n hc
    exact clean_act h.shape h.clean ha ht hc
  · intro q g hg
    rcases frame_of_next hg with ⟨rfl, pt, hpt, rfl⟩ | ⟨hq, hg⟩
    · exact (hp pt hpt).1
    · exact hfacts hq hg
  · intro q g hg
    rcases frame_of_next hg with ⟨rfl, pt, hpt, rfl⟩ | ⟨hq, hg⟩
    · exact (hp pt hpt).2
    · exact permit_act h.shape hn ha hk ⟨h.facts q g hg, h.permit q g hg⟩
        (h.exclusive tid q f g hf hg) (h.exclusive q tid g f hg hf)
  · intro q r g g' hg hg'
    rcases frame_of_next hg with ⟨rfl, pt, hpt, rfl⟩ | ⟨hq, hq'⟩
    · rcases frame_of_next hg' with ⟨-, pt', hpt', rfl⟩ | ⟨hr, hr'⟩
      · obtain rfl := Option.some.inj (hpt.symm.trans hpt')
        exact Frame.exclusive_self _
      · exact (hnew hpt hr').1
    · rcases frame_of_next hg' with ⟨rfl, pt, hpt, rfl⟩ | ⟨hr, hr'⟩
      · exact (hnew hpt hq').2
      · exact (h.exclusive q r g g' hq' hr').later hl (h.facts q g hq') (h.facts r g' hr')

theorem run_inv (h : (machine τ).Reachable s) : Inv s := by
  apply h.invariant (fun _ => Inv.init)
  rintro ⟨tid, c⟩ s t _ hinv _ hs
  rcases step_cases hs with ⟨-, rfl⟩ | ⟨f, a, p, hf, hn, rfl⟩
  · exact hinv.start tid c.call.1 c.call.2
  · exact hinv.next hf hn

/-- What a step of a thread does to the memory. -/
theorem Inv.later (h : Inv s) (hs : (machine τ).step (tid, c) s = some t) :
    Later s.mem t.mem := by
  rcases step_cases hs with ⟨-, rfl⟩ | ⟨f, a, p, hf, hn, rfl⟩
  · exact .refl _
  · exact h.shape.later (next_knows h.shape (h.clean f.side tid)
      ⟨h.facts tid f hf, h.permit tid f hf⟩ hn).1

end Runs
end UnboundedDeque.OFDeque
