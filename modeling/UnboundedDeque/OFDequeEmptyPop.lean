import UnboundedDeque.OFDequeEmpty

/-!
# When a pop returns empty

The account of a run tells for each call whether the deque has been empty at an
instant since its start. The check before sealing is unsound when the back
pointer test reads a word that `casType` has left in a slot without a link.
-/
namespace UnboundedDeque.OFDeque
open StepMachine

section EmptyPop

variable {τ : Type*} [BufferSize] {m : Memory τ} {S : Side} {tid q : τ}
  {call : Call Word} {v : View} {b n : Address} {i : ℤ} {c : Choice} {a : Action} {pt : Point}
  {x reach : Slot} {e e' : Bool} {k : Attempt} {s t : State τ}

/-- Whether the deque has been empty since a thread's call has started. -/
def noteEmpty [DecidableEq τ] (l : τ × Choice) (s t : State τ) (saw : τ → Bool) : τ → Bool := fun q =>
  (saw q && !(decide (q = l.1) && (s.frames q).isNone)) || decide (t.mem.content = [])

def watched (τ : Type*) [DecidableEq τ] : Machine (τ × Choice) (State τ × (τ → Bool)) :=
  (machine τ).account (fun _ => false) noteEmpty

/-- A pop is about to load a back slot that passes the test without being a link,
and its check before sealing relies on it. -/
def State.backUnlinked (s : State τ) (tid : τ) : Bool :=
  match s.frames tid with
  | some ⟨S, .pop, .back v reach⟩ =>
    decide (v.near.type = .sealed ∧ reach.type = farType S ∧
      (s.mem.slot v.far.word (nearLink S)).word = v.buffer ∧
      s.mem.type v.far.word (nearLink S) ≠ .value)
  | _ => false

/-- The near slot has not changed since it was read. -/
def Memory.Current (m : Memory τ) (v : View) : Prop :=
  (m.slot v.buffer v.index).count = v.near.count

namespace Memory

/-- If the near slot is empty and current, the deque has been empty. -/
def NearSaw (m : Memory τ) (S : Side) (v : View) (e : Bool) : Prop :=
  v.near.type = nearType S → m.Current v → e

/-- The neighbour of an empty near slot is not unlinked unless the deque has been empty. -/
def Gone (m : Memory τ) (S : Side) (v : View) (e : Bool) : Prop :=
  v.near.type = nearType S → m.Current v → v.far.word ∈ m.dead → e

/-- A sealed near slot stays, and so does the link beside it. -/
def Frozen (m : Memory τ) (S : Side) (v : View) : Prop :=
  v.near.type = .sealed →
    m.type v.buffer (farValue S) = .sealed ∧ m.IsLink v.buffer (farLink S) v.far.word

/-- What an empty slot on the other side of the edge shows. -/
def Reached (m : Memory τ) (S : Side) (v : View) (e : Bool) : Prop :=
  m.NearSaw S v e ∧ (v.near.type = .sealed → v.buffer ∉ m.dead → e)

end Memory

/-- What a point of a call shows about the deque having been empty. -/
def Point.Empties (m : Memory τ) (S : Side) (e : Bool) : Point → Prop
  | .far _ b i x => x.type = .sealed → i = farValue S → m.type b i = .sealed
  | .reach v => m.Gone S v e ∧ m.Frozen S v
  | .back v x => m.Gone S v e ∧ m.Frozen S v ∧ (x.type = farType S → m.Reached S v e)
  | .recheck v _ => m.Current v → e
  | .updThreshold v _ _ | .updLoad v _ _ _ | .updFirst v _ _ | .updSecond v _ _ _
  | .updThird v _ _ _ _ | .updLink v _ _ _ | .updReserve v _ _ _ | .updValidate v _ _ _
  | .updCas v _ _ | .retire v _ => m.NearSaw S v e
  | pt => pt.result = some .empty → e

section Stability

variable {m' : Memory τ}

theorem current_later (h : Later m m') (hv : m.ViewOk S v) (hc : m'.Current v) : m.Current v := by
  have hs := h.slot_of_current hv.buffer hv.near hc
  rwa [Memory.Current, hs] at hc

theorem nearSaw_later (h : Later m m') (hv : m.ViewOk S v) (he : e → e') (hs : m.NearSaw S v e) :
    m'.NearSaw S v e' := fun hn hc => he (hs hn (current_later h hv hc))

theorem frozen_later (h : Later m m') (hb : m.Published v.buffer) (hs : m.Frozen S v) :
    m'.Frozen S v := by
  intro hn
  obtain ⟨ht, hl⟩ := hs hn
  exact ⟨h.sealed v.buffer S hb ht, h.frozen v.buffer S _ hb ht hl⟩

theorem reached_later (h : Later m m') (hv : m.ViewOk S v) (he : e → e') (hs : m.Reached S v e) :
    m'.Reached S v e' :=
  ⟨nearSaw_later h hv he hs.1, fun hn hd => he (hs.2 hn fun hd' => hd (h.dead _ hd'))⟩

/-- The near slot that was read, as long as it is current. -/
theorem type_of_current (hv : m.ViewOk S v) (hc : m.Current v) :
    m.type v.buffer v.index = v.near.type := (hv.near.2 hc).1

/-- The deque is empty when the sealed neighbour of an empty near slot is unlinked. -/
theorem empty_of_unlink (h : Shape m) (hv : m.StraddleOk S v) (hn : v.near.type = nearType S)
    (hc : m.Current v) (hd : v.far.word ∉ m.dead) {R : Side} {p : Address} {w : Word}
    (ha : m.Allowed tid (.unlink R p v.far.word w)) : m.content = [] := by
  have htype : m.type v.buffer (farValue S) = nearType S := by
    rw [← hv.atEnd, type_of_current hv.toViewOk hc, hn]
  have hlive := h.live_of_near hv.buffer htype
  have hl := hv.linked.resolve_right hd
  have hj := h.joined_of_link hlive hl
  obtain ⟨-, -, hs⟩ := ha
  rcases S.eq_or_eq_opposite R with rfl | rfl
  · apply h.empty_straddle hlive hl
    · rw [Memory.reads, htype, ← farType_opposite, SlotType.reads_farType]
    · rw [Memory.reads, hs, SlotType.reads_sealed_nearValue]
  · have hfar := ((h.buffer _ hv.neighbor).farLink_of_sealed hs).2
    exact absurd (hfar.symm.trans hj.2.1) (farType_ne_value _)

variable [DecidableEq τ]

theorem gone_act (h : Shape m) (ha : m.Allowed tid a) (hv : m.StraddleOk S v) (he : e → e')
    (hempty : (m.act tid a).content = [] → e') (hs : m.Gone S v e) :
    (m.act tid a).Gone S v e' := by
  intro hn hc hd
  have hc' := current_later (h.later ha) hv.toViewOk hc
  by_cases hd' : v.far.word ∈ m.dead
  · exact he (hs hn hc' hd')
  · obtain ⟨R, p, w, rfl⟩ := ((Shape.dead_act a).mp hd).resolve_left hd'
    apply hempty
    rw [h.content_unlink ha]
    exact empty_of_unlink h hv hn hc' hd' ha

/-- What the others do keeps what a call knows. -/
theorem Point.Empties.act (h : Shape m) (ha : m.Allowed tid a) (hf : pt.Facts m q S call)
    (he : e → e') (hempty : (m.act tid a).content = [] → e') (hs : pt.Empties m S e) :
    pt.Empties (m.act tid a) S e' := by
  have hl := h.later ha
  cases pt with
  | far x b i y =>
    intro ht hi
    subst hi
    exact hl.sealed b S hf.2.1 (hs ht rfl)
  | reach v => exact ⟨gone_act h ha hf he hempty hs.1, frozen_later hl hf.buffer hs.2⟩
  | back v x =>
    exact ⟨gone_act h ha hf.1 he hempty hs.1, frozen_later hl hf.1.buffer hs.2.1,
      fun ht => reached_later hl hf.1.toViewOk he (hs.2.2 ht)⟩
  | recheck v k => exact fun hc => he (hs (current_later hl hf.2.1 hc))
  | updThreshold v n R => exact nearSaw_later hl hf.toViewOk he hs
  | updLoad v n R t => exact nearSaw_later hl hf.toViewOk he hs
  | updFirst v n u => exact nearSaw_later hl hf.toViewOk he hs
  | updSecond v n u x => exact nearSaw_later hl hf.1.toViewOk he hs
  | updThird v n u x y => exact nearSaw_later hl hf.1.toViewOk he hs
  | updLink v n u i => exact nearSaw_later hl hf.1.toViewOk he hs
  | updReserve v n u p => exact nearSaw_later hl hf.1.toViewOk he hs
  | updValidate v n u p => exact nearSaw_later hl hf.1.toViewOk he hs
  | updCas v n u => exact nearSaw_later hl hf.toViewOk he hs
  | retire v n => exact nearSaw_later hl hf.toViewOk he hs
  | _ => exact fun hr => he (hs hr)

end Stability

section Steps

omit [BufferSize] in
theorem empties_of_none (hp : pt.result = none) : pt.result = some .empty → (e : Prop) := by
  intro hr
  rw [hp] at hr
  cases hr

theorem popBoundary_empties (hs : v.far.type = farType S → m.NearSaw S v e) :
    (popBoundary S v).Empties m S e := by
  unfold popBoundary
  split_ifs with hf hn
  · exact hs hf hn
  · exact empties_of_none rfl
  · exact empties_of_none rfl

theorem afterRemove_empties (hs : v.far.type = farType S → m.NearSaw S v e) :
    (afterRemove S call v).Empties m S e := by
  cases call with
  | push w => exact empties_of_none rfl
  | pop => exact popBoundary_empties hs

theorem popRemove_empties (hf : v.far.type = .value)
    (hs : reach.type = .sealed → m.NearSaw S v e) : (popRemove S v n reach).Empties m S e := by
  unfold popRemove
  split_ifs with hr hn
  · exact hs hr hn
  · exact empties_of_none rfl
  · exact popBoundary_empties fun hf' => absurd (hf'.symm.trans hf) (farType_ne_value S)

theorem popSeal_empties (hf : v.far.type = .value) (hs : reach.type = .sealed → m.NearSaw S v e)
    (hr : reach.type = farType S → v.near.type = nearType S ∨ v.near.type = .sealed →
      m.Current v → e) : (popSeal S v n reach).Empties m S e := by
  unfold popSeal
  split_ifs with ht hn
  · exact hr ht hn
  · exact empties_of_none rfl
  · exact popRemove_empties hf hs

theorem pushStraddle_empties : (pushStraddle S v n reach).Empties m S e := by
  unfold pushStraddle
  split_ifs <;> exact empties_of_none rfl

/-- The far slot that `doPush` and `doPop` have just read at the end of a buffer. -/
theorem reach_empties (h : Shape m) {hint : Hint} (hb : m.Published b)
    (hx : m.Seen b (farValue S) x) (hs : x.type = .sealed → m.type b (farValue S) = .sealed)
    (ht : m.type b (farLink S) ≠ farType S) :
    (Point.reach ⟨hint, b, farValue S, x, m.slot b (farLink S)⟩).Empties m S e := by
  obtain ⟨hl, -⟩ := h.link_of_ne hb ht
  constructor
  · intro hn hc hd
    have htype : m.type b (farValue S) = nearType S := (hx.2 hc).1.trans hn
    have hlive := (h.live_joined hb (h.joined_of_link (h.live_of_near hb htype) hl)).2
    exact absurd hd (List.disjoint_of_nodup_append h.nodup hlive)
  · exact fun hn => ⟨hs hn, hl⟩

theorem checkEdge_empties (h : Shape m) {hint : Hint} {cache : Option Address}
    (hb : m.Published b) (hi : Near S i) (hx : m.Seen b i x)
    (hs : x.type = .sealed → i = farValue S → m.type b i = .sealed)
    (hempty : m.content = [] → e) :
    (checkEdge S call cache ⟨hint, b, i, x, m.slot b (i + farDirection S)⟩).Empties m S e := by
  have hreach (hie : i = farValue S) (ht : m.type b (i + farDirection S) ≠ farType S) :
      (Point.reach ⟨hint, b, i, x, m.slot b (i + farDirection S)⟩).Empties m S e := by
    subst hie
    rw [farValue_add] at ht ⊢
    exact reach_empties h hb hx (fun hn => hs hn rfl) ht
  have hedge (ht : m.type b (i + farDirection S) = farType S) :
      m.NearSaw S ⟨hint, b, i, x, m.slot b (i + farDirection S)⟩ e := fun hn hc =>
    hempty (h.empty_edge hb hi ((hx.2 hc).1.trans hn) ht)
  unfold checkEdge
  split_ifs with h₁ h₂ h₃
  · exact empties_of_none rfl
  · exact empties_of_none rfl
  · exact empties_of_none rfl
  cases call with
  | push w =>
    simp only [pushEdge]
    split_ifs with hie ht
    · exact empties_of_none rfl
    · cases cache <;> exact empties_of_none rfl
    · exact hreach (not_not.mp hie) ht
  | pop =>
    simp only [popEdge]
    split_ifs with hie hn ht
    · apply hedge _ hn
      by_contra ht
      exact h₂ ⟨(hi.next hie).ne_farLink S, ht⟩
    · exact empties_of_none rfl
    · exact hreach (not_not.mp hie) ht
    · exact popBoundary_empties hedge

/-- The reaching slot has been read. -/
theorem back_empties (h : Shape m) (hv : m.StraddleOk S v) (hempty : m.content = [] → e)
    (hs : (Point.reach v).Empties m S e) :
    (Point.back v (m.slot v.far.word (nearValue S))).Empties m S e := by
  obtain ⟨hgone, hfrozen⟩ := hs
  refine ⟨hgone, hfrozen, fun ht => ?_⟩
  have hf : m.type v.far.word (nearValue S) = farType S := ht
  have hreads : m.reads v.far.word (nearValue S) = farType S := by
    rw [Memory.reads, hf, SlotType.reads_farType]
  have hnear : m.type v.far.word (farValue S.opposite) = nearType S.opposite := by
    rwa [farValue_opposite, nearType_opposite]
  have hlive := h.live_of_near hv.neighbor hnear
  have hnd : v.far.word ∉ m.dead := List.disjoint_of_nodup_append h.nodup hlive
  constructor
  · intro hn hc
    have htype : m.type v.buffer (farValue S) = nearType S := by
      rw [← hv.atEnd, type_of_current hv.toViewOk hc, hn]
    apply hempty
    apply h.empty_straddle (h.live_of_near hv.buffer htype) (hv.linked.resolve_right hnd) _ hreads
    rw [Memory.reads, htype, ← farType_opposite, SlotType.reads_farType]
  · intro hn hd
    obtain ⟨hsealed, hl⟩ := hfrozen hn
    apply hempty
    apply h.empty_straddle (Shape.live_of_not_dead hv.buffer hd) hl _ hreads
    rw [Memory.reads, hsealed, SlotType.reads_sealed_farValue]

/-- The back slot has been read, and it passes the test. -/
theorem popSeal_empties_of_back (h : Shape m) (hv : m.StraddleOk S v)
    (hempty : m.content = [] → e) (hs : (Point.back v x).Empties m S e)
    (hx : x.type = .sealed → m.type v.far.word (nearValue S) = .sealed)
    (hback : (m.slot v.far.word (nearLink S)).word = v.buffer)
    (hok : v.near.type = .sealed → x.type = farType S →
      m.type v.far.word (nearLink S) = .value) :
    (popSeal S v v.far.word x).Empties m S e := by
  obtain ⟨hgone, hfrozen, hreached⟩ := hs
  apply popSeal_empties hv.isLink
  · intro ht hn hc
    have htype : m.type v.buffer (farValue S) = nearType S := by
      rw [← hv.atEnd, type_of_current hv.toViewOk hc, hn]
    rcases hv.linked with hl | hd
    · apply hempty
      apply h.empty_straddle (h.live_of_near hv.buffer htype) hl
      · rw [Memory.reads, htype, ← farType_opposite, SlotType.reads_farType]
      · rw [Memory.reads, hx ht, SlotType.reads_sealed_nearValue]
    · exact hgone hn hc hd
  · intro ht hn hc
    rcases hn with hn | hn
    · exact (hreached ht).1 hn hc
    · apply (hreached ht).2 hn
      intro hd
      obtain ⟨hsealed, hl⟩ := hfrozen hn
      exact h.no_link_back hd hsealed hl ⟨hok hn ht, hback⟩

theorem unsafeNext_empties (hr : k.Ready m tid S call v) :
    (k.unsafeNext S call v).Empties m S e := by
  have hvalue (hf : v.far.type = .value) (hf' : v.far.type = farType S) : m.NearSaw S v e :=
    absurd (hf'.symm.trans hf) (farType_ne_value S)
  cases k with
  | «seal» n x =>
    obtain ⟨-, -, hf, -, -, -, -, hx⟩ := hr
    exact popRemove_empties hf fun hx' => absurd (hx.symm.trans hx') (farType_ne_sealed S)
  | remove n => exact afterRemove_empties (hvalue hr.2.1)
  | _ => exact empties_of_none rfl

theorem missedNext_empties (hr : k.Ready m tid S call v) :
    (k.missedNext S call v).Empties m S e := by
  have hvalue (hf : v.far.type = .value) (hf' : v.far.type = farType S) :
      m.NearSaw S v.countNear e := absurd (hf'.symm.trans hf) (farType_ne_value S)
  cases k with
  | «seal» n x =>
    obtain ⟨-, -, hf, -, -, -, -, hx⟩ := hr
    exact popRemove_empties hf fun hx' => absurd (hx.symm.trans hx') (farType_ne_sealed S)
  | remove n => exact afterRemove_empties (hvalue hr.2.1)
  | _ => exact empties_of_none rfl

theorem updDone_empties {R : Side} (hs : m.NearSaw S v e) : (updDone v n R).Empties m S e := by
  cases R <;> exact hs

theorem updSealed_empties {u : Update} (hs : m.NearSaw S v e) :
    (updSealed v n u i).Empties m S e := by
  unfold updSealed
  cases u.hazSlot with
  | none =>
    dsimp only
    split_ifs
    · exact updDone_empties hs
    · exact hs
    · exact hs
  | some z =>
    dsimp only
    split_ifs
    · exact hs
    · exact hs
    · exact hs
    · exact empties_of_none rfl

variable [DecidableEq τ]

/-- After sealing the neighbour, and after unlinking it. -/
theorem doneNext_empties {w : Word} (h : Shape m) (hf : (Point.effect v k).Facts m tid S call)
    (hp : k.Permit m S v) (ha : m.Allowed tid (k.action S call v w))
    (hslot : m.slot (k.target S v).1 (k.target S v).2.1 = (k.target S v).2.2)
    (hempty : (m.act tid (k.action S call v w)).content = [] → e) :
    (k.doneNext S v).Empties (m.act tid (k.action S call v w)) S e := by
  obtain ⟨hv, hr, -, hnear⟩ := hf
  have hl := h.later ha
  cases k with
  | «seal» n x =>
    obtain ⟨-, hi, hfar, -, -, -, -, hx⟩ := hr
    have hfar' : v.countNear.far.type = .value := hfar
    apply popRemove_empties hfar'
    intro _ hn hc
    have hs := hl.slot_of_current hv.buffer hnear hc
    have htype : m.type v.buffer (farValue S) = nearType S := by
      have hc' : (m.slot v.buffer v.index).count = v.countNear.near.count :=
        (congrArg Slot.count hs).symm.trans hc
      rw [← hi]
      exact (hnear.2 hc').1.trans hn
    have hj := (hp (congrArg Slot.count hslot)).1
    apply hempty
    rw [h.content_act ha]
    apply h.empty_straddle (h.live_joined hv.buffer hj).1 hj.1
    · rw [Memory.reads, htype, ← farType_opposite, SlotType.reads_farType]
    · have ht : m.type n (nearValue S) = farType S := (congrArg Slot.type hslot).trans hx
      rw [Memory.reads, ht, SlotType.reads_farType]
  | remove n =>
    obtain ⟨hi, -⟩ := hr
    intro hn hc
    have hshape := h.act ha
    have hseen := hl.seen hv.buffer hnear
    apply hempty
    apply hshape.empty_edge (hl.published _ hv.buffer) (inner_farValue S |>.near S)
    · rw [← hi]
      exact (hseen.2 hc).1.trans hn
    · rw [farValue_add]
      have hfar := m.type_cas v.buffer (farLink S) w (farType S)
      exact hfar
  | _ =>
    intro hr
    cases hr

/-- What a call knows after a step of its own. -/
theorem next_empties (h : Shape m)
    (hk : pt.Knows m tid S call) (hs : pt.Empties m S e)
    (hok : ∀ v x, pt = .back v x → call = .pop → v.near.type = .sealed → x.type = farType S →
      (m.slot v.far.word (nearLink S)).word = v.buffer →
      m.type v.far.word (nearLink S) = .value)
    (he : e → e') (hempty : (m.act tid a).content = [] → e') {p : Point}
    (hn : next m c tid S call pt = some (a, some p)) : p.Empties (m.act tid a) S e' := by
  obtain ⟨hf, hp⟩ := hk
  cases pt with
  | near y b i =>
    cases hn
    exact fun ht _ => ht
  | far y b i x =>
    cases hn
    exact checkEdge_empties h hf.2.1 hf.2.2.1 hf.2.2.2 hs hempty
  | reach v =>
    cases hn
    exact back_empties h hf hempty ⟨fun hn hc hd => he (hs.1 hn hc hd), hs.2⟩
  | back v x =>
    cases hn
    split_ifs with hb
    · exact empties_of_none rfl
    · cases call with
      | push w => exact pushStraddle_empties
      | pop =>
        apply popSeal_empties_of_back h hf.1 hempty _ hf.2.2 (not_not.mp hb)
        · exact fun hn ht => hok v x rfl rfl hn ht (not_not.mp hb)
        · exact ⟨fun hn hc hd => he (hs.1 hn hc hd), hs.2.1, fun ht =>
            ⟨fun hn hc => he ((hs.2.2 ht).1 hn hc), fun hn hd => he ((hs.2.2 ht).2 hn hd)⟩⟩
  | recheck v k =>
    cases hn
    split_ifs with hc
    · exact fun _ => he (hs hc)
    · exact empties_of_none rfl
  | safe v k =>
    simp only [next] at hn
    split_ifs at hn
    · cases hn
      exact empties_of_none rfl
    · cases hn
      exact unsafeNext_empties hf.2.1
  | effect v k =>
    simp only [next] at hn
    split_ifs at hn with hc
    · cases hn
      have ha := effect_allowed (w := c.junk) h hf.1 hf.2.1 hf.2.2.1 hp rfl hc
      exact doneNext_empties h hf hp ha hc hempty
    · cases hn
      exact missedNext_empties hf.2.1
  | addLocal b d r =>
    cases hn
    exact fun hr => he (hs hr)
  | casHint y b r =>
    cases hn
    exact fun hr => he (hs hr)
  | clearFirst r =>
    cases hn
    exact fun hr => he (hs hr)
  | updThird v n u y z =>
    cases hn
    split_ifs
    · exact updSealed_empties fun hn hc => he (hs hn hc)
    · exact fun hn hc => he (hs hn hc)
  | updValidate v n u y =>
    cases hn
    split_ifs <;> exact fun hn hc => he (hs hn hc)
  | updCas v n u =>
    simp only [next] at hn
    split_ifs at hn
    · cases hn
      exact updDone_empties fun hn hc => he (hs hn hc)
    · cases hn
      exact fun hn hc => he (hs hn hc)
  | retire v n =>
    cases hn
    exact afterRemove_empties fun _ hn hc => he (hs hn hc)
  | findSlot f i =>
    cases hn
    unfold findSwitch
    split_ifs <;> exact empties_of_none rfl
  | findNeighbor f n j =>
    cases hn
    split <;> exact empties_of_none rfl
  | alloc v =>
    simp only [next] at hn
    split_ifs at hn
    cases hn
    exact empties_of_none rfl
  | fill v n i =>
    simp only [next] at hn
    split_ifs at hn <;> · cases hn; exact empties_of_none rfl
  | hintCheck y =>
    cases hn
    split_ifs <;> exact empties_of_none rfl
  | findPeek f i =>
    cases hn
    split_ifs <;> exact empties_of_none rfl
  | findValidate f n j =>
    cases hn
    split_ifs <;> exact empties_of_none rfl
  | updThreshold v n R =>
    cases hn
    exact fun hn hc => he (hs hn hc)
  | updLoad v n R t =>
    cases hn
    exact fun hn hc => he (hs hn hc)
  | updFirst v n u =>
    cases hn
    exact fun hn hc => he (hs hn hc)
  | updSecond v n u y =>
    cases hn
    exact fun hn hc => he (hs hn hc)
  | updLink v n u i =>
    cases hn
    exact fun hn hc => he (hs hn hc)
  | updReserve v n u y =>
    cases hn
    exact fun hn hc => he (hs hn hc)
  | failed => cases hn
  | clearSecond r => cases hn
  | _ =>
    cases hn
    exact empties_of_none rfl

end Steps

section Runs

/-- What every call knows. -/
def EmptiesOk (s : State τ) (saw : τ → Bool) : Prop :=
  ∀ tid f, s.frames tid = some f → f.point.Empties s.mem f.side (saw tid)

theorem backUnlinked_eq_false {f : Frame} (hf : s.frames tid = some f)
    (h : s.backUnlinked tid = false) (v : View) (x : Slot) (hp : f.point = .back v x)
    (hc : f.call = .pop) (hn : v.near.type = .sealed) (hx : x.type = farType f.side)
    (hb : (s.mem.slot v.far.word (nearLink f.side)).word = v.buffer) :
    s.mem.type v.far.word (nearLink f.side) = .value := by
  obtain ⟨S, call, pt⟩ := f
  dsimp only at hp hc hx hb
  subst hp hc
  rw [State.backUnlinked, hf] at h
  by_contra ht
  exact absurd h (by simp [hn, hx, hb, ht])

variable [DecidableEq τ]

theorem noteEmpty_of_saw {saw : τ → Bool} (hq : q ≠ tid ∨ (s.frames q).isSome) (h : saw q) :
    noteEmpty (tid, c) s t saw q := by
  rw [noteEmpty, h, Bool.true_and, Bool.or_eq_true]
  left
  rw [Bool.not_eq_true', Bool.and_eq_false_iff]
  rcases hq with hq | hq
  · exact .inl (decide_eq_false hq)
  · exact .inr (Option.isNone_eq_false_iff.mpr hq)

theorem noteEmpty_of_empty {saw : τ → Bool} (h : t.mem.content = []) :
    noteEmpty (tid, c) s t saw q := by
  rw [noteEmpty, h]
  simp

theorem emptiesOk_step {saw : τ → Bool} (hi : Inv s) (hs : EmptiesOk s saw)
    (hok : s.backUnlinked tid = false) (hst : (machine τ).step (tid, c) s = some t) :
    EmptiesOk t (noteEmpty (tid, c) s t saw) := by
  intro q g hg
  rcases step_cases hst with ⟨hf, rfl⟩ | ⟨f, a, p, hf, hn, rfl⟩
  · rcases frame_of_start hg with ⟨rfl, rfl⟩ | ⟨hq, hg'⟩
    · exact empties_of_none rfl
    · have hskip : s.mem.Allowed tid .skip := trivial
      exact (hs q g hg').act hi.shape hskip (hi.facts q g hg')
        (noteEmpty_of_saw (.inl hq)) noteEmpty_of_empty
  · have hk : f.point.Knows s.mem tid f.side f.call := ⟨hi.facts tid f hf, hi.permit tid f hf⟩
    have ha := (next_knows hi.shape (hi.clean f.side tid) hk hn).1
    rcases frame_of_next hg with ⟨rfl, pt, rfl, rfl⟩ | ⟨hq, hg'⟩
    · apply next_empties hi.shape hk (hs q f hf) _
        (noteEmpty_of_saw (.inr (by rw [hf]; rfl))) (fun he => noteEmpty_of_empty he) hn
      exact fun v x hp hc hn hx hb => backUnlinked_eq_false hf hok v x hp hc hn hx hb
    · exact (hs q g hg').act hi.shape ha (hi.facts q g hg')
        (noteEmpty_of_saw (.inl hq)) fun he => noteEmpty_of_empty he

theorem run_emptiesOk {u : State τ × (τ → Bool)}
    (h : (watched τ).Run (fun l u => u.1.backUnlinked l.1 = false) u) : EmptiesOk u.1 u.2 := by
  apply h.invariant
  · intro u hu tid f hf
    rw [hu.1.frames] at hf
    cases hf
  · rintro ⟨tid, c⟩ u u' hu hs hok hst
    obtain ⟨hst, hsaw⟩ := Machine.account_step.mp hst
    rw [hsaw]
    exact emptiesOk_step (run_inv hu.reachable_of_account) hs hok hst

/-- In a run in which no check before sealing relies on a back slot without a
link, a pop about to return empty has seen the deque empty. -/
theorem empty_pop_saw_empty {u : State τ × (τ → Bool)}
    (h : (watched τ).Run (fun l u => u.1.backUnlinked l.1 = false) u) {f : Frame}
    (hf : u.1.frames tid = some f) (hr : f.point.result = some .empty) : u.2 tid = true := by
  have hs := run_emptiesOk h tid f hf
  cases hp : f.point with
  | addLocal b d r =>
    rw [hp] at hs hr
    exact hs hr
  | casHint x b r =>
    rw [hp] at hs hr
    exact hs hr
  | clearFirst r =>
    rw [hp] at hs hr
    exact hs hr
  | clearSecond r =>
    rw [hp] at hs hr
    exact hs hr
  | _ =>
    rw [hp] at hr
    cases hr

end Runs

end EmptyPop

section BackPointer

attribute [local instance] four

/-- Thread 3 reads the edge of the unlinked buffer 0, while its neighbour is
empty for the left end. Before it goes on, 22 is pushed there, and the buffer to
the right of it is emptied and unlinked, which leaves 0 in its link slot. -/
def leftoverWord : List (ℕ × Choice) :=
  steps 14 0 .left (.push 11) 1 ++ steps 21 0 .left (.push 12) 1 ++
  steps 32 2 .right .pop 1 ++ steps 20 1 .left .pop 1 ++ steps 27 1 .right (.push 21) 2 ++
  steps 13 3 .left .pop 1 ++ steps 23 2 .right .pop 1 ++ steps 19 1 .left (.push 22) 1 ++
  steps 31 2 .right .pop 1 ++ steps 3 3 .left .pop 1

def afterLeftoverWord : State ℕ × (ℕ → Bool) :=
  ((watched ℕ).exec (fun _ _ => True) leftoverWord (constructed ℕ, fun _ => false)).getD
    (constructed ℕ, fun _ => false)

theorem empty_pop_of_full_deque : ¬ ∀ u, (watched ℕ).Reachable u → ∀ tid f,
    u.1.frames tid = some f → f.point.result = some .empty → u.2 tid = true := by
  intro h
  have hrun : (watched ℕ).Reachable afterLeftoverWord :=
    Machine.Run.exec_getD _ (.start ⟨init_constructed, rfl⟩)
  have hstate : (afterLeftoverWord.1.frames 3).bind (fun f => f.point.result) = some .empty ∧
      afterLeftoverWord.2 3 = false := by decide +kernel
  obtain ⟨hempty, hsaw⟩ := hstate
  obtain ⟨f, hf, hresult⟩ := Option.bind_eq_some_iff.mp hempty
  exact Bool.false_ne_true (hsaw.symm.trans (h _ hrun 3 f hf hresult))

/-- A right pop starts while 1 is in the deque. A left pop takes the 1, and the right end is
beside buffer 1, which a third pop has sealed and not yet unlinked. -/
def overlappingPops : List (ℕ × Choice) :=
  steps 14 1 .right (.push 1) 1 ++ steps 24 1 .right (.push 3) 1 ++ steps 30 2 .right .pop 1 ++
    steps 4 0 .right .pop 1 ++ steps 14 1 .left .pop 1 ++ steps 11 0 .right .pop 1

def emptyPop : State ℕ × (ℕ → Bool) :=
  ((watched ℕ).exec (fun l u => u.1.backUnlinked l.1 = false) overlappingPops
    (constructed ℕ, fun _ => false)).getD (constructed ℕ, fun _ => false)

theorem emptyPop_saw_empty : emptyPop.1.mem.chain = [0, 1] ∧ emptyPop.1.mem.type 1 1 = .sealed ∧
    (emptyPop.1.frames 2).isSome = true ∧ ∃ f, emptyPop.1.frames 0 = some f ∧
      f.point.result = some .empty ∧ emptyPop.2 0 = true := by
  have hrun : (watched ℕ).Run (fun l u => u.1.backUnlinked l.1 = false) emptyPop :=
    Machine.Run.exec_getD _ (.start ⟨init_constructed, rfl⟩)
  have hstate : emptyPop.1.mem.chain = [0, 1] ∧ emptyPop.1.mem.type 1 1 = .sealed ∧
      (emptyPop.1.frames 2).isSome = true ∧
      (emptyPop.1.frames 0).bind (fun f => f.point.result) = some .empty := by decide +kernel
  obtain ⟨hchain, hsealed, hother, hempty⟩ := hstate
  obtain ⟨f, hf, hresult⟩ := Option.bind_eq_some_iff.mp hempty
  exact ⟨hchain, hsealed, hother, f, hf, hresult, empty_pop_saw_empty hrun hf hresult⟩

end BackPointer
end UnboundedDeque.OFDeque
