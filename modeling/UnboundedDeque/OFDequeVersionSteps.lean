import UnboundedDeque.OFDequeVersions

/-!
# What the locals stand for

Each point of a call expects certain slots: a local holds the slot that was loaded into
it, with the thread's own changes counted. The count of a slot in the memory goes with all
its changes since a load. Both are kept by every step of the machine with bounded counts.
-/
namespace UnboundedDeque.OFDeque
open StepMachine

variable {τ : Type*}

section Tracks

variable {m m' : Memory τ} {k : Notes τ} {tid q : τ} {S : Side} {call : Call Word} {p : Point}
  {v : View} {n : Address} {x : Slot}

def View.nearExpected (v : View) : Expected := ⟨.near, v.buffer, v.index, v.near⟩

def View.farExpected (S : Side) (v : View) : Expected :=
  ⟨.far, v.buffer, v.index + farDirection S, v.far⟩

variable [BufferSize]

def reachExpected (S : Side) (n : Address) (reach : Slot) : Expected :=
  ⟨.reach, n, nearValue S, reach⟩

variable [DecidableEq τ]

/-- A thread expects both slots of an edge. -/
structure Notes.Reads (k : Notes τ) (tid : τ) (S : Side) (v : View) : Prop where
  near : k.Expects tid v.nearExpected
  far : k.Expects tid (v.farExpected S)

/-- A thread expects both slots of an edge at the end of a buffer. -/
structure Notes.ReadsEnd (k : Notes τ) (tid : τ) (S : Side) (v : View) : Prop extends
    k.Reads tid S v where
  index : v.index = farValue S

/-- What the locals stand for before `casSafe`. A buffer to be appended is the thread's own. -/
def Attempt.Held (m : Memory τ) (k : Notes τ) (tid : τ) (S : Side) (v : View) : Attempt → Prop
  | .interiorPush | .interiorPop => k.Reads tid S v
  | .append n => k.ReadsEnd tid S v ∧ m.owner n = .thread S tid
  | .remove _ | .boundaryPop => k.ReadsEnd tid S v
  | .straddle n reach | .seal n reach =>
    k.ReadsEnd tid S v ∧ k.Expects tid (reachExpected S n reach)

/-- What they stand for after it. -/
def Attempt.Secured (m : Memory τ) (k : Notes τ) (tid : τ) (S : Side) (v : View) :
    Attempt → Prop
  | .interiorPush => k.Expects tid (v.farExpected S)
  | .append n => k.Expects tid (v.farExpected S) ∧ v.index = farValue S ∧
    m.owner n = .thread S tid
  | .straddle n reach => k.Expects tid (reachExpected S n reach)
  | .interiorPop | .boundaryPop => k.Expects tid v.nearExpected
  | .seal n reach => k.ReadsEnd tid S v.countNear ∧ k.Expects tid (reachExpected S n reach)
  | .remove _ => k.ReadsEnd tid S v.countNear

/-- What the locals of a point stand for. -/
def Point.Tracks (m : Memory τ) (k : Notes τ) (tid : τ) (S : Side) : Point → Prop
  | .far _ b i x => k.Expects tid ⟨.near, b, i, x⟩
  | .initLeft v n | .initRight v n | .fill v n _ | .insertLink v n | .insertValue v n =>
    k.ReadsEnd tid S v ∧ m.owner n = .thread S tid
  | .alloc v | .reach v | .updThreshold v _ _ | .updLoad v _ _ _ | .updFirst v _ _
  | .updSecond v _ _ _ | .updThird v _ _ _ _ | .updLink v _ _ _ | .updReserve v _ _ _
  | .updValidate v _ _ _ | .updCas v _ _ | .retire v _ => k.ReadsEnd tid S v
  | .back v x => k.ReadsEnd tid S v ∧ k.Expects tid (reachExpected S v.far.word x)
  | .recheck v a | .safe v a => a.Held m k tid S v
  | .effect v a => a.Secured m k tid S v
  | _ => True

theorem popBoundary_tracks (h : k.ReadsEnd tid S v) : (popBoundary S v).Tracks m k tid S := by
  unfold popBoundary
  split_ifs
  · exact h
  · exact h
  · trivial

theorem popRemove_tracks (h : k.ReadsEnd tid S v) :
    (popRemove S v n x).Tracks m k tid S := by
  unfold popRemove
  split_ifs
  · exact h
  · exact h
  · exact popBoundary_tracks h

theorem popSeal_tracks (h : k.ReadsEnd tid S v) (hx : k.Expects tid (reachExpected S n x)) :
    (popSeal S v n x).Tracks m k tid S := by
  unfold popSeal
  split_ifs
  · exact ⟨h, hx⟩
  · exact ⟨h, hx⟩
  · exact popRemove_tracks h

theorem pushStraddle_tracks (h : k.ReadsEnd tid S v)
    (hx : k.Expects tid (reachExpected S n x)) : (pushStraddle S v n x).Tracks m k tid S := by
  unfold pushStraddle
  split_ifs
  · exact ⟨h, hx⟩
  · exact h
  · trivial

theorem afterRemove_tracks (h : k.ReadsEnd tid S v) :
    (afterRemove S call v).Tracks m k tid S := by
  cases call with
  | push w => trivial
  | pop => exact popBoundary_tracks h

theorem checkEdge_tracks (h : k.Reads tid S v)
    (hcache : ∀ n, m.cache S tid = some n → m.owner n = .thread S tid) :
    (checkEdge S call (m.cache S tid) v).Tracks m k tid S := by
  unfold checkEdge
  split_ifs
  · trivial
  · trivial
  · trivial
  · cases call with
    | push w =>
      dsimp only [pushEdge]
      split_ifs with hi hf
      · exact h
      · cases hc : m.cache S tid with
        | none => exact ⟨h, not_not.mp hi⟩
        | some n => exact ⟨⟨h, not_not.mp hi⟩, hcache n hc⟩
      · exact ⟨h, not_not.mp hi⟩
    | pop =>
      dsimp only [popEdge]
      split_ifs with hi hn hf
      · exact h
      · exact h
      · exact ⟨h, not_not.mp hi⟩
      · exact popBoundary_tracks ⟨h, not_not.mp hi⟩

omit [BufferSize] in
theorem Notes.Reads.wrap (h : k.Reads tid S v) : k.Reads tid S v.wrap :=
  ⟨h.near.wrap, h.far.wrap⟩

theorem Notes.ReadsEnd.wrap (h : k.ReadsEnd tid S v) : k.ReadsEnd tid S v.wrap :=
  ⟨h.toReads.wrap, h.index⟩

theorem Notes.ReadsEnd.wrap_countNear (h : k.ReadsEnd tid S v.countNear) :
    k.ReadsEnd tid S v.wrap.countNear := by
  refine ⟨⟨h.near.congr ?_, h.far.wrap⟩, h.index⟩
  exact (Nat.mod_modEq v.near.count countBound).add_right 1

theorem Attempt.Held.wrap {a : Attempt} (h : a.Held m k tid S v) :
    a.wrap.Held m k tid S v.wrap := by
  cases a with
  | interiorPush => exact Notes.Reads.wrap h
  | append n => exact ⟨h.1.wrap, h.2⟩
  | straddle n x => exact ⟨h.1.wrap, h.2.wrap⟩
  | interiorPop => exact Notes.Reads.wrap h
  | «seal» n x => exact ⟨h.1.wrap, h.2.wrap⟩
  | remove n => exact Notes.ReadsEnd.wrap h
  | boundaryPop => exact Notes.ReadsEnd.wrap h

theorem Attempt.Secured.wrap {a : Attempt} (h : a.Secured m k tid S v) :
    a.wrap.Secured m k tid S v.wrap := by
  cases a with
  | interiorPush => exact Notes.Expects.wrap h
  | append n => exact ⟨h.1.wrap, h.2⟩
  | straddle n x => exact Notes.Expects.wrap h
  | interiorPop => exact Notes.Expects.wrap h
  | «seal» n x => exact ⟨h.1.wrap_countNear, h.2.wrap⟩
  | remove n => exact Notes.ReadsEnd.wrap_countNear h
  | boundaryPop => exact Notes.Expects.wrap h

/-- The counts of the locals may be cut to their bits. -/
theorem Point.Tracks.wrap (h : p.Tracks m k tid S) : p.wrap.Tracks m k tid S := by
  cases p with
  | far _ b i x => exact Notes.Expects.wrap h
  | back v x => exact ⟨h.1.wrap, h.2.wrap⟩
  | recheck v a => exact Attempt.Held.wrap h
  | safe v a => exact Attempt.Held.wrap h
  | effect v a => exact Attempt.Secured.wrap h
  | initLeft v n => exact ⟨h.1.wrap, h.2⟩
  | initRight v n => exact ⟨h.1.wrap, h.2⟩
  | fill v n i => exact ⟨h.1.wrap, h.2⟩
  | insertLink v n => exact ⟨h.1.wrap, h.2⟩
  | insertValue v n => exact ⟨h.1.wrap, h.2⟩
  | alloc v => exact Notes.ReadsEnd.wrap h
  | reach v => exact Notes.ReadsEnd.wrap h
  | updThreshold v n R => exact Notes.ReadsEnd.wrap h
  | updLoad v n R t => exact Notes.ReadsEnd.wrap h
  | updFirst v n u => exact Notes.ReadsEnd.wrap h
  | updSecond v n u x => exact Notes.ReadsEnd.wrap h
  | updThird v n u x y => exact Notes.ReadsEnd.wrap h
  | updLink v n u i => exact Notes.ReadsEnd.wrap h
  | updReserve v n u b => exact Notes.ReadsEnd.wrap h
  | updValidate v n u b => exact Notes.ReadsEnd.wrap h
  | updCas v n u => exact Notes.ReadsEnd.wrap h
  | retire v n => exact Notes.ReadsEnd.wrap h
  | _ => trivial

theorem findSwitch_tracks {f : Find} {i : ℤ} : (findSwitch S f i x).Tracks m k tid S := by
  unfold findSwitch
  split_ifs <;> trivial

omit [DecidableEq τ] [BufferSize] in
theorem index_ne_far (S : Side) (i : ℤ) : i ≠ i + farDirection S := by
  cases S <;> simp [farDirection]

/-- A successful `casSafe`. -/
theorem Attempt.Held.safe {a : Attempt} (h : a.Held m k tid S v) (ht : k.Timely tid)
    (hs : m.slot (a.safe S v).1 (a.safe S v).2.1 = (a.safe S v).2.2) :
    a.Secured m (k.after m tid S (.safe v a)) tid S v := by
  have hfar := index_ne_far S v.index
  have hreach (hi : v.index = farValue S) : v.index ≠ nearValue S :=
    hi ▸ (nearValue_ne_farValue S).symm
  cases a with
  | interiorPush => exact h.far.change ht rfl hs (.inr hfar)
  | append n => exact ⟨h.1.far.change ht rfl hs (.inr hfar), h.1.index, h.2⟩
  | straddle n x => exact h.2.change ht rfl hs (.inr (hreach h.1.index))
  | interiorPop => exact h.near.change ht rfl hs (.inr hfar.symm)
  | «seal» n x =>
    refine ⟨⟨⟨?_, ?_⟩, h.1.index⟩, ?_⟩
    · exact h.1.near.count ht rfl hs ⟨rfl, rfl⟩ rfl
    · exact h.1.far.change ht rfl hs (.inr hfar)
    · exact h.2.change ht rfl hs (.inr (hreach h.1.index))
  | remove n =>
    refine ⟨⟨?_, ?_⟩, h.index⟩
    · exact h.near.count ht rfl hs ⟨rfl, rfl⟩ rfl
    · exact h.far.change ht rfl hs (.inr hfar)
  | boundaryPop => exact h.near.change ht rfl hs (.inr hfar.symm)

/-- A `casSafe` without success. -/
theorem Attempt.Held.unsafeNext {a : Attempt} (h : a.Held m k tid S v) :
    (a.unsafeNext S call v).Tracks m k tid S := by
  cases a with
  | «seal» n x => exact popRemove_tracks h.1
  | remove n => exact afterRemove_tracks h
  | _ => trivial

/-- A second compare-exchange without success. -/
theorem Attempt.Secured.missedNext {a : Attempt} (h : a.Secured m k tid S v) :
    (a.missedNext S call v).Tracks m k tid S := by
  cases a with
  | «seal» n x => exact popRemove_tracks h.1
  | remove n => exact afterRemove_tracks h
  | _ => trivial

/-- A successful second compare-exchange. -/
theorem Attempt.Secured.doneNext {a : Attempt} (h : a.Secured m k tid S v) (ht : k.Timely tid)
    (hs : m.slot (a.target S v).1 (a.target S v).2.1 = (a.target S v).2.2) :
    (a.doneNext S v).Tracks m' (k.after m tid S (.effect v a)) tid S := by
  have hfar := index_ne_far S v.index
  cases a with
  | «seal» n x =>
    obtain ⟨hv, -⟩ := h
    have hnear : nearValue S ≠ v.countNear.index := by
      rw [hv.index]
      exact nearValue_ne_farValue S
    have hlink : nearValue S ≠ v.countNear.index + farDirection S := by
      rw [hv.index, farValue_add]
      exact (inner_nearValue S).ne_farLink S
    refine popRemove_tracks ⟨⟨?_, ?_⟩, hv.index⟩
    · exact hv.near.change ht rfl hs (.inr hnear)
    · exact hv.far.change ht rfl hs (.inr hlink)
  | remove n =>
    refine ⟨⟨?_, ?_⟩, h.index⟩
    · exact h.near.change ht rfl hs (.inr hfar.symm)
    · exact h.far.count ht rfl hs ⟨rfl, rfl⟩ rfl
  | _ => trivial

theorem updDone_tracks {R : Side} (h : k.ReadsEnd tid S v) : (updDone v n R).Tracks m k tid S := by
  cases R with
  | left => exact h
  | right => exact h

theorem updSealed_tracks {u : Update} {i : ℤ} (h : k.ReadsEnd tid S v) :
    (updSealed v n u i).Tracks m k tid S := by
  unfold updSealed
  split
  · split_ifs
    · exact updDone_tracks h
    · exact h
    · exact h
  · split_ifs
    · exact h
    · exact h
    · exact h
    · trivial

omit [DecidableEq τ] in
/-- A step that neither loads nor changes a slot leaves the account as it is. -/
theorem Point.quiet_or (p : Point) (S : Side) : p.attempts S = none ∧ p.loading S = none ∨
    (∃ h b i, p = .near h b i) ∨ (∃ h b i x, p = .far h b i x) ∨ (∃ v, p = .reach v) ∨
    (∃ v a, p = .safe v a) ∨ ∃ v a, p = .effect v a := by
  cases p with
  | near h b i => exact .inr (.inl ⟨h, b, i, rfl⟩)
  | far h b i x => exact .inr (.inr (.inl ⟨h, b, i, x, rfl⟩))
  | reach v => exact .inr (.inr (.inr (.inl ⟨v, rfl⟩)))
  | safe v a => exact .inr (.inr (.inr (.inr (.inl ⟨v, a, rfl⟩))))
  | effect v a => exact .inr (.inr (.inr (.inr (.inr ⟨v, a, rfl⟩))))
  | _ => exact .inl ⟨rfl, rfl⟩

/-- A step that neither loads nor changes a slot keeps what the locals stand for. -/
theorem Point.Tracks.next_quiet {c : Choice} {a : Action} {o : Point} (h : p.Tracks m k tid S)
    (ha : p.attempts S = none) (hl : p.loading S = none)
    (hn : next m c tid S call p = some (a, some o)) : o.Tracks (m.act tid a) k tid S := by
  cases p with
  | near | far | reach => cases hl
  | safe | effect => cases ha
  | findSlot f i =>
    cases hn
    exact findSwitch_tracks
  | findPeek f i =>
    cases hn
    split_ifs <;> trivial
  | hintCheck x =>
    cases hn
    split_ifs <;> trivial
  | findValidate f n k =>
    cases hn
    split_ifs <;> trivial
  | findNeighbor f n k =>
    cases hn
    split <;> trivial
  | failed => cases hn
  | alloc v =>
    simp only [OFDeque.next] at hn
    split_ifs at hn
    cases hn
    exact ⟨h, Function.update_self _ _ _⟩
  | fill v n i =>
    simp only [OFDeque.next] at hn
    split_ifs at hn
    · cases hn
      exact h
    · cases hn
      exact h
  | back v x =>
    cases hn
    split_ifs
    · trivial
    · cases call with
      | push w => exact pushStraddle_tracks h.1 h.2
      | pop => exact popSeal_tracks h.1 h.2
  | recheck v k =>
    cases hn
    split_ifs
    · trivial
    · exact h
  | updThird v n u x y =>
    cases hn
    split_ifs
    · exact updSealed_tracks h
    · exact h
  | updValidate v n u b =>
    cases hn
    split_ifs
    · exact h
    · exact h
  | updCas v n u =>
    simp only [OFDeque.next] at hn
    split_ifs at hn
    · cases hn
      exact updDone_tracks h
    · cases hn
      exact h
  | retire v n =>
    cases hn
    exact afterRemove_tracks h
  | clearSecond r => cases hn
  | hintLoad | hintReserve | findLocal | findSealed | findReserve | addLocal | casHint
  | clearFirst =>
    cases hn
    trivial
  | initLeft | initRight | insertLink | insertValue | updThreshold | updLoad | updFirst
  | updSecond | updLink | updReserve =>
    cases hn
    exact h

/-- A step of a thread keeps what its locals stand for. -/
theorem Point.Tracks.next {c : Choice} {a : Action} {o : Point} (h : p.Tracks m k tid S)
    (ht : k.Timely tid) (hcache : ∀ n, m.cache S tid = some n → m.owner n = .thread S tid)
    (hn : next m c tid S call p = some (a, some o)) :
    o.Tracks (m.act tid a) (k.after m tid S p) tid S := by
  rcases p.quiet_or S with ⟨ha, hl⟩ | ⟨x, b, i, rfl⟩ | ⟨x, b, i, y, rfl⟩ | ⟨v, rfl⟩ |
    ⟨v, d, rfl⟩ | ⟨v, d, rfl⟩
  · rw [Notes.after_quiet ha hl]
    exact h.next_quiet ha hl hn
  · cases hn
    exact Notes.expects_load rfl rfl
  · cases hn
    exact checkEdge_tracks ⟨h.load_other rfl rfl nofun, Notes.expects_load rfl rfl⟩ hcache
  · cases hn
    exact ⟨⟨⟨h.near.load_other rfl rfl nofun, h.far.load_other rfl rfl nofun⟩, h.index⟩,
      Notes.expects_load rfl rfl⟩
  · simp only [OFDeque.next] at hn
    split_ifs at hn with hs
    · cases hn
      exact h.safe ht hs
    · cases hn
      rw [Notes.after_missed (S := S) (p := .safe v d) rfl hs]
      exact h.unsafeNext
  · simp only [OFDeque.next] at hn
    split_ifs at hn with hs
    · cases hn
      exact h.doneNext ht hs
    · cases hn
      rw [Notes.after_missed (S := S) (p := .effect v d) rfl hs]
      exact h.missedNext

/-- What the locals stand for is kept by what keeps the expectations and the owners. -/
theorem Point.Tracks.mono {k' : Notes τ} (h : p.Tracks m k tid S)
    (he : ∀ e, k.Expects tid e → k'.Expects tid e)
    (ho : ∀ n, m.owner n = .thread S tid → m'.owner n = .thread S tid) :
    p.Tracks m' k' tid S := by
  have hreads {v : View} (hv : k.Reads tid S v) : k'.Reads tid S v := ⟨he _ hv.near, he _ hv.far⟩
  have hend {v : View} (hv : k.ReadsEnd tid S v) : k'.ReadsEnd tid S v :=
    ⟨hreads hv.toReads, hv.index⟩
  have hheld {v : View} {a : Attempt} (ha : a.Held m k tid S v) : a.Held m' k' tid S v := by
    cases a with
    | interiorPush => exact hreads ha
    | interiorPop => exact hreads ha
    | append n => exact ⟨hend ha.1, ho n ha.2⟩
    | remove n => exact hend ha
    | boundaryPop => exact hend ha
    | straddle n x => exact ⟨hend ha.1, he _ ha.2⟩
    | «seal» n x => exact ⟨hend ha.1, he _ ha.2⟩
  cases p with
  | far _ b i x => exact he _ h
  | back v x => exact ⟨hend h.1, he _ h.2⟩
  | recheck v a => exact hheld h
  | safe v a => exact hheld h
  | effect v a =>
    cases a with
    | append n => exact ⟨he _ h.1, h.2.1, ho n h.2.2⟩
    | remove n => exact hend h
    | «seal» n x => exact ⟨hend h.1, he _ h.2⟩
    | interiorPush | straddle | interiorPop | boundaryPop => exact he _ h
  | initLeft | initRight | fill | insertLink | insertValue => exact ⟨hend h.1, ho _ h.2⟩
  | alloc | reach | updThreshold | updLoad | updFirst | updSecond | updThird | updLink
  | updReserve | updValidate | updCas | retire => exact hend h
  | _ => trivial

end Tracks

section Memory

variable [DecidableEq τ] [BufferSize]
variable {m : Memory τ} {k : Notes τ} {tid q : τ} {S R : Side} {call : Call Word} {p : Point}
  {o : Option Point} {b n : Address} {i : ℤ} {c : Choice} {a : Action} {e : Expected} {l : Load}
  {loc : Local}

/-- A published buffer stays published. -/
theorem owner_next (hn : next m c tid S call p = some (a, o)) (hb : m.owner b = .published) :
    (m.act tid a).owner b = .published := by
  cases p with
  | alloc v =>
    simp only [next] at hn
    split_ifs at hn with hu
    cases hn
    refine (Function.update_of_ne ?_ _ _).trans hb
    rintro rfl
    cases hb.symm.trans hu
  | fill v n i =>
    simp only [next] at hn
    split_ifs at hn
    · cases hn
      exact hb
    · cases hn
      exact hb
  | safe v d =>
    simp only [next] at hn
    split_ifs at hn
    · cases hn
      exact hb
    · cases hn
      exact hb
  | effect v d =>
    simp only [next] at hn
    split_ifs at hn
    · cases hn
      cases d with
      | append n =>
        by_cases hbn : b = n
        · exact hbn ▸ Function.update_self _ _ _
        · exact (Function.update_of_ne hbn _ _).trans hb
      | _ => exact hb
    · cases hn
      exact hb
  | casHint x b r =>
    cases hn
    split_ifs
    · exact hb
    · exact hb
  | updCas v n u =>
    simp only [next] at hn
    split_ifs at hn
    · cases hn
      exact hb
    · cases hn
      exact hb
  | failed => cases hn
  | _ =>
    cases hn
    exact hb

/-- A successful compare-exchange counts its slot. -/
theorem slot_success (h : p.Tracks m k tid S) (hn : next m c tid S call p = some (a, o))
    (he : p.attempts S = some e) (hs : m.Succeeds e) :
    ∃ w t, (m.act tid a).slot = (m.cas e.buffer e.index w t).slot := by
  cases p with
  | safe v d =>
    cases he
    simp only [next] at hn
    split_ifs at hn with hs'
    · cases hn
      exact ⟨_, _, rfl⟩
    · exact absurd hs hs'
  | effect v d =>
    cases he
    simp only [next] at hn
    split_ifs at hn with hs'
    · cases hn
      cases d with
      | append n =>
        refine ⟨n, .value, ?_⟩
        change (m.cas v.buffer (farLink S) n .value).slot =
          (m.cas v.buffer (v.index + farDirection S) n .value).slot
        rw [h.2.1, farValue_add]
      | remove n =>
        have hi : v.index = farValue S := h.index
        refine ⟨c.junk, farType S, ?_⟩
        change (m.cas v.buffer (farLink S) c.junk (farType S)).slot =
          (m.cas v.buffer (v.index + farDirection S) c.junk (farType S)).slot
        rw [hi, farValue_add]
      | _ => exact ⟨_, _, rfl⟩
    · exact absurd hs hs'
  | _ => cases he

/-- Without one the published buffers keep their slots. -/
theorem slot_quiet (h : p.Tracks m k tid S) (hn : next m c tid S call p = some (a, o))
    (hs : ∀ e, p.attempts S = some e → ¬m.Succeeds e) (hb : m.owner b = .published) :
    (m.act tid a).slot b = m.slot b := by
  have hstore {n : Address} {j : ℤ} {x : Slot} (ho : m.owner n = .thread S tid) :
      (m.set n j x).slot b = m.slot b := by
    refine Function.update_of_ne ?_ _ _
    rintro rfl
    cases hb.symm.trans ho
  cases p with
  | alloc v =>
    simp only [next] at hn
    split_ifs at hn
    cases hn
    rfl
  | fill v n i =>
    simp only [next] at hn
    split_ifs at hn
    · cases hn
      exact hstore h.2
    · cases hn
      rfl
  | insertLink v n =>
    cases hn
    exact hstore h.2
  | insertValue v n =>
    cases hn
    exact hstore h.2
  | safe v d =>
    simp only [next] at hn
    split_ifs at hn with hs'
    · exact absurd hs' (hs _ rfl)
    · cases hn
      rfl
  | effect v d =>
    simp only [next] at hn
    split_ifs at hn with hs'
    · exact absurd hs' (hs _ rfl)
    · cases hn
      rfl
  | casHint x b r =>
    cases hn
    split_ifs <;> rfl
  | updCas v n u =>
    simp only [next] at hn
    split_ifs at hn <;> cases hn <;> rfl
  | failed => cases hn
  | _ =>
    cases hn
    rfl

/-- A cached buffer belongs to the thread. -/
def Memory.CacheOwned (m : Memory τ) : Prop :=
  ∀ S tid n, m.cache S tid = some n → m.owner n = .thread S tid

/-- What a thread owns is kept by the steps of the others. -/
theorem owner_other (h : p.Tracks m k tid S) (hn : next m c tid S call p = some (a, o))
    (hq : q ≠ tid) (ho : m.owner n = .thread R q) : (m.act tid a).owner n = .thread R q := by
  cases p with
  | alloc v =>
    simp only [next] at hn
    split_ifs at hn with hu
    cases hn
    refine (Function.update_of_ne ?_ _ _).trans ho
    rintro rfl
    cases ho.symm.trans hu
  | effect v d =>
    simp only [next] at hn
    split_ifs at hn
    · cases hn
      cases d with
      | append n =>
        refine (Function.update_of_ne ?_ _ _).trans ho
        rintro rfl
        cases ho.symm.trans h.2.2
        exact hq rfl
      | _ => exact ho
    · cases hn
      exact ho
  | fill | safe | updCas =>
    simp only [next] at hn
    split_ifs at hn <;> cases hn <;> exact ho
  | casHint x b r =>
    cases hn
    split_ifs <;> exact ho
  | failed => cases hn
  | _ =>
    cases hn
    exact ho

theorem Memory.CacheOwned.next (hm : m.CacheOwned) (h : p.Tracks m k tid S)
    (hn : next m c tid S call p = some (a, o)) : (m.act tid a).CacheOwned := by
  cases p with
  | alloc v =>
    simp only [OFDeque.next] at hn
    split_ifs at hn with hu
    cases hn
    intro R q n hc
    refine (Function.update_of_ne ?_ _ _).trans (hm R q n hc)
    rintro rfl
    cases (hm R q _ hc).symm.trans hu
  | fill v n i =>
    simp only [OFDeque.next] at hn
    split_ifs at hn
    · cases hn
      exact hm
    · cases hn
      intro R q b hc
      simp only [Memory.act] at hc
      by_cases hR : R = S
      · subst hR
        rw [Function.update_self] at hc
        by_cases hq : q = tid
        · subst hq
          rw [Function.update_self] at hc
          cases hc
          exact h.2
        · rw [Function.update_of_ne hq] at hc
          exact hm R q b hc
      · rw [Function.update_of_ne hR] at hc
        exact hm R q b hc
  | effect v d =>
    simp only [OFDeque.next] at hn
    split_ifs at hn
    · cases hn
      cases d with
      | append n =>
        intro R q b hc
        have hold : m.cache R q = some b ∧ ¬(R = S ∧ q = tid) := by
          simp only [Attempt.action, Memory.act] at hc
          by_cases hR : R = S
          · subst hR
            rw [Function.update_self] at hc
            by_cases hq : q = tid
            · subst hq
              rw [Function.update_self] at hc
              cases hc
            · rw [Function.update_of_ne hq] at hc
              exact ⟨hc, fun h => hq h.2⟩
          · rw [Function.update_of_ne hR] at hc
            exact ⟨hc, fun h => hR h.1⟩
        refine (Function.update_of_ne ?_ _ _).trans (hm R q b hold.1)
        rintro rfl
        cases (hm R q b hold.1).symm.trans h.2.2
        exact hold.2 ⟨rfl, rfl⟩
      | _ => exact hm
    · cases hn
      exact hm
  | safe | updCas =>
    simp only [OFDeque.next] at hn
    split_ifs at hn <;> cases hn <;> exact hm
  | casHint x b r =>
    cases hn
    split_ifs <;> exact hm
  | failed => cases hn
  | _ =>
    cases hn
    exact hm

/-- The changes of a slot since a time go with the successful compare-exchanges. -/
theorem Notes.all_after (m : Memory τ) (tid : τ) (S : Side) (p : Point) (b : Address) (i : ℤ)
    {time : ℕ} (ht : time ≤ k.changes.length) :
    (k.after m tid S p).all time b i = k.all time b i ∧
        (∀ e, p.attempts S = some e → m.Succeeds e → e.buffer ≠ b ∨ e.index ≠ i) ∨
      (k.after m tid S p).all time b i = k.all time b i + 1 ∧
        ∃ e, p.attempts S = some e ∧ m.Succeeds e ∧ e.buffer = b ∧ e.index = i := by
  cases ha : p.attempts S with
  | none =>
    refine .inl ⟨?_, nofun⟩
    rw [Notes.all, Notes.after, noteChange, ha, Notes.all]
  | some e =>
    by_cases hs : m.Succeeds e
    · rw [Notes.all, Notes.changes_success ha hs, countSince_cons _ ht]
      by_cases hplace : e.buffer = b ∧ e.index = i
      · obtain ⟨rfl, rfl⟩ := hplace
        rw [decide_eq_true rfl]
        exact .inr ⟨rfl, e, rfl, hs, rfl, rfl⟩
      · have hne : ¬(e.buffer, e.index) = (b, i) := fun he => hplace (Prod.mk.inj he)
        rw [decide_eq_false hne]
        refine .inl ⟨rfl, fun e' he' _ => ?_⟩
        cases he'
        exact not_and_or.mp hplace
    · rw [Notes.after_missed ha hs]
      refine .inl ⟨rfl, fun e' he' hs' => ?_⟩
      cases he'
      exact absurd hs' hs

theorem Notes.length_le : k.changes.length ≤ (k.after m tid S p).changes.length := by
  have hcases : (k.after m tid S p).changes = k.changes ∨ ∃ e, p.attempts S = some e ∧
      m.Succeeds e ∧ (k.after m tid S p).changes = (tid, e.buffer, e.index) :: k.changes :=
    Notes.changes_cases
  rcases hcases with h | ⟨e, -, -, h⟩
  · rw [h]
  · rw [h, List.length_cons]
    exact Nat.le_succ _

theorem Load.Ok.next (hl : l.Ok m k) (h : p.Tracks m k q S)
    (hn : OFDeque.next m c q S call p = some (a, o)) :
    l.Ok (m.act q a) (k.after m q S p) := by
  refine ⟨owner_next hn hl.published, hl.time.trans Notes.length_le, ?_⟩
  rcases Notes.all_after m q S p l.buffer l.index hl.time with ⟨hall, hs⟩ | ⟨hall, e, ha, hs, hb, hi⟩
  · rw [hall]
    have hslot : (m.act q a).slot l.buffer l.index = m.slot l.buffer l.index := by
      by_cases hsome : ∃ e, p.attempts S = some e ∧ m.Succeeds e
      · obtain ⟨e, ha, he⟩ := hsome
        obtain ⟨w, t, hw⟩ := slot_success h hn ha he
        rw [hw]
        exact m.slot_cas_ne _ _ _ _ _ _ ((hs e ha he).imp Ne.symm Ne.symm)
      · rw [slot_quiet h hn (fun e ha he => hsome ⟨e, ha, he⟩) hl.published]
    rw [hslot]
    exact hl.count
  · obtain ⟨w, t, hw⟩ := slot_success h hn ha hs
    rw [hall, hw, hb, hi, Memory.slot_cas]
    exact hl.count.add_right 1

omit [DecidableEq τ] [BufferSize] in
theorem Load.Ok.wrap (hl : l.Ok m k) : l.Ok m.wrap k :=
  ⟨hl.published, hl.time, (Nat.mod_modEq _ _).trans hl.count⟩

omit [DecidableEq τ] [BufferSize] in
/-- A load just made. -/
theorem Load.Ok.fresh (hb : m.owner l.buffer = .published) (hx : l.slot = m.slot l.buffer l.index)
    (ht : l.time = k.changes.length) : l.Ok m k := by
  refine ⟨hb, ht.le, ?_⟩
  rw [Notes.all, ht, countSince_length, hx]
  rfl

end Memory

variable [DecidableEq τ] [BufferSize]

/-- The invariant of the machine with bounded counts and its account. -/
structure Versions (s : State τ) (k : Notes τ) : Prop where
  cache : s.mem.CacheOwned
  tracks : ∀ tid f, s.frames tid = some f → f.point.Tracks s.mem k tid f.side
  loads : ∀ tid loc l, k.loads tid loc = some l → l.Ok s.mem k

section Runs

variable {s t : State τ} {k : Notes τ} {tid q : τ} {f : Frame} {c : Choice} {e : Expected}
  {l : Load}

theorem Versions.timely (h : Versions s k) (tid : τ) : k.Timely tid :=
  fun loc l hl => (h.loads tid loc l hl).time

omit [BufferSize] in
/-- A frame after a step is that of the thread or an earlier one. -/
theorem frame_wrap {g : Frame} {m : Memory τ} {x : Option Frame}
    (hg : (State.wrap ⟨m, Function.update s.frames tid x⟩).frames q = some g) :
    (q = tid ∧ x.map Frame.wrap = some g) ∨
      q ≠ tid ∧ ∃ f, s.frames q = some f ∧ g = f.wrap := by
  simp only [State.wrap] at hg
  by_cases hq : q = tid
  · subst hq
    rw [Function.update_self] at hg
    exact .inl ⟨rfl, hg⟩
  · rw [Function.update_of_ne hq] at hg
    obtain ⟨f, hf, rfl⟩ := Option.map_eq_some_iff.mp hg
    exact .inr ⟨hq, f, hf, rfl⟩

theorem Versions.init (h : (wrapped τ).init s) : Versions s ⟨[], fun _ _ => none⟩ where
  cache S tid n hc := by
    rw [h.1.mem.cache] at hc
    cases hc
  tracks tid f hf := by
    rw [h.1.frames] at hf
    cases hf
  loads tid loc l hl := by cases hl

theorem Versions.step (h : Versions s k) (hs : (wrapped τ).step (tid, c) s = some t) :
    Versions t (noteSlots (tid, c) s t k) := by
  simp only [wrapped] at hs
  obtain ⟨u, hu, rfl⟩ := Option.map_eq_some_iff.mp hs
  rcases step_cases hu with ⟨hnone, rfl⟩ | ⟨f, a, o, hf, hn, rfl⟩
  · have hnote : ∀ t, noteSlots (tid, c) s t k = k := fun t => by
      simp only [noteSlots, hnone]
    rw [hnote]
    refine ⟨h.cache, fun q g hg => ?_, fun q loc l hl => (h.loads q loc l hl).wrap⟩
    rcases frame_wrap (s := s) (x := some _) hg with ⟨-, hself⟩ | ⟨-, f, hf, rfl⟩
    · cases hself
      trivial
    · exact (h.tracks q f hf).wrap
  · have hnote : ∀ t, noteSlots (tid, c) s t k = k.after s.mem tid f.side f.point := fun t => by
      simp only [noteSlots, hf]
    have htracks : f.point.Tracks s.mem k tid f.side := h.tracks tid f hf
    rw [hnote]
    refine ⟨h.cache.next htracks hn, fun q g hg => ?_, fun q loc l hl => ?_⟩
    · rcases frame_wrap (s := s) (x := o.map _) hg with ⟨rfl, hself⟩ | ⟨hq, f', hf', rfl⟩
      · cases o with
        | none => cases hself
        | some p =>
          cases hself
          exact (htracks.next (h.timely q) (h.cache f.side q) hn).wrap
      · exact ((h.tracks q f' hf').mono (fun e he => he.other (h.timely q) hq)
          fun n ho => owner_other htracks hn hq ho).wrap
    · rcases Notes.loads_cases hl with hl | ⟨rfl, hload, hb, hx, ht⟩
      · exact ((h.loads q loc l hl).next htracks hn).wrap
      · exact ((Load.Ok.fresh hb hx ht).next htracks hn).wrap

theorem versions_of_reachable (h : (versioned τ).Reachable (s, k)) : Versions s k := by
  refine h.invariant (P := fun x => Versions x.1 x.2) ?_ ?_
  · rintro ⟨s, k⟩ ⟨hs, rfl⟩
    exact .init hs
  · rintro ⟨tid, c⟩ ⟨s, k⟩ ⟨t, k'⟩ - hv - hstep
    obtain ⟨ht, hk⟩ := Machine.account_step.mp hstep
    rw [hk]
    exact hv.step ht

/-- What the compare-exchange that comes next expects. -/
theorem Point.Tracks.attempts {S : Side} {p : Point} (h : p.Tracks s.mem k tid S)
    (he : p.attempts S = some e) : k.Expects tid e := by
  cases p with
  | safe v a =>
    cases he
    cases a with
    | interiorPush => exact h.near
    | append n => exact h.1.near
    | straddle n x => exact h.1.near
    | interiorPop => exact h.far
    | «seal» n x => exact h.1.near
    | remove n => exact h.near
    | boundaryPop => exact h.far
  | effect v a =>
    cases he
    cases a with
    | append n => exact h.1
    | remove n => exact h.far
    | «seal» n x => exact h.2
    | interiorPush | straddle | interiorPop | boundaryPop => exact h
  | _ => cases he

end Runs

end UnboundedDeque.OFDeque
