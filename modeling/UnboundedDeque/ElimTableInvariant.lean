import UnboundedDeque.ElimTableMachine

/-!
# The invariant of the elimination table

A thread inside a call either stands in the table, offering its call or marked
by the one partner that took it, or has withdrawn and takes part in no
elimination. Finished operations never change again.
-/
namespace UnboundedDeque.ElimTable
open StepMachine

variable {T : Type*} {threadCount : ℕ}

def Slot.Offers (x : Slot T) : Prop := x.flag = .push ∨ x.flag = .pop

/-- Points at which the call is inserted in the table. -/
def Point.standing : Point T threadCount → Bool
  | .removeLoad | .removeExchange | .scanStart | .scan _ => true
  | .scanRemoveLoad .. | .scanRemoveExchange .. => true
  | _ => false

/-- The slot of a partner that a point remembers. -/
def Point.remembered : Point T threadCount → Option (Slot T)
  | .scanRemoveLoad _ slot _ | .scanRemoveExchange _ slot _ | .scanCas _ slot _ => some slot
  | _ => none

/-- The call is offered, or one partner has taken it and left its mark. -/
def State.Standing (s : State T threadCount) (tid : Fin threadCount)
    (f : Frame T threadCount) : Prop :=
  (∃ junk, s.table f.side tid = inserted junk f.call) ∧ ¬ s.Paired (s.op tid) ∨
  (s.table f.side tid).flag = .eliminated ∧
    ∃ p ∈ s.pairs, p.Includes (s.op tid) ∧ p.side = f.side ∧
      exchanged (s.table f.side tid).value f.call = p.value

def State.Withdrawn (s : State T threadCount) (tid : Fin threadCount)
    (f : Frame T threadCount) : Prop :=
  ¬ (s.table f.side tid).Offers ∧ ¬ s.Paired (s.op tid)

/-- A thread inside a call. -/
structure State.CallOk (s : State T threadCount) (tid : Fin threadCount)
    (f : Frame T threadCount) : Prop where
  called : s.calls (s.op tid) = some (f.side, f.call)
  standing : f.point.standing = true → s.Standing tid f
  withdrawn : f.point.standing = false → s.Withdrawn tid f
  partner : ∀ slot, f.point.remembered = some slot → slot.flag = partnerOf f.call

/-- The operation a thread is in or will start next. -/
structure State.Present (s : State T threadCount) (tid : Fin threadCount) : Prop where
  idle : s.threads tid = none → s.calls (s.op tid) = none
  busy : ∀ f, s.threads tid = some f → s.CallOk tid f
  outside : ∀ S, (∀ f, s.threads tid = some f → f.side ≠ S) → ¬ (s.table S tid).Offers

/-- The operations a thread has finished. -/
structure State.Past (s : State T threadCount) (tid : Fin threadCount) : Prop where
  fresh : ∀ m, s.serial tid < m → s.calls (tid, m) = none
  unfinished : ∀ m, s.serial tid ≤ m → s.outcomes (tid, m) = none
  finished : ∀ m, m < s.serial tid → ∃ r, s.outcomes (tid, m) = some r
  direct : ∀ m v, s.outcomes (tid, m) = some (.direct v) →
    ¬ s.Paired (tid, m) ∧ ∀ S w, s.calls (tid, m) = some (S, .push w) → v = w
  eliminated : ∀ m v, s.outcomes (tid, m) = some (.eliminated v) →
    ∃ p ∈ s.pairs, p.Includes (tid, m) ∧ p.value = v
  settled : ∀ m, m < s.serial tid → ∀ p ∈ s.pairs, p.Includes (tid, m) →
    s.outcomes (tid, m) = some (.eliminated p.value)

structure Inv (s : State T threadCount) : Prop where
  present : ∀ tid, s.Present tid
  past : ∀ tid, s.Past tid
  distinct : s.pairs.Pairwise Pair.Disjoint
  opposite : ∀ p ∈ s.pairs, s.calls p.pusher = some (p.side, .push p.value) ∧
    s.calls p.popper = some (p.side, .pop)

/-- Two states agree on the present operation of a thread. -/
structure SamePresent (k : Fin threadCount) (s s' : State T threadCount) : Prop where
  threads : s'.threads k = s.threads k
  table : ∀ S, s'.table S k = s.table S k
  serial : s'.serial k = s.serial k
  calls : s'.calls (s.op k) = s.calls (s.op k)
  pairs : ∀ p : Pair T threadCount, p.Includes (s.op k) → (p ∈ s'.pairs ↔ p ∈ s.pairs)

/-- Two states agree on the finished operations of a thread. -/
structure SamePast (k : Fin threadCount) (s s' : State T threadCount) : Prop where
  serial : s'.serial k = s.serial k
  calls : ∀ m, m ≠ s.serial k → s'.calls (k, m) = s.calls (k, m)
  outcomes : ∀ m, s'.outcomes (k, m) = s.outcomes (k, m)
  pairs : ∀ (p : Pair T threadCount) m, m < s.serial k → p.Includes (k, m) →
    (p ∈ s'.pairs ↔ p ∈ s.pairs)

instance : Std.Symm (@Pair.Disjoint T threadCount) :=
  ⟨fun _ _ h id hq hp => h id hp hq⟩

variable {s s' : State T threadCount} {tid k : Fin threadCount} {f : Frame T threadCount}

theorem Slot.inserted_offers (junk : T) (c : Call T) : (inserted junk c).Offers := by
  cases c with
  | push v => exact .inl rfl
  | pop => exact .inr rfl

theorem Slot.Offers.not_eliminated {x : Slot T} (h : x.Offers) : x.flag ≠ .eliminated := by
  rcases h with h | h <;> simp [h]

theorem SamePresent.op (h : SamePresent k s s') : s'.op k = s.op k := by
  rw [State.op, State.op, h.serial]

theorem SamePresent.paired (h : SamePresent k s s') :
    s'.Paired (s'.op k) ↔ s.Paired (s.op k) := by
  rw [h.op]
  constructor
  · rintro ⟨p, hp, hi⟩
    exact ⟨p, (h.pairs p hi).mp hp, hi⟩
  · rintro ⟨p, hp, hi⟩
    exact ⟨p, (h.pairs p hi).mpr hp, hi⟩

theorem State.Standing.congr (h : SamePresent k s s') (hf : s.Standing k f) : s'.Standing k f := by
  rcases hf with ⟨⟨junk, ht⟩, hp⟩ | ⟨hfl, p, hp, hi, hs, hv⟩
  · exact .inl ⟨⟨junk, by rw [h.table, ht]⟩, mt h.paired.mp hp⟩
  · rw [← h.table] at hfl hv
    exact .inr ⟨hfl, p, (h.pairs p hi).mpr hp, h.op ▸ hi, hs, hv⟩

theorem State.CallOk.congr (h : SamePresent k s s') (hf : s.CallOk k f) : s'.CallOk k f where
  called := by rw [h.op, h.calls, hf.called]
  standing hs := (hf.standing hs).congr h
  withdrawn hs := by
    obtain ⟨ho, hp⟩ := hf.withdrawn hs
    exact ⟨by rwa [h.table], mt h.paired.mp hp⟩
  partner := hf.partner

theorem State.Present.congr (h : SamePresent k s s') (hk : s.Present k) : s'.Present k where
  idle hn := by rw [h.op, h.calls, hk.idle (h.threads ▸ hn)]
  busy f hf := (hk.busy f (h.threads ▸ hf)).congr h
  outside S hS := by
    rw [h.table]
    exact hk.outside S fun f hf => hS f (h.threads.trans hf)

theorem State.Past.congr (h : SamePast k s s') (hk : s.Past k) : s'.Past k := by
  have hlt : ∀ m r, s.outcomes (k, m) = some r → m < s.serial k := fun m r hr => by
    by_contra hm
    rw [hk.unfinished m (by omega)] at hr
    cases hr
  constructor
  · intro m hm
    rw [h.serial] at hm
    rw [h.calls m (by omega), hk.fresh m hm]
  · intro m hm
    rw [h.outcomes, hk.unfinished m (h.serial ▸ hm)]
  · intro m hm
    rw [h.outcomes]
    exact hk.finished m (h.serial ▸ hm)
  · intro m v hv
    rw [h.outcomes] at hv
    have hm := hlt m _ hv
    obtain ⟨hp, hw⟩ := hk.direct m v hv
    refine ⟨?_, fun S w hc => hw S w (by rwa [h.calls m (by omega)] at hc)⟩
    rintro ⟨p, hmem, hi⟩
    exact hp ⟨p, (h.pairs p m hm hi).mp hmem, hi⟩
  · intro m v hv
    rw [h.outcomes] at hv
    obtain ⟨p, hp, hi, hval⟩ := hk.eliminated m v hv
    exact ⟨p, (h.pairs p m (hlt m _ hv) hi).mpr hp, hi, hval⟩
  · intro m hm p hp hi
    rw [h.serial] at hm
    rw [h.outcomes]
    exact hk.settled m hm p ((h.pairs p m hm hi).mp hp) hi

/-- An idle thread's next operation takes part in no elimination. -/
theorem Inv.unpaired_of_uncalled (h : Inv s) {id : OpId threadCount} (hc : s.calls id = none) :
    ¬ s.Paired id := by
  rintro ⟨p, hp, rfl | rfl⟩
  · simp [(h.opposite p hp).1] at hc
  · simp [(h.opposite p hp).2] at hc

/-- An operation takes part in at most one elimination. -/
theorem Inv.pair_unique (h : Inv s) {p q : Pair T threadCount} {id : OpId threadCount}
    (hp : p ∈ s.pairs) (hq : q ∈ s.pairs) (hpi : p.Includes id) (hqi : q.Includes id) : p = q := by
  by_contra hne
  exact h.distinct.forall hp hq hne id hpi hqi

theorem Inv.init (h : Init s) : Inv s where
  present tid :=
    have outside (S : Side) : ¬ (s.table S tid).Offers := by simp [Slot.Offers, h.table]
    ⟨fun _ => h.calls _, fun f hf => by simp [h.threads] at hf, fun S _ => outside S⟩
  past tid :=
    ⟨fun _ _ => h.calls _, fun _ _ => h.outcomes _, fun m hm => by simp [h.serial] at hm,
      fun m v hv => by simp [h.outcomes] at hv, fun m v hv => by simp [h.outcomes] at hv,
      fun m hm => by simp [h.serial] at hm⟩
  distinct := by simp [h.pairs]
  opposite p hp := by simp [h.pairs] at hp

/-- The invariant gives the statement about whole operations. -/
theorem Inv.exactlyOnce (h : Inv s) : s.ExactlyOnce := by
  have hpoint : ∀ pt : Point T threadCount, pt.removed = true → pt.standing = false := by
    intro pt hpt
    cases pt <;> simp_all [Point.removed, Point.standing]
  constructor
  · intro tid f hf hr
    exact (((h.present tid).busy f hf).withdrawn (hpoint _ hr)).2
  · rintro ⟨tid, m⟩ c hc
    rcases lt_trichotomy m (s.serial tid) with hm | rfl | hm
    · exact .inr ((h.past tid).finished m hm)
    · cases hth : s.threads tid with
      | none => exact absurd (hc.symm.trans ((h.present tid).idle hth)) (by simp)
      | some f => exact .inl ⟨f, rfl, rfl⟩
    · simp [(h.past tid).fresh m hm] at hc
  · rintro ⟨tid, m⟩ v hv
    exact (h.past tid).direct m v hv
  · rintro ⟨tid, m⟩ v hv
    obtain ⟨p, hp, hi, rfl⟩ := (h.past tid).eliminated m v hv
    exact ⟨⟨p, ⟨hp, hi⟩, fun q hq => h.pair_unique hq.1 hp hq.2 hi⟩,
      fun q hq hqi => congrArg _ (h.pair_unique hq hp hqi hi)⟩
  · exact h.distinct
  · exact h.opposite
  · rintro p hp ⟨tid, m⟩ hi
    have hpaired : s.Paired (tid, m) := ⟨p, hp, hi⟩
    rcases lt_trichotomy m (s.serial tid) with hm | rfl | hm
    · exact .inl ((h.past tid).settled m hm p hp hi)
    · cases hth : s.threads tid with
      | none => exact absurd hpaired (h.unpaired_of_uncalled ((h.present tid).idle hth))
      | some f =>
        have hok := (h.present tid).busy f hth
        cases hst : f.point.standing with
        | false => exact absurd hpaired (hok.withdrawn hst).2
        | true =>
          rcases hok.standing hst with ⟨_, hnp⟩ | ⟨hfl, q, hq, hqi, hside, hval⟩
          · exact absurd hpaired hnp
          · obtain rfl := h.pair_unique hq hp hqi hi
            exact .inr ⟨f, hth, rfl, hside.symm, hfl, hval⟩
    · exact absurd hpaired (h.unpaired_of_uncalled ((h.past tid).fresh m hm))
  · intro tid S hS
    exact not_or.mp ((h.present tid).outside S hS)

end UnboundedDeque.ElimTable
