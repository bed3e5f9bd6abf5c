import UnboundedDeque.FCDequeLinearizability
import UnboundedDeque.SoloRun

/-!
# A request waits for one combiner

A combiner that takes the lock comes to every request published before that, and it gives
the lock away. So the lock is not taken twice while a published request is not complete.
-/
namespace UnboundedDeque.FCDeque
open StepMachine

variable {n : ℕ} {T : Type*} {empty : T} {s t : State n T} {a b : Account n T}
  {tid u w : Fin n} {S R : Side} {f g : Frame n T} {p : Point n T} {c : Combine n} {x : Call T}
  {k : Fin n → ℕ}

/-- For each thread, how often the lock has been taken since its call published its request. -/
def countLocks (l : Fin n × Side × Call T) (s _t : State n T) (k : Fin n → ℕ) : Fin n → ℕ :=
  match (s.frames l.1).map Frame.point with
  | some .setStatus => Function.update k l.1 0
  | some .tryLock => if s.lock then k else fun u => k u + 1
  | _ => k

/-- The machine with this count. -/
def counted (n : ℕ) (empty : T) : Machine (Fin n × Side × Call T) (State n T × (Fin n → ℕ)) :=
  (machine n empty).account (fun _ => 0) countLocks

/-- The combiner will come to the request of a thread. -/
def Point.ToCome (u : Fin n) : Point n T → Prop
  | .round c => c.j < maxCombiningRounds ∧ c.finished = false
  | .scan c i => i ≤ u ∨ ∃ S, u ∈ c.poppers S
  | .apply c i _ | .ackPush c i => i ≤ u ∨ ∃ S, u ∈ c.poppers S
  | .take c R k => ∃ S, u ∈ c.after R k S
  | .store c R k v _ | .ackPop c R k v => u = v ∨ ∃ S, u ∈ c.after R (k + 1) S
  | _ => False

/-- The request of a call is published and not complete. -/
def State.Waits (s : State n T) (u : Fin n) : Prop :=
  (∃ f, s.frames u = some f ∧ f.point.waits = true) ∧ (s.requests u).status ≠ .complete

/-- The lock has been taken since at most once, and the thread that has it will come to the
request. -/
def Awaited (s : State n T) (k : Fin n → ℕ) : Prop :=
  ∀ u, s.Waits u → k u = 0 ∨ k u = 1 ∧ ∃ w f, s.frames w = some f ∧ f.point.ToCome u

section ToCome

theorem Point.combines_of_toCome (h : p.ToCome u) : p.combines = true := by
  cases p <;> first | rfl | exact h.elim

theorem Combine.after_left (c : Combine n) (S : Side) : c.after .left 0 S = c.poppers S := by
  cases S <;> rfl

/-- A popper that is left is the one that stage two comes to, or it is left after that. -/
theorem Combine.eq_or_mem_after {k : ℕ} {v : Fin n} (hk : (c.poppers S)[k]? = some v)
    (hu : u ∈ c.after S k R) : u = v ∨ ∃ R, u ∈ c.after S (k + 1) R := by
  have hmem : u ∈ [] ++ c.after S k .left ++ c.after S k .right := by
    cases R <;> simp [hu]
  rw [Combine.after_append hk] at hmem
  simp only [List.nil_append, List.mem_append, List.mem_singleton] at hmem
  rcases hmem with (h | h) | h
  · exact .inl h
  · exact .inr ⟨_, h⟩
  · exact .inr ⟨_, h⟩

theorem toCome_afterStatus {i : Fin n} (hi : (i : ℕ) ≤ u ∨ ∃ S, u ∈ c.poppers S)
    (hu : (s.requests u).status ≠ .complete) :
    (afterStatus c i (s.requests i).status : Point n T).ToCome u := by
  have hnext : u ≠ i → (i : ℕ) + 1 ≤ u ∨ ∃ S, u ∈ c.poppers S := by
    intro hne
    refine hi.imp_left fun hle => ?_
    have := Fin.val_ne_of_ne hne
    omega
  cases hst : (s.requests i).status with
  | push S => exact hi
  | pop S =>
    by_cases hui : u = i
    · exact .inr ⟨S, Combine.mem_addPopper.mpr (.inr ⟨rfl, hui⟩)⟩
    · refine (hnext hui).imp_right ?_
      rintro ⟨R, hR⟩
      exact ⟨R, Combine.mem_addPopper.mpr (.inl hR)⟩
  | complete =>
    refine hnext ?_
    rintro rfl
    exact hu hst

/-- The combiner comes nearer to a request, or completes it. -/
theorem toCome_step (hc : f.point.ToCome u)
    (hs : frameStep empty s tid f = some t) (hu : (t.requests u).status ≠ .complete) :
    ∃ g, t.frames tid = some g ∧ g.point.ToCome u := by
  have hgoto {s' : State n T} {p : Point n T} (h : some (s'.goto tid f p) = some t)
      (hp : p.ToCome u) : ∃ g, t.frames tid = some g ∧ g.point.ToCome u := by
    rw [← Option.some.inj h]
    exact ⟨_, Function.update_self _ _ _, hp⟩
  have hcomplete {v : Fin n} {p : Point n T}
      (h : some ((s.setStatus v .complete).goto tid f p) = some t) : u ≠ v := by
    rintro rfl
    rw [← Option.some.inj h] at hu
    exact hu (by simp)
  unfold frameStep at hs
  cases hp : f.point with
  | round c =>
    rw [hp] at hc hs
    refine hgoto hs ?_
    rw [if_pos (And.intro hc.1 hc.2)]
    exact .inl (Nat.zero_le _)
  | scan c i =>
    rw [hp] at hc hs
    refine hgoto hs ?_
    split_ifs with hi
    · refine toCome_afterStatus (i := ⟨i, hi⟩) ?_ ?_
      · rw [Combine.visit_poppers]
        exact hc
      · rw [← Option.some.inj hs] at hu
        exact hu
    · obtain ⟨R, hR⟩ := hc.resolve_left (by omega)
      exact ⟨R, by rw [Combine.after_left]; exact hR⟩
  | apply c i S =>
    rw [hp] at hc hs
    exact hgoto hs hc
  | ackPush c i =>
    rw [hp] at hc hs
    refine hgoto hs (hc.imp_left fun hle => ?_)
    have := Fin.val_ne_of_ne (hcomplete hs)
    omega
  | take c S k =>
    rw [hp] at hc hs
    dsimp only at hs
    obtain ⟨R, hR⟩ := hc
    cases hk : (c.poppers S)[k]? with
    | none =>
      rw [hk] at hs
      refine hgoto hs ?_
      rw [← Combine.after_end (T := T) hk] at hR
      cases S with
      | left => exact ⟨R, hR⟩
      | right => cases R <;> exact absurd hR List.not_mem_nil
    | some v =>
      rw [hk] at hs
      exact hgoto hs (Combine.eq_or_mem_after hk hR)
  | store c S k v value =>
    rw [hp] at hc hs
    exact hgoto hs hc
  | ackPop c S k v =>
    rw [hp] at hc hs
    exact hgoto hs (hc.resolve_left (hcomplete hs))
  | _ =>
    rw [hp] at hc
    exact hc.elim

end ToCome

section Steps

/-- Only the publication of a request makes it incomplete. -/
theorem status_step (hs : frameStep empty s tid f = some t) (hp : f.point ≠ .setStatus)
    (hu : (t.requests u).status ≠ .complete) : (s.requests u).status ≠ .complete := by
  have hset {v : Fin n} {p : Point n T}
      (h : some ((s.setStatus v .complete).goto tid f p) = some t) :
      (s.requests u).status ≠ .complete := by
    rw [← Option.some.inj h] at hu
    by_cases huv : u = v
    · subst huv
      exact absurd (by simp) hu
    · simpa [huv] using hu
  have hvalue {v : Fin n} {y : T} {p : Point n T}
      (h : some ((s.setValue v y).goto tid f p) = some t) : (s.requests u).status ≠ .complete := by
    rw [← Option.some.inj h] at hu
    by_cases huv : u = v
    · subst huv
      simpa using hu
    · simpa [huv] using hu
  unfold frameStep at hs
  split at hs
  case h_1 =>
    split at hs
    · exact hvalue hs
    · cases hs
  case h_2 hp' => exact absurd hp' hp
  case h_3 =>
    split_ifs at hs
    · split at hs
      all_goals
        rw [← Option.some.inj hs] at hu
        exact hu
    · rw [← Option.some.inj hs] at hu
      exact hu
  case h_12 => exact hset hs
  case h_13 =>
    split at hs
    all_goals
      rw [← Option.some.inj hs] at hu
      exact hu
  case h_14 => exact hvalue hs
  case h_15 => exact hset hs
  all_goals
    rw [← Option.some.inj hs] at hu
    exact hu

theorem waits_step (hs : frameStep empty s tid f = some t) (hp : f.point ≠ .setStatus)
    (hg : t.frames tid = some g) (hw : g.point.waits = true) : f.point.waits = true := by
  have hgoto {s' : State n T} {p : Point n T} (h : some (s'.goto tid f p) = some t)
      (hp : p.waits = false) : f.point.waits = true := by
    rw [← Option.some.inj h] at hg
    simp only [State.goto_frames, Function.update_self, Option.some.injEq] at hg
    rw [← hg, hp] at hw
    cases hw
  unfold frameStep at hs
  cases hq : f.point with
  | setValue =>
    rw [hq] at hs hgoto
    dsimp only at hs
    split at hs
    · exact hgoto hs rfl
    · cases hs
  | setStatus => exact absurd hq hp
  | readValue =>
    rw [hq] at hs hgoto
    exact hgoto hs rfl
  | ret r =>
    rw [hq] at hs
    have hnone : t.frames tid = none := by
      rw [← Option.some.inj hs]
      exact Function.update_self _ _ _
    rw [hnone] at hg
    cases hg
  | _ => rfl

/-- A request that waits has waited before, unless it has just been published. -/
theorem waits_back (hf : s.frames tid = some f) (hs : frameStep empty s tid f = some t)
    (hp : f.point ≠ .setStatus) (hframes : ∀ v, v ≠ tid → t.frames v = s.frames v)
    (hu : t.Waits u) : s.Waits u := by
  obtain ⟨⟨g, hg, hw⟩, hst⟩ := hu
  refine ⟨?_, status_step hs hp hst⟩
  by_cases hut : u = tid
  · subst hut
    exact ⟨f, hf, waits_step hs hp hg hw⟩
  · exact ⟨g, (hframes u hut).symm.trans hg, hw⟩

theorem frameStep_others (hs : frameStep empty s tid f = some t) {v : Fin n} (hv : v ≠ tid) :
    t.frames v = s.frames v := by
  rcases frameStep_frames hs with ⟨p, ht⟩ | ⟨ht, -⟩
  · rw [ht, Function.update_of_ne hv]
  · rw [ht, Function.update_of_ne hv]

/-- A step that is none of the two that count. -/
theorem awaited_quiet (h : Awaited s k) (hf : s.frames tid = some f)
    (hs : frameStep empty s tid f = some t) (hp : f.point ≠ .setStatus) : Awaited t k := by
  intro u hu
  refine (h u (waits_back hf hs hp (fun v hv => frameStep_others hs hv) hu)).imp_right ?_
  rintro ⟨hk, w, g, hg, hc⟩
  refine ⟨hk, w, ?_⟩
  by_cases hw : w = tid
  · subst hw
    obtain rfl := Option.some.inj (hf.symm.trans hg)
    exact toCome_step hc hs hu.2
  · exact ⟨g, (frameStep_others hs hw).trans hg, hc⟩

/-- The publication of a request. -/
theorem awaited_setStatus (h : Awaited s k) (hf : s.frames tid = some f)
    (hp : f.point = .setStatus) :
    Awaited ((s.setStatus tid f.status).goto tid f .wait) (Function.update k tid 0) := by
  rintro u ⟨⟨g, hg, hw⟩, hst⟩
  by_cases hu : u = tid
  · subst hu
    exact .inl (Function.update_self _ _ _)
  · rw [Function.update_of_ne hu]
    have hframe {v : Fin n} (hv : v ≠ tid) :
        ((s.setStatus tid f.status).goto tid f .wait).frames v = s.frames v :=
      Function.update_of_ne hv _ _
    have hold : s.Waits u := by
      refine ⟨⟨g, (hframe hu).symm.trans hg, hw⟩, ?_⟩
      simpa [hu] using hst
    refine (h u hold).imp_right ?_
    rintro ⟨hk, w, g', hg', hc⟩
    refine ⟨hk, w, g', (hframe ?_).trans hg', hc⟩
    rintro rfl
    obtain rfl := Option.some.inj (hf.symm.trans hg')
    rw [hp] at hc
    exact hc

theorem awaited_call (h : Awaited s k) (hf : s.frames tid = none) :
    Awaited (s.call tid S x) k := by
  rintro u ⟨⟨g, hg, hw⟩, hst⟩
  have hframe {v : Fin n} (hv : v ≠ tid) : (s.call tid S x).frames v = s.frames v :=
    Function.update_of_ne hv _ _
  have hu : u ≠ tid := by
    rintro rfl
    simp only [State.call_frames, Function.update_self, Option.some.injEq] at hg
    rw [← hg] at hw
    cases x <;> cases hw
  refine (h u ⟨⟨g, (hframe hu).symm.trans hg, hw⟩, hst⟩).imp_right ?_
  rintro ⟨hk, w, g', hg', hc⟩
  refine ⟨hk, w, g', (hframe ?_).trans hg', hc⟩
  rintro rfl
  rw [hf] at hg'
  cases hg'

/-- The lock is taken, and its new owner comes to every request that waits. -/
theorem awaited_tryLock (hi : Inv s a) (h : Awaited s k) (hf : s.frames tid = some f)
    (hs : frameStep empty s tid f = some t) (hp : f.point = .tryLock) (hl : s.lock = false) :
    Awaited t fun u => k u + 1 := by
  intro u hu
  have hold := h u (waits_back hf hs (by simp [hp]) (fun v hv => frameStep_others hs hv) hu)
  have hzero : k u = 0 := by
    rcases hold with hk | ⟨-, w, g, hg, hc⟩
    · exact hk
    · have hlock := hi.lock w g hg (Point.combines_of_toCome hc)
      rw [hl] at hlock
      cases hlock
  refine .inr ⟨congrArg (· + 1) hzero, tid, { f with point := .round .fresh }, ?_, ?_⟩
  · simp only [frameStep, hp, hl] at hs
    rw [← Option.some.inj hs]
    exact Function.update_self _ _ _
  · exact ⟨Nat.zero_lt_succ 9, rfl⟩

end Steps

section Runs

theorem run_awaited {v : State n T × (Fin n → ℕ)} (h : (counted n empty).Reachable v) :
    Awaited v.1 v.2 := by
  obtain ⟨a, hrun⟩ := Machine.Run.add_account (fun _ _ => True) ⟨fun _ => [], []⟩ (note empty) h
  replace hrun : ((logged n empty).account (fun _ => 0) fun l u v =>
      countLocks l u.1 v.1).Reachable ((v.1, a), v.2) := hrun
  suffices hinv : ∀ y, ((logged n empty).account (fun _ => 0) fun l u v =>
      countLocks l u.1 v.1).Reachable y → Awaited y.1.1 y.2 from hinv _ hrun
  intro y hy
  apply hy.invariant
  · rintro ⟨⟨s, a⟩, k⟩ ⟨⟨hs, -⟩, -⟩ u ⟨⟨f, hf, -⟩, -⟩
    rw [hs.frames] at hf
    cases hf
  · rintro ⟨tid, S, x⟩ ⟨⟨s, a⟩, k⟩ ⟨⟨t, b⟩, k'⟩ hr h - hst
    obtain ⟨hlog, hk⟩ := Machine.account_step.mp hst
    obtain ⟨hs, -⟩ := Machine.account_step.mp hlog
    have hi : Inv s a := run_inv hr.reachable_of_account
    replace hs : step empty (tid, S, x) s = some t := hs
    obtain rfl : k' = countLocks (tid, S, x) s t k := hk
    change Awaited t (countLocks (tid, S, x) s t k)
    simp only [step] at hs
    cases hf : s.frames tid with
    | none =>
      rw [hf] at hs
      obtain rfl := Option.some.inj hs
      rw [countLocks, hf]
      exact awaited_call h hf
    | some f =>
      rw [hf] at hs
      rw [countLocks, hf, Option.map_some]
      cases hp : f.point with
      | setStatus =>
        have ht : t = (s.setStatus tid f.status).goto tid f .wait := by
          simp only [frameStep, hp] at hs
          exact (Option.some.inj hs).symm
        rw [ht]
        exact awaited_setStatus h hf hp
      | tryLock =>
        dsimp only
        split_ifs with hl
        · exact awaited_quiet h hf hs (by simp [hp])
        · exact awaited_tryLock hi h hf hs hp (Bool.eq_false_of_not_eq_true hl)
      | _ => exact awaited_quiet h hf hs (by simp [hp])

/-- A published request is complete before the lock is taken a second time; if it has been
taken once, the thread that has it will come to the request. -/
theorem served_by_next_combiner {v : State n T × (Fin n → ℕ)} (h : (counted n empty).Reachable v)
    {u : Fin n} (hu : v.1.Waits u) :
    v.2 u ≤ 1 ∧ (v.2 u = 1 → ∃ w f, v.1.frames w = some f ∧ f.point.ToCome u) := by
  rcases run_awaited h u hu with hk | ⟨hk, hw⟩
  · rw [hk]
    exact ⟨Nat.zero_le 1, fun h => absurd h (by decide)⟩
  · exact ⟨hk.le, fun _ => hw⟩

end Runs

section Combiner

/-- The poppers that stage two has not come to. -/
def Combine.left (c : Combine n) (R : Side) (k : ℕ) : ℕ :=
  (c.after R k .left).length + (c.after R k .right).length

/-- The steps of a combiner to its release of the lock. -/
def Point.rank : Point n T → ℕ
  | .unlock => 1
  | .round c => if c.j < maxCombiningRounds ∧ c.finished = false then 6 * n + 6 else 2
  | .scan c i => 6 * (n - i) + 3 * c.left .left 0 + 5
  | .apply c i _ => 6 * (n - (i + 1)) + 3 * c.left .left 0 + 7
  | .ackPush c i => 6 * (n - (i + 1)) + 3 * c.left .left 0 + 6
  | .take c .left k => 3 * c.left .left k + 4
  | .take c .right k => 3 * c.left .right k + 3
  | .store c .left k _ _ => 3 * c.left .left (k + 1) + 6
  | .store c .right k _ _ => 3 * c.left .right (k + 1) + 5
  | .ackPop c .left k _ => 3 * c.left .left (k + 1) + 5
  | .ackPop c .right k _ => 3 * c.left .right (k + 1) + 4
  | _ => 0

theorem Combine.left_visit (c : Combine n) (tid i : Fin n) (R : Side) (k : ℕ) :
    (c.visit tid i).left R k = c.left R k := by
  cases R <;> simp [left, after]

theorem Combine.left_addPopper (c : Combine n) (S : Side) (i : Fin n) :
    (c.addPopper S i).left .left 0 = c.left .left 0 + 1 := by
  cases S <;> simp [left, after, addPopper] <;> omega

/-- Stage two serves one popper at a time. -/
theorem Combine.left_succ {k : ℕ} (hk : (c.poppers S)[k]? = some u) :
    c.left S k = c.left S (k + 1) + 1 := by
  have hlen := congrArg List.length (Combine.after_append hk [])
  simp only [List.length_append, List.length_nil, List.length_singleton] at hlen
  simp only [left]
  omega

theorem Combine.left_end {k : ℕ} (hk : (c.poppers .left)[k]? = none) :
    c.left .left k = c.left .right 0 := by
  have hdrop : (c.poppers .left).drop k = [] :=
    List.drop_eq_nil_of_le (List.getElem?_eq_none_iff.mp hk)
  simp [left, after, hdrop]

theorem rank_afterStatus (c : Combine n) (i : Fin n) (st : Status) :
    (afterStatus c i st : Point n T).rank < 6 * (n - i) + 3 * c.left .left 0 + 5 ∧
      (afterStatus c i st : Point n T).combines = true := by
  have hi := i.isLt
  cases st with
  | push S =>
    refine ⟨?_, rfl⟩
    simp only [afterStatus, Point.rank]
    omega
  | pop S =>
    refine ⟨?_, rfl⟩
    simp only [afterStatus, Point.rank, Combine.left_addPopper]
    omega
  | complete =>
    refine ⟨?_, rfl⟩
    simp only [afterStatus, Point.rank]
    omega

/-- A combiner comes nearer to its release of the lock. -/
theorem combiner_step (hi : Inv s a) (hf : s.frames tid = some f)
    (hc : f.point.combines = true) (hs : frameStep empty s tid f = some t) :
    t.frames tid = some { f with point := .wait } ∧ t.lock = false ∨
      ∃ p, t.frames tid = some { f with point := p } ∧ p.combines = true ∧
        p.rank < f.point.rank := by
  have hpass := (hi.pass tid f hf hc).point
  have hgoto {s' : State n T} {p : Point n T} (h : some (s'.goto tid f p) = some t)
      (hp : p.combines = true) (hr : p.rank < f.point.rank) :
      ∃ p, t.frames tid = some { f with point := p } ∧ p.combines = true ∧
        p.rank < f.point.rank := by
    rw [← Option.some.inj h]
    exact ⟨p, Function.update_self _ _ _, hp, hr⟩
  unfold frameStep at hs
  cases hp : f.point with
  | unlock =>
    rw [hp] at hs
    left
    rw [← Option.some.inj hs]
    exact ⟨Function.update_self _ _ _, rfl⟩
  | round c =>
    rw [hp] at hs hgoto hpass
    refine .inr (hgoto hs ?_ ?_)
    · split_ifs <;> rfl
    · split_ifs with hj
      · have hfresh : c = .fresh := by
          rcases hpass with ⟨-, hc⟩ | hfin
          · exact hc
          · rw [hj.2] at hfin
            cases hfin
        simp [Point.rank, hfresh, Combine.left, Combine.after, Combine.fresh, maxCombiningRounds]
      · simp only [Point.rank, if_neg hj]
        decide
  | scan c i =>
    rw [hp] at hs hgoto
    by_cases hin : i < n
    · obtain ⟨hrank, hcomb⟩ := rank_afterStatus (T := T) (c.visit tid ⟨i, hin⟩) ⟨i, hin⟩
        (s.requests ⟨i, hin⟩).status
      rw [Combine.left_visit] at hrank
      simp only [dif_pos hin] at hs
      exact .inr (hgoto hs hcomb hrank)
    · simp only [dif_neg hin] at hs
      exact .inr (hgoto hs rfl (by simp only [Point.rank]; omega))
  | apply c i S =>
    rw [hp] at hs hgoto
    exact .inr (hgoto hs rfl (by simp only [Point.rank]; omega))
  | ackPush c i =>
    rw [hp] at hs hgoto
    exact .inr (hgoto hs rfl (by simp only [Point.rank]; omega))
  | take c S k =>
    rw [hp] at hs hgoto hpass
    dsimp only at hs
    cases hk : (c.poppers S)[k]? with
    | none =>
      rw [hk] at hs
      refine .inr (hgoto hs (by cases S <;> rfl) ?_)
      cases S with
      | left =>
        simp only [afterTake, Point.rank, Combine.left_end hk]
        omega
      | right =>
        have hfin : c.finished = true := hpass
        simp [afterTake, Point.rank, hfin]
    | some v =>
      rw [hk] at hs
      have hleft := Combine.left_succ hk
      refine .inr (hgoto hs rfl ?_)
      cases S <;> simp only [Point.rank] <;> omega
  | store c S k v value =>
    rw [hp] at hs hgoto
    refine .inr (hgoto hs rfl ?_)
    cases S <;> simp only [Point.rank] <;> omega
  | ackPop c S k v =>
    rw [hp] at hs hgoto
    refine .inr (hgoto hs rfl ?_)
    cases S <;> simp only [Point.rank] <;> omega
  | _ =>
    rw [hp] at hc
    cases hc

end Combiner

section Solo

/-- The thread holds the lock. -/
def State.Holds (s : State n T) (u : Fin n) : Prop :=
  ∃ f, s.frames u = some f ∧ f.point.combines = true

/-- The thread returns from its call if it runs alone. -/
def Finishes (empty : T) (u : Fin n) (s : State n T) : Prop :=
  (machine n empty).Leads (fun l => l.1 = u) (fun t => t.frames u ≠ none)
    (fun t => t.frames u = none) s

theorem machine_step (hf : s.frames tid = some f) (S : Side) (x : Call T) :
    (machine n empty).step (tid, S, x) s = frameStep empty s tid f := by
  simp only [machine, step, hf]

/-- The one step of a call. -/
theorem leads_step {via P : State n T → Prop} (hf : s.frames tid = some f)
    (hs : frameStep empty s tid f = some t) (hv : via s)
    (h : (machine n empty).Leads (fun l => l.1 = tid) via P t) :
    (machine n empty).Leads (fun l => l.1 = tid) via P s := by
  refine .forced hv ⟨(tid, f.side, f.call), rfl⟩ (fun l hl => ?_) h
  obtain ⟨u, S, x⟩ := l
  obtain rfl : u = tid := hl
  exact (machine_step hf S x).trans hs

theorem combiner_enabled (empty : T) (s : State n T) (tid : Fin n) (hc : f.point.combines = true) :
    ∃ t, frameStep empty s tid f = some t := by
  unfold frameStep
  cases hp : f.point with
  | take c S k =>
    dsimp only
    split <;> exact ⟨_, rfl⟩
  | setValue | setStatus | wait | isLocked | tryLock | readValue | ret =>
    rw [hp] at hc
    cases hc
  | _ => exact ⟨_, rfl⟩

/-- The request of a combiner is complete, or the combiner will come to it. -/
def State.Served (s : State n T) (u : Fin n) : Prop :=
  (s.requests u).status = .complete ∨ ∃ f, s.frames u = some f ∧ f.point.ToCome u

theorem served_step (hf : s.frames tid = some f) (hc : f.point.combines = true)
    (hs : frameStep empty s tid f = some t) (h : s.Served tid) : t.Served tid := by
  by_cases hst : (t.requests tid).status = .complete
  · exact .inl hst
  · have hp : f.point ≠ .setStatus := by
      intro hp
      rw [hp] at hc
      cases hc
    obtain ⟨g, hg, hcome⟩ := h.resolve_left (status_step hs hp hst)
    obtain rfl := Option.some.inj (hf.symm.trans hg)
    exact .inr (toCome_step hcome hs hst)

/-- What a combiner that runs alone comes to. -/
structure Unlocked (s : State n T) (tid : Fin n) (f : Frame n T) (t : State n T) : Prop where
  frame : t.frames tid = some { f with point := .wait }
  lock : t.lock = false
  inv : ∃ b, Inv t b
  served : s.Served tid → t.Served tid

/-- A combiner gives the lock away if it runs alone. -/
theorem leads_unlock (hi : Inv s a) (hf : s.frames tid = some f) (hc : f.point.combines = true) :
    (machine n empty).Leads (fun l => l.1 = tid) (State.Holds · tid) (Unlocked s tid f) s := by
  induction hr : f.point.rank using Nat.strong_induction_on generalizing s a f with
  | _ r ih =>
    obtain ⟨t, hs⟩ := combiner_enabled empty s tid hc
    have hit := inv_frameStep (S := f.side) (x := f.call) hi hf hs
    have hserved := served_step hf hc hs
    refine leads_step hf hs ⟨f, hf, hc⟩ ?_
    rcases combiner_step hi hf hc hs with ⟨hwait, hlock⟩ | ⟨p, ht, hp, hlt⟩
    · exact .done ⟨hwait, hlock, ⟨_, hit⟩, hserved⟩
    · have hrest := ih p.rank (hr ▸ hlt) hit ht hp rfl
      refine hrest.mono fun u hu => ⟨hu.frame, hu.lock, hu.inv, fun h => hu.served (hserved h)⟩

theorem finishes_ret {r : Option T} (hf : s.frames tid = some f) (hp : f.point = .ret r) :
    Finishes empty tid s := by
  have hs : frameStep empty s tid f = some (s.return tid) := by simp only [frameStep, hp]
  exact leads_step hf hs (by simp [hf]) (.done (Function.update_self _ _ _))

theorem finishes_readValue (hf : s.frames tid = some f) (hp : f.point = .readValue) :
    Finishes empty tid s := by
  have hs : frameStep empty s tid f = some (s.goto tid f (.ret (some (s.requests tid).value))) := by
    simp only [frameStep, hp]
  exact leads_step hf hs (by simp [hf]) (finishes_ret (Function.update_self _ _ _) rfl)

/-- A call returns once its request is complete. -/
theorem finishes_complete (hf : s.frames tid = some f) (hp : f.point = .wait)
    (hst : (s.requests tid).status = .complete) : Finishes empty tid s := by
  cases hcall : f.call with
  | push v =>
    have hs : frameStep empty s tid f = some (s.goto tid f (.ret none)) := by
      simp only [frameStep, hp, hst, if_true, hcall]
    exact leads_step hf hs (by simp [hf]) (finishes_ret (Function.update_self _ _ _) rfl)
  | pop =>
    have hs : frameStep empty s tid f = some (s.goto tid f .readValue) := by
      simp only [frameStep, hp, hst, if_true, hcall]
    exact leads_step hf hs (by simp [hf]) (finishes_readValue (Function.update_self _ _ _) rfl)

/-- A thread that finds the lock free takes it and completes its own request. -/
theorem finishes_tryLock (hi : Inv s a) (hf : s.frames tid = some f) (hp : f.point = .tryLock)
    (hl : s.lock = false) : Finishes empty tid s := by
  have hs : frameStep empty s tid f =
      some ({ s with lock := true }.goto tid f (.round .fresh)) := by
    simp only [frameStep, hp, hl, Bool.false_eq_true, if_false]
  have hit := inv_frameStep (S := f.side) (x := f.call) hi hf hs
  refine leads_step hf hs (by simp [hf]) ?_
  have hf' : ({ s with lock := true }.goto tid f (.round .fresh)).frames tid =
      some { f with point := .round .fresh } := Function.update_self _ _ _
  refine ((leads_unlock hit hf' rfl).through fun t ht => ?_).trans fun t ht => ?_
  · obtain ⟨g, hg, -⟩ := ht
    simp [hg]
  · have hserved := ht.served (.inr ⟨_, hf', Nat.zero_lt_succ 9, rfl⟩)
    refine finishes_complete ht.frame rfl (hserved.resolve_right ?_)
    rintro ⟨g, hg, hcome⟩
    obtain rfl := Option.some.inj (ht.frame.symm.trans hg)
    exact hcome

theorem finishes_isLocked (hi : Inv s a) (hf : s.frames tid = some f) (hp : f.point = .isLocked)
    (hl : s.lock = false) : Finishes empty tid s := by
  have hs : frameStep empty s tid f = some (s.goto tid f .tryLock) := by
    simp only [frameStep, hp, hl, Bool.false_eq_true, if_false]
  have hit := inv_frameStep (S := f.side) (x := f.call) hi hf hs
  exact leads_step hf hs (by simp [hf]) (finishes_tryLock hit (Function.update_self _ _ _) rfl hl)

theorem finishes_wait (hi : Inv s a) (hf : s.frames tid = some f) (hp : f.point = .wait)
    (hl : s.lock = false) : Finishes empty tid s := by
  by_cases hst : (s.requests tid).status = .complete
  · exact finishes_complete hf hp hst
  · have hs : frameStep empty s tid f = some (s.goto tid f .isLocked) := by
      simp only [frameStep, hp, hst, if_false]
    have hit := inv_frameStep (S := f.side) (x := f.call) hi hf hs
    exact leads_step hf hs (by simp [hf])
      (finishes_isLocked hit (Function.update_self _ _ _) rfl hl)

theorem finishes_setStatus (hi : Inv s a) (hf : s.frames tid = some f) (hp : f.point = .setStatus)
    (hl : s.lock = false) : Finishes empty tid s := by
  have hs : frameStep empty s tid f = some ((s.setStatus tid f.status).goto tid f .wait) := by
    simp only [frameStep, hp]
  have hit := inv_frameStep (S := f.side) (x := f.call) hi hf hs
  exact leads_step hf hs (by simp [hf]) (finishes_wait hit (Function.update_self _ _ _) rfl hl)

theorem finishes_setValue (hi : Inv s a) (hf : s.frames tid = some f) (hp : f.point = .setValue)
    (hl : s.lock = false) : Finishes empty tid s := by
  have hfacts := hi.frame_facts hf
  rw [Frame.Facts, hp] at hfacts
  obtain ⟨-, -, v, hcall⟩ := hfacts
  have hs : frameStep empty s tid f = some ((s.setValue tid v).goto tid f .setStatus) := by
    simp only [frameStep, hp, hcall]
  have hit := inv_frameStep (S := f.side) (x := f.call) hi hf hs
  exact leads_step hf hs (by simp [hf]) (finishes_setStatus hit (Function.update_self _ _ _) rfl hl)

/-- A lock that is set has an owner. -/
def State.Owned (s : State n T) : Prop := s.lock = true → ∃ w, s.Holds w

/-- A thread that no other one keeps out of the lock returns. -/
theorem finishes_of_alone (hi : Inv s a) (ho : s.Owned) (hf : s.frames tid = some f)
    (halone : ∀ w, s.Holds w → w = tid) : Finishes empty tid s := by
  have hlock (hc : f.point.combines = false) : s.lock = false := by
    cases hl : s.lock with
    | false => rfl
    | true =>
      obtain ⟨w, g, hg, hcg⟩ := ho hl
      obtain rfl := halone w ⟨g, hg, hcg⟩
      obtain rfl := Option.some.inj (hf.symm.trans hg)
      rw [hc] at hcg
      cases hcg
  cases hc : f.point.combines with
  | true =>
    refine ((leads_unlock hi hf hc).through fun t ht => ?_).trans fun t ht => ?_
    · obtain ⟨g, hg, -⟩ := ht
      simp [hg]
    · obtain ⟨b, hb⟩ := ht.inv
      exact finishes_wait hb ht.frame rfl ht.lock
  | false =>
    have hl := hlock hc
    cases hp : f.point with
    | setValue => exact finishes_setValue hi hf hp hl
    | setStatus => exact finishes_setStatus hi hf hp hl
    | wait => exact finishes_wait hi hf hp hl
    | isLocked => exact finishes_isLocked hi hf hp hl
    | tryLock => exact finishes_tryLock hi hf hp hl
    | readValue => exact finishes_readValue hf hp
    | ret r => exact finishes_ret hf hp
    | _ =>
      rw [hp] at hc
      cases hc

/-- Only the two accesses to the lock change it. -/
theorem lock_step (hs : frameStep empty s tid f = some t) (hc : f.point.combines = false)
    (hp : f.point ≠ .tryLock) : t.lock = s.lock := by
  unfold frameStep at hs
  cases hq : f.point with
  | setValue =>
    rw [hq] at hs
    dsimp only at hs
    split at hs
    · rw [← Option.some.inj hs]
      rfl
    · cases hs
  | wait =>
    rw [hq] at hs
    dsimp only at hs
    split_ifs at hs
    · split at hs <;> rw [← Option.some.inj hs] <;> rfl
    · rw [← Option.some.inj hs]
      rfl
  | tryLock => exact absurd hq hp
  | setStatus | isLocked | readValue | ret r =>
    rw [hq] at hs
    rw [← Option.some.inj hs]
    rfl
  | _ =>
    rw [hq] at hc
    cases hc

theorem owned_step (hi : Inv s a) (ho : s.Owned) (hf : s.frames tid = some f)
    (hs : frameStep empty s tid f = some t) : t.Owned := by
  intro hl
  have hother (hc : f.point.combines = false) (hold : s.lock = true) : ∃ w, t.Holds w := by
    obtain ⟨w, g, hg, hcg⟩ := ho hold
    refine ⟨w, g, (frameStep_others hs ?_).trans hg, hcg⟩
    rintro rfl
    obtain rfl := Option.some.inj (hf.symm.trans hg)
    rw [hc] at hcg
    cases hcg
  cases hc : f.point.combines with
  | true =>
    rcases combiner_step hi hf hc hs with ⟨-, hlock⟩ | ⟨p, ht, hp, -⟩
    · rw [hl] at hlock
      cases hlock
    · exact ⟨tid, _, ht, hp⟩
  | false =>
    by_cases hp : f.point = .tryLock
    · cases hold : s.lock with
      | true => exact hother hc hold
      | false =>
        simp only [frameStep, hp, hold, Bool.false_eq_true, if_false, Option.some.injEq] at hs
        rw [← hs]
        exact ⟨tid, _, Function.update_self _ _ _, rfl⟩
    · exact hother hc ((lock_step hs hc hp).symm.trans hl)

theorem run_owned (h : (machine n empty).Reachable s) : (∃ a, Inv s a) ∧ s.Owned := by
  apply h.invariant
  · intro s hs
    refine ⟨⟨_, inv_init hs⟩, fun hl => ?_⟩
    rw [hs.lock] at hl
    cases hl
  · rintro ⟨tid, S, x⟩ s t - ⟨⟨a, hi⟩, ho⟩ - hst
    replace hst : step empty (tid, S, x) s = some t := hst
    simp only [step] at hst
    cases hf : s.frames tid with
    | none =>
      rw [hf] at hst
      obtain rfl := Option.some.inj hst
      refine ⟨⟨_, Inv.call hi hf⟩, fun hl => ?_⟩
      obtain ⟨w, g, hg, hc⟩ := ho hl
      refine ⟨w, g, (Function.update_of_ne ?_ _ _).trans hg, hc⟩
      rintro rfl
      rw [hf] at hg
      cases hg
    | some f =>
      rw [hf] at hst
      exact ⟨⟨_, inv_frameStep (S := S) (x := x) hi hf hst⟩, owned_step hi ho hf hst⟩

/-- No call waits for ever: it returns if its thread runs alone, unless another thread holds
the lock, and if that one runs first it releases the lock. -/
theorem combining_deadlock_free (h : (machine n empty).Reachable s) (hu : s.frames u ≠ none) :
    Finishes empty u s ∨ ∃ w, w ≠ u ∧ s.Holds w ∧
      (machine n empty).Leads (fun l => l.1 = w) (State.Holds · w)
        (fun t => t.lock = false ∧ t.frames u = s.frames u ∧ Finishes empty u t) s := by
  obtain ⟨⟨a, hi⟩, ho⟩ := run_owned h
  obtain ⟨g, hg⟩ := Option.ne_none_iff_exists'.mp hu
  by_cases halone : ∀ w, s.Holds w → w = u
  · exact .inl (finishes_of_alone hi ho hg halone)
  · push Not at halone
    obtain ⟨w, ⟨f, hf, hc⟩, hne⟩ := halone
    refine .inr ⟨w, hne, ⟨f, hf, hc⟩, ?_⟩
    have hkeep : ∀ l (s' t : State n T), l.1 = w → s'.frames u = s.frames u →
        (machine n empty).step l s' = some t → t.frames u = s.frames u := by
      rintro ⟨v, S, x⟩ s' t hv hs' hst
      replace hst : step empty (v, S, x) s' = some t := hst
      replace hv : u ≠ v := fun huv => hne (hv.symm.trans huv.symm)
      refine Eq.trans ?_ hs'
      simp only [step] at hst
      cases hf : s'.frames v with
      | none =>
        rw [hf] at hst
        rw [← Option.some.inj hst]
        exact Function.update_of_ne hv _ _
      | some f =>
        rw [hf] at hst
        exact frameStep_others hst hv
    refine ((leads_unlock hi hf hc).keep (I := fun t => t.frames u = s.frames u) rfl hkeep).mono ?_
    rintro t ⟨ht, hframe⟩
    obtain ⟨b, hb⟩ := ht.inv
    have hfree (v : Fin n) (hv : t.Holds v) : False := by
      obtain ⟨g, hg, hcg⟩ := hv
      have hlock := hb.lock v g hg hcg
      rw [ht.lock] at hlock
      cases hlock
    refine ⟨ht.lock, hframe, finishes_of_alone hb (fun hl => ?_) (hframe.trans hg) fun v hv => ?_⟩
    · rw [ht.lock] at hl
      cases hl
    · exact (hfree v hv).elim

end Solo

/-- The second thread has published a pop, and the first one starts to combine. -/
def lockTaken : State 2 ℕ × (Fin 2 → ℕ) :=
  ((counted 2 0).exec (fun _ _ => True) (List.replicate 2 popLeft ++ List.replicate 6 pushSeven)
    (constructed 2 0, fun _ => 0)).getD (constructed 2 0, fun _ => 0)

theorem lockTaken_run : (counted 2 0).Reachable lockTaken :=
  Machine.Run.exec_getD _ (.start ⟨init_constructed 2 0, rfl⟩)

theorem pop_served : lockTaken.2 1 = 1 ∧ lockTaken.2 1 ≤ 1 ∧ (lockTaken.2 1 = 1 →
    ∃ w f, lockTaken.1.frames w = some f ∧ f.point.ToCome 1) := by
  have hwaits : ((lockTaken.1.frames 1).any fun f => f.point.waits) = true := by decide +kernel
  have hst : (lockTaken.1.requests 1).status ≠ .complete := by decide +kernel
  cases hf : lockTaken.1.frames 1 with
  | none =>
    rw [hf] at hwaits
    cases hwaits
  | some f =>
    rw [hf] at hwaits
    exact ⟨by decide +kernel, served_by_next_combiner lockTaken_run ⟨⟨f, hf, hwaits⟩, hst⟩⟩

theorem lockTaken_deadlock_free : Finishes 0 1 lockTaken.1 ∨ ∃ w, w ≠ 1 ∧ lockTaken.1.Holds w ∧
    (machine 2 0).Leads (fun l => l.1 = w) (State.Holds · w)
      (fun t => t.lock = false ∧ t.frames 1 = lockTaken.1.frames 1 ∧ Finishes 0 1 t)
        lockTaken.1 := by
  have hcalled : (lockTaken.1.frames 1).isSome = true := by decide +kernel
  exact combining_deadlock_free lockTaken_run.reachable_of_account
    (Option.isSome_iff_ne_none.mp hcalled)

end UnboundedDeque.FCDeque
