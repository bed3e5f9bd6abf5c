import UnboundedDeque.MMDequeSteps

/-!
# `MMDeque` refines an atomic deque

A compare-exchange of the anchor in a push or a pop is the effect of the call. A log of
each thread's effects in its current call shows that a call that returns has had one
effect, or none where it has found the deque empty.
-/
namespace UnboundedDeque.MMDeque
open StepMachine

variable {T : Type*} {n : ℕ} {m m' : Memory T n} {l l' : List Node} {tid q : Fin n} {S : Side}
  {c : Choice T} {call : Call T} {k : Exit} {pt : Point T} {p : Option (Point T)}
  {s t : State T n} {f : Frame T} {es : List (Effect T)}

section Runs

/-- A step starts a call or takes the next step of one. -/
theorem step_cases (hs : step (tid, c) s = some t) :
    (s.frames tid = none ∧ ∃ pt, t = { s with
      frames := Function.update s.frames tid (some ⟨c.call.1, c.call.2, pt⟩) } ∧
        (pt = .alloc ∧ (∃ v, c.call.2 = .push v) ∨ pt = .popLoad ∧ c.call.2 = .pop)) ∨
    ∃ f m' p, s.frames tid = some f ∧ next s.mem c tid f.side f.call f.point = some (m', p) ∧
      t = ⟨m', Function.update s.frames tid (p.map fun p => { f with point := p })⟩ := by
  simp only [step] at hs
  cases hf : s.frames tid with
  | none =>
    rw [hf] at hs
    cases hs
    cases hc : c.call.2 with
    | push v => exact .inl ⟨rfl, _, rfl, .inl ⟨rfl, v, rfl⟩⟩
    | pop => exact .inl ⟨rfl, _, rfl, .inr ⟨rfl, rfl⟩⟩
  | some f =>
    rw [hf] at hs
    obtain ⟨⟨m', p⟩, hn, rfl⟩ := Option.map_eq_some_iff.mp hs
    exact .inr ⟨f, m', p, rfl, hn, rfl⟩

theorem Inv.init (h : Init s) : Inv s [] where
  shape := by
    refine ⟨⟨List.nodup_nil, fun S => ?_, fun S hS => ?_, fun S x y hn => ?_⟩, fun x => ?_,
      fun u x => ?_, fun u => ?_, ?_⟩
    · rw [h.anchor]
      cases S <;> rfl
    · rw [h.anchor] at hS
      cases hS
    · exact absurd hn.mem_source List.not_mem_nil
    · simp [h.life x]
    · simp [h.haz, h.life x, HazardTracker.initial]
    · simp [h.haz, HazardTracker.initial]
    · rw [h.haz]
      exact HazardTracker.inRange_initial
  facts tid f hf := by
    rw [h.frames] at hf
    cases hf

/-- What the threads know after a step of one of them. -/
theorem facts_update {g : Option (Frame T)} (hi : Inv s l) (hm : m'.Shape l')
    (hl : Later tid s.mem l m' l') (hg : ∀ f, g = some f → f.point.Facts m' l' tid f.side f.call)
    (hf : Function.update s.frames tid g q = some f) : f.point.Facts m' l' q f.side f.call := by
  by_cases hq : q = tid
  · subst hq
    rw [Function.update_self] at hf
    exact hg f hf
  · rw [Function.update_of_ne hq] at hf
    exact (hi.facts q f hf).later hi.shape hm hl hq

/-- Every step keeps the invariant and changes the deque by its effect. -/
theorem Inv.next (hi : Inv s l) (hf : s.frames tid = some f)
    (hn : next s.mem c tid f.side f.call f.point = some (m', p)) :
    ∃ l', Inv ⟨m', Function.update s.frames tid (p.map fun p => { f with point := p })⟩ l' ∧
      Changes (f.point.effect s.mem f.side c.spurious) (l.map s.mem.data) (l'.map m'.data) := by
  obtain ⟨l', h⟩ := next_sound hi.shape (hi.facts tid f hf) hn
  refine ⟨l', ⟨h.shape, fun q g hg => facts_update hi h.shape h.later ?_ hg⟩, h.changes⟩
  intro g hg
  obtain ⟨pt, hp, rfl⟩ := Option.map_eq_some_iff.mp hg
  exact h.facts pt hp

theorem Inv.start (hi : Inv s l) (hp : pt = .alloc ∧ (∃ v, call = .push v) ∨
    pt = .popLoad ∧ call = .pop) :
    Inv { s with frames := Function.update s.frames tid (some ⟨S, call, pt⟩) } l where
  shape := hi.shape
  facts q g hg := by
    refine facts_update hi hi.shape (.refl tid s.mem l) (fun f hf => ?_) hg
    cases hf
    rcases hp with ⟨rfl, hv⟩ | ⟨rfl, hc⟩
    · exact hv
    · exact hc

theorem run_inv {u : State T n} (h : (machine T n).Reachable u) : ∃ l, Inv u l := by
  apply h.invariant
  · intro s hs
    exact ⟨[], Inv.init hs⟩
  · rintro ⟨tid, c⟩ s t _ ⟨l, hi⟩ _ hs
    rcases step_cases hs with ⟨-, pt, rfl, hp⟩ | ⟨f, m', p, hf, hn, rfl⟩
    · exact ⟨l, hi.start hp⟩
    · obtain ⟨l', hi', -⟩ := hi.next hf hn
      exact ⟨l', hi'⟩

/-- The anchor and the links determine the deque. -/
theorem Memory.Represents.unique (h : m.Represents l) (h' : m.Represents l') : l = l' := by
  have hends (R : Side) : R.first l = R.first l' := by rw [← h.ends, ← h'.ends]
  -- the links of one direction are all there
  obtain ⟨S, hS⟩ : ∃ S, m.anchor.status ≠ .push S := by
    cases hs : m.anchor.status with
    | stable => exact ⟨.left, by simp⟩
    | push R => exact ⟨R.opposite, fun he => R.opposite_ne (Status.push.inj he).symm⟩
  have hfollows {l : List Node} (h : m.Represents l) (x y : Node) (hn : S.Next l x y) :
      (m.link S x).ptr = some y := by
    rcases h.linked S x y hn with hlink | ⟨hs, -⟩
    · exact hlink
    · exact absurd hs hS
  exact Side.eq_of_follows h.nodup h'.nodup (hfollows h) (hfollows h') hends

end Runs

section Log

/-- The effect of a thread's next step. -/
def State.effect (s : State T n) (l : Fin n × Choice T) : Option (Effect T) :=
  (s.frames l.1).bind fun f => f.point.effect s.mem f.side l.2.spurious

/-- The log of the effects that each thread's call has had. -/
def logEffect (l : Fin n × Choice T) (s _t : State T n) (log : Fin n → List (Effect T)) :
    Fin n → List (Effect T) :=
  Function.update log l.1
    (if (s.frames l.1).isSome then log l.1 ++ (s.effect l).toList else [])

def logged (T : Type*) (n : ℕ) :
    Machine (Fin n × Choice T) (State T n × (Fin n → List (Effect T))) :=
  (machine T n).account (fun _ => []) logEffect

def Exit.Logged (S : Side) (call : Call T) (es : List (Effect T)) : Exit → Prop
  | .pushed => ∃ t, call = .push t ∧ es = [.add S t]
  | _ => es = []

/-- What the log of a call contains: nothing before its compare-exchange of the anchor, and
then that effect. -/
def Point.Logged (m : Memory T n) (S : Side) (call : Call T) (es : List (Effect T)) :
    Point T → Prop
  | .read a => ∃ x, a.most S = some x ∧ es = [.remove S (m.data x)]
  | .retire _ data | .scan data | .clear _ data => es = [.remove S data]
  | .stabLeft h | .stabRight h | .stabValidate h | .stabPrev h | .stabReserve h _
  | .stabRevalidate h _ | .stabNext h _ | .stabCheck h _ _ | .stabCas h _ _ | .stabSettle h _
  | .stabClear h _ => h.exit.Logged S call es
  | .done r => call.Returns S r es
  | _ => es = []

theorem Exit.Logged.point (hk : k.Logged S call es) : k.point.Logged m S call es := by
  cases k with
  | pushed =>
    obtain ⟨t, rfl, rfl⟩ := hk
    exact ⟨rfl, rfl⟩
  | push node => exact hk
  | pop => exact hk

theorem stabilize_logged {a : Anchor} (hk : k.Logged S call es) :
    (stabilize a k).Logged m S call es := by
  unfold stabilize
  cases a.status with
  | stable => exact hk.point
  | push R => exact hk

theorem pushLoaded_logged {a : Anchor} {node : Node} (he : es = []) :
    (pushLoaded S node a).Logged m S call es := by
  unfold pushLoaded
  split_ifs
  · exact he
  · exact he
  · exact stabilize_logged (k := .push node) he

theorem popLoaded_logged {a : Anchor} (hc : call = .pop) (he : es = []) :
    (popLoaded S a).Logged m S call es := by
  unfold popLoaded
  split_ifs
  · rw [hc]
    exact .inr ⟨rfl, he⟩
  · exact he
  · exact he
  · exact stabilize_logged (k := .pop) he

theorem logged_later (hf : pt.Facts m l q S call) (hl : Later tid m l m' l') (hq : q ≠ tid)
    (h : pt.Logged m S call es) : pt.Logged m' S call es := by
  cases pt with
  | read a =>
    obtain ⟨-, x, hx, hlife⟩ := hf
    obtain ⟨y, hy, he⟩ := h
    obtain rfl : x = y := Option.some.inj (hx.symm.trans hy)
    exact ⟨x, hx, by rw [(hl.popped q x hq hlife).2]; exact he⟩
  | _ => exact h

theorem append_quiet {b : Bool} (h : pt.effect m S b = none) :
    es ++ (pt.effect m S b).toList = es := by
  rw [h]
  exact List.append_nil es

/-- The log stays as it should be within a call. -/
theorem logged_next (hf : pt.Facts m l tid S call) (h : pt.Logged m S call es)
    (hn : next m c tid S call pt = some (m', p)) :
    ∀ q, p = some q → q.Logged m' S call (es ++ (pt.effect m S c.spurious).toList) := by
  intro q hq
  subst hq
  cases pt with
  | alloc =>
    simp only [next] at hn
    split_ifs at hn
    cases hn
    exact (List.append_nil es).trans h
  | store node =>
    cases call with
    | push t =>
      cases hn
      exact (List.append_nil es).trans h
    | pop => cases hn
  | pushLoad node =>
    cases hn
    exact pushLoaded_logged ((List.append_nil es).trans h)
  | casEmpty node a =>
    obtain ⟨hp, -⟩ := hf
    obtain rfl : es = [] := h
    simp only [next] at hn
    simp only [Point.effect]
    split_ifs at hn ⊢ with hcas
    · cases hn
      rw [hp.data]
      exact ⟨rfl, rfl⟩
    · cases hn
      exact rfl
  | init node a =>
    cases hn
    exact (List.append_nil es).trans h
  | casPush node a =>
    obtain ⟨hp, -⟩ := hf
    obtain rfl : es = [] := h
    simp only [next] at hn
    simp only [Point.effect]
    split_ifs at hn ⊢ with hcas
    · cases hn
      exact ⟨_, hp.data, rfl⟩
    · cases hn
      exact rfl
  | popLoad =>
    cases hn
    exact popLoaded_logged hf ((List.append_nil es).trans h)
  | casSingle a =>
    obtain ⟨-, -, hne⟩ := hf
    obtain ⟨x, hx⟩ := Option.ne_none_iff_exists'.mp hne
    obtain rfl : es = [] := h
    simp only [next, hx] at hn
    simp only [Point.effect, hx, Option.map_some]
    split_ifs at hn ⊢ with hcas
    · cases hn
      exact ⟨x, hx, rfl⟩
    · cases hn
      exact rfl
  | casPop a prev =>
    obtain ⟨-, -, seg, hv, -⟩ := hf
    obtain ⟨x, hx, -⟩ := hv.held S
    obtain rfl : es = [] := h
    simp only [next, hx] at hn
    simp only [Point.effect, hx, Option.map_some]
    split_ifs at hn ⊢ with hcas
    · cases hn
      exact ⟨x, hx, rfl⟩
    · cases hn
      exact rfl
  | reserveLeft a =>
    cases hn
    exact (List.append_nil es).trans h
  | reserveRight a =>
    cases hn
    exact (List.append_nil es).trans h
  | validate a =>
    cases hn
    obtain rfl : es = [] := h
    split_ifs <;> exact rfl
  | neighbor a =>
    obtain ⟨x, -, hx⟩ := Option.map_eq_some_iff.mp hn
    cases hx
    exact (List.append_nil es).trans h
  | read a =>
    obtain ⟨x, hx, hx'⟩ := Option.map_eq_some_iff.mp hn
    obtain ⟨y, hy, he⟩ := h
    obtain rfl : x = y := Option.some.inj (hx.symm.trans hy)
    cases hx'
    exact (List.append_nil es).trans he
  | retire a data =>
    obtain ⟨x, -, hx⟩ := Option.map_eq_some_iff.mp hn
    cases hx
    rw [append_quiet rfl]
    split_ifs <;> exact h
  | scan data =>
    cases hn
    rw [append_quiet rfl]
    split_ifs <;> exact h
  | clear slot data =>
    cases hn
    rw [append_quiet rfl]
    split_ifs
    · exact h
    · obtain ⟨hc, -⟩ := hf
      rw [hc]
      exact .inl ⟨data, rfl, h⟩
  | stabLeft h' | stabRight h' | stabReserve h' prev =>
    cases hn
    rw [append_quiet rfl]
    exact h
  | stabValidate h' | stabRevalidate h' prev | stabCheck h' prev prevNext | stabClear h' slot =>
    cases hn
    rw [append_quiet rfl]
    split_ifs
    · exact h
    · exact Exit.Logged.point h
  | stabPrev h' =>
    obtain ⟨x, -, hx⟩ := Option.map_eq_some_iff.mp hn
    cases hx
    rw [append_quiet rfl]
    exact h
  | stabNext h' prev =>
    obtain ⟨x, -, hx⟩ := Option.map_eq_some_iff.mp hn
    cases hx
    rw [append_quiet rfl]
    split_ifs <;> exact h
  | stabCas h' prev prevNext =>
    obtain ⟨x, -, hx⟩ := Option.map_eq_some_iff.mp hn
    rw [append_quiet rfl]
    split_ifs at hx
    · cases hx
      exact h
    · cases hx
      exact Exit.Logged.point h
  | stabSettle h' prev =>
    cases hn
    rw [append_quiet rfl]
    exact h
  | done r => cases hn

/-- The log of every call is right. -/
def LogOk (s : State T n) (log : Fin n → List (Effect T)) : Prop :=
  ∀ tid f, s.frames tid = some f → f.point.Logged s.mem f.side f.call (log tid)

theorem logOk_step {log : Fin n → List (Effect T)} (hi : Inv s l) (hl : LogOk s log)
    (hs : step (tid, c) s = some t) : LogOk t (logEffect (tid, c) s t log) := by
  have hother {q : Fin n} (hq : q ≠ tid) : logEffect (tid, c) s t log q = log q :=
    Function.update_of_ne hq _ _
  have hself : logEffect (tid, c) s t log tid =
      if (s.frames tid).isSome then log tid ++ (s.effect (tid, c)).toList else [] :=
    Function.update_self _ _ _
  intro q g hg
  rcases step_cases hs with ⟨hf, pt, rfl, hp⟩ | ⟨f, m', p, hf, hn, rfl⟩
  · by_cases hq : q = tid
    · subst hq
      obtain rfl := Option.some.inj ((Function.update_self q _ s.frames).symm.trans hg)
      rw [hself, hf]
      rcases hp with ⟨rfl, -⟩ | ⟨rfl, -⟩ <;> exact rfl
    · rw [hother hq]
      exact hl q g ((Function.update_of_ne hq _ _).symm.trans hg)
  · obtain ⟨l', hsound⟩ := next_sound hi.shape (hi.facts tid f hf) hn
    by_cases hq : q = tid
    · subst hq
      have hg' := (Function.update_self q _ s.frames).symm.trans hg
      obtain ⟨pt, hp, rfl⟩ := Option.map_eq_some_iff.mp hg'
      have heff : s.effect (q, c) = f.point.effect s.mem f.side c.spurious := by
        rw [State.effect, hf, Option.bind_some]
      rw [hself, hf, heff]
      exact logged_next (hi.facts q f hf) (hl q f hf) hn pt hp
    · have hg' := (Function.update_of_ne hq _ _).symm.trans hg
      rw [hother hq]
      exact logged_later (hi.facts q g hg') hsound.later hq (hl q g hg')

theorem run_logOk {u : State T n × (Fin n → List (Effect T))} (h : (logged T n).Reachable u) :
    LogOk u.1 u.2 := by
  apply h.invariant
  · intro u hu tid f hf
    rw [hu.1.frames] at hf
    cases hf
  · rintro ⟨tid, c⟩ u u' hu hl _ hs
    obtain ⟨hst, hlog⟩ := Machine.account_step.mp hs
    obtain ⟨l, hi⟩ := run_inv hu.reachable_of_account
    rw [hlog]
    exact logOk_step hi hl hst

end Log

section Refinement

/-- A call returns from its last point. -/
theorem next_return (hf : pt.Facts m l tid S call) (hn : next m c tid S call pt = some (m', none)) :
    ∃ r, pt = .done r := by
  cases pt with
  | done r => exact ⟨r, rfl⟩
  | alloc =>
    simp only [next] at hn
    split_ifs at hn
    cases hn
  | store node => cases call <;> cases hn
  | casEmpty node a | casPush node a =>
    simp only [next] at hn
    split_ifs at hn <;> cases hn
  | casSingle a =>
    obtain ⟨x, hx⟩ := Option.ne_none_iff_exists'.mp hf.2.2
    simp only [next, hx] at hn
    split_ifs at hn <;> cases hn
  | casPop a prev =>
    obtain ⟨-, -, seg, hv, -⟩ := hf
    obtain ⟨x, hx, -⟩ := hv.held S
    simp only [next, hx] at hn
    split_ifs at hn <;> cases hn
  | neighbor a | read a | retire a data | stabPrev h | stabNext h prev =>
    obtain ⟨x, -, hx⟩ := Option.map_eq_some_iff.mp hn
    cases hx
  | stabCas h prev prevNext =>
    obtain ⟨x, -, hx⟩ := Option.map_eq_some_iff.mp hn
    split_ifs at hx <;> cases hx
  | _ => cases hn

theorem stabilize_ne_empty {a : Anchor} (hk : k.point ≠ (.done .empty : Point T)) :
    stabilize a k ≠ (.done .empty : Point T) := by
  unfold stabilize
  cases a.status with
  | stable => exact hk
  | push R => simp

theorem Exit.point_ne_empty (k : Exit) : k.point ≠ (.done .empty : Point T) := by
  cases k <;> simp [Exit.point]

/-- A pop finds the deque empty when it loads the anchor. -/
theorem next_empty (hf : pt.Facts m l tid S call)
    (hn : next m c tid S call pt = some (m', some (.done .empty))) :
    pt = .popLoad ∧ m.anchor.most S = none := by
  cases pt with
  | popLoad =>
    simp only [next, popLoaded, Option.some.injEq, Prod.mk.injEq] at hn
    obtain ⟨-, hn⟩ := hn
    split_ifs at hn with hnone
    · exact ⟨rfl, hnone⟩
    · exact absurd hn (stabilize_ne_empty (Exit.point_ne_empty _))
  | pushLoad node =>
    simp only [next, pushLoaded, Option.some.injEq, Prod.mk.injEq] at hn
    obtain ⟨-, hn⟩ := hn
    split_ifs at hn
    exact absurd hn (stabilize_ne_empty (Exit.point_ne_empty _))
  | stabValidate h | stabRevalidate h prev | stabCheck h prev prevNext | stabClear h slot =>
    simp only [next, Option.some.injEq, Prod.mk.injEq] at hn
    obtain ⟨-, hn⟩ := hn
    split_ifs at hn
    exact absurd hn (Exit.point_ne_empty _)
  | stabCas h prev prevNext =>
    obtain ⟨x, -, hx⟩ := Option.map_eq_some_iff.mp hn
    split_ifs at hx
    · cases hx
    · simp only [Prod.mk.injEq, Option.some.injEq] at hx
      exact absurd hx.2 (Exit.point_ne_empty _)
  | alloc =>
    simp only [next] at hn
    split_ifs at hn
    cases hn
  | store node => cases call <;> cases hn
  | casEmpty node a | casPush node a =>
    simp only [next] at hn
    split_ifs at hn <;> cases hn
  | casSingle a =>
    obtain ⟨x, hx⟩ := Option.ne_none_iff_exists'.mp hf.2.2
    simp only [next, hx] at hn
    split_ifs at hn <;> cases hn
  | casPop a prev =>
    obtain ⟨-, -, seg, hv, -⟩ := hf
    obtain ⟨x, hx, -⟩ := hv.held S
    simp only [next, hx] at hn
    split_ifs at hn <;> cases hn
  | neighbor a | read a | stabPrev h =>
    obtain ⟨x, -, hx⟩ := Option.map_eq_some_iff.mp hn
    cases hx
  | retire a data | stabNext h prev =>
    obtain ⟨x, -, hx⟩ := Option.map_eq_some_iff.mp hn
    split_ifs at hx <;> cases hx
  | validate a | scan data | clear slot data =>
    simp only [next, Option.some.injEq, Prod.mk.injEq] at hn
    obtain ⟨-, hn⟩ := hn
    split_ifs at hn <;> cases hn
  | _ => cases hn

/-- In every reachable state the links and the anchor represent one list of nodes. A step
changes its values by the compare-exchange of the anchor it succeeds in, or not at all; a call
that returns has had the effect its result tells, and no other; and a pop that finds the deque
empty has loaded the anchor of the empty deque. -/
theorem casAnchor_refines_atomic_deque {u : State T n × (Fin n → List (Effect T))}
    (h : (logged T n).Reachable u) :
    ∃ l, u.1.mem.Represents l ∧ (∀ l', u.1.mem.Represents l' → l' = l) ∧
      ∀ tid c u', (logged T n).step (tid, c) u = some u' →
        (∃ l', u'.1.mem.Represents l' ∧
          Changes (u.1.effect (tid, c)) (l.map u.1.mem.data) (l'.map u'.1.mem.data)) ∧
        (∀ f, u.1.frames tid = some f → u'.1.frames tid = none →
          ∃ r, f.point = .done r ∧ f.call.Returns f.side r (u.2 tid)) ∧
        ∀ f, u'.1.frames tid = some f → f.point = .done .empty →
          l = [] ∧ ∃ g, u.1.frames tid = some g ∧ g.point = .popLoad := by
  obtain ⟨s, log⟩ := u
  obtain ⟨l, hi⟩ := run_inv h.reachable_of_account
  have hl : LogOk s log := run_logOk h
  refine ⟨l, hi.shape.rep, fun l' hl' => hl'.unique hi.shape.rep, ?_⟩
  rintro tid c ⟨t, log'⟩ hs
  have hst : step (tid, c) s = some t := (Machine.account_step.mp hs).1
  rcases step_cases hst with ⟨hf, pt, rfl, hp⟩ | ⟨f, m', p, hf, hn, rfl⟩
  · refine ⟨⟨l, hi.shape.rep, ?_⟩, fun f hf' => ?_, fun f hf' he => ?_⟩
    · rw [State.effect, hf]
      rfl
    · rw [hf] at hf'
      cases hf'
    · obtain rfl := Option.some.inj ((Function.update_self tid _ s.frames).symm.trans hf')
      rcases hp with ⟨rfl, -⟩ | ⟨rfl, -⟩ <;> cases he
  · obtain ⟨l', hi', hchanges⟩ := hi.next hf hn
    have heff : s.effect (tid, c) = f.point.effect s.mem f.side c.spurious := by
      rw [State.effect, hf, Option.bind_some]
    have hself := Function.update_self tid (p.map fun p => { f with point := p }) s.frames
    refine ⟨⟨l', hi'.shape.rep, heff ▸ hchanges⟩, fun g hg ht => ?_, fun g hg he => ?_⟩
    · obtain rfl : f = g := Option.some.inj (hf.symm.trans hg)
      obtain rfl : p = none := Option.map_eq_none_iff.mp (hself.symm.trans ht)
      obtain ⟨r, hr⟩ := next_return (hi.facts tid f hf) hn
      have hlog := hl tid f hf
      rw [hr] at hlog
      exact ⟨r, hr, hlog⟩
    · obtain ⟨pt, rfl, rfl⟩ := Option.map_eq_some_iff.mp (hself.symm.trans hg)
      obtain rfl : pt = .done .empty := he
      obtain ⟨hload, hnone⟩ := next_empty (hi.facts tid f hf) hn
      exact ⟨hi.shape.rep.nil_iff.mpr hnone, f, hf, hload⟩

/-- The machine as its constructor leaves it, with the value 0 in every node. -/
def constructed (n : ℕ) : State ℕ n where
  mem :=
    { anchor := ⟨none, none, .stable⟩
      link := fun _ _ => ⟨none, 0⟩
      data := fun _ => 0
      haz := .initial
      life := fun _ => .free }
  frames _ := none

theorem init_constructed (n : ℕ) : Init (constructed n) := ⟨rfl, rfl, fun _ => rfl, fun _ => rfl⟩

/-- A step of one of two threads that pushes at the right end; the pool hands out `node`. -/
def pushRight (tid : Fin 2) (value node : ℕ) : Fin 2 × Choice ℕ :=
  (tid, ⟨(.right, .push value), node, fun _ => ⟨none, 0⟩, 0, false⟩)

/-- The first thread pushes 7, and it is stopped within its push of 8, after the
compare-exchange of the anchor and before `stabilize`. -/
def halfPush : List (Fin 2 × Choice ℕ) :=
  List.replicate 6 (pushRight ⟨0, Nat.two_pos⟩ 7 1) ++
    List.replicate 6 (pushRight ⟨0, Nat.two_pos⟩ 8 2)

/-- The second thread pushes 9: it has helped the push of 8 and comes to the
compare-exchange of the anchor. -/
def helped : State ℕ 2 × (Fin 2 → List (Effect ℕ)) :=
  ((logged ℕ 2).exec (fun _ _ => True)
    (halfPush ++ List.replicate 19 (pushRight (Fin.last 1) 9 3))
    (constructed 2, fun _ => [])).getD (constructed 2, fun _ => [])

theorem helped_changes_list : (helped.1.frames ⟨0, Nat.two_pos⟩).isSome = true ∧
    helped.1.mem.anchor = ⟨some 1, some 2, .stable⟩ ∧
    ∃ u, (logged ℕ 2).step (pushRight (Fin.last 1) 9 3) helped = some u ∧
      ∃ l l', helped.1.mem.Represents l ∧ u.1.mem.Represents l' ∧
        l'.map u.1.mem.data = l.map helped.1.mem.data ++ [9] := by
  have hstep : ((logged ℕ 2).step (pushRight (Fin.last 1) 9 3) helped).isSome := by decide +kernel
  obtain ⟨u, hu⟩ := Option.isSome_iff_exists.mp hstep
  have hrun : (logged ℕ 2).Reachable helped :=
    Machine.Run.exec_getD _ (.start ⟨init_constructed 2, rfl⟩)
  obtain ⟨l, hl, -, hnext⟩ := casAnchor_refines_atomic_deque hrun
  obtain ⟨⟨l', hl', hchange⟩, -⟩ := hnext _ _ u hu
  have heffect : helped.1.effect (pushRight (Fin.last 1) 9 3) = some (.add .right 9) := by
    decide +kernel
  have hlist : Changes (some (.add .right 9)) (l.map helped.1.mem.data)
      (l'.map u.1.mem.data) := heffect ▸ hchange
  exact ⟨by decide +kernel, by decide +kernel, u, hu, l, l', hl, hl', hlist⟩

end Refinement

end UnboundedDeque.MMDeque
