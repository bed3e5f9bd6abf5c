import UnboundedDeque.OFDequeContent
import UnboundedDeque.OFDequeRuns

/-!
# The deque refines an atomic deque

The second compare-exchange of a push or a pop is the effect of the call. A log
of each thread's effects in its current call shows that a call that returns has
had one effect, or none where it has found the deque empty.
-/
namespace UnboundedDeque.OFDeque
open StepMachine

section Refinement

variable {τ : Type*} {m : Memory τ} {S : Side} {tid : τ}
  {call : Call Word} {v : View} {c : Choice} {a : Action} {pt q : Point} {p : Option Point}
  {k : Attempt} {f : Frame} {s t : State τ} {es : List (Effect Word)}

/-- The effect of a second compare-exchange that succeeds. -/
def Attempt.effect (S : Side) (call : Call Word) (v : View) : Attempt → Option (Effect Word)
  | .interiorPush | .append _ | .straddle _ _ => some (.add S (pushedValue call))
  | .interiorPop | .boundaryPop => some (.remove S v.near.word)
  | .seal _ _ | .remove _ => none

variable [BufferSize]

/-- The effect of the next step of a call. -/
def Frame.effect (f : Frame) (m : Memory τ) : Option (Effect Word) :=
  match f.point with
  | .effect v k =>
    let (b, i, x) := k.target f.side v
    if m.slot b i = x then k.effect f.side f.call v else none
  | _ => none

/-- The effect of a thread's next step. -/
def State.effect (s : State τ) (tid : τ) : Option (Effect Word) :=
  (s.frames tid).bind fun f => f.effect s.mem

/-- The log of the effects that each thread's call has had. -/
def logEffect [DecidableEq τ] (l : τ × Choice) (s _t : State τ) (log : τ → List (Effect Word)) :
    τ → List (Effect Word) :=
  Function.update log l.1
    (if (s.frames l.1).isSome then log l.1 ++ (s.effect l.1).toList else [])

def logged (τ : Type*) [DecidableEq τ] : Machine (τ × Choice) (State τ × (τ → List (Effect Word))) :=
  (machine τ).account (fun _ => []) logEffect

theorem effect_of_not_isEffect (h : f.point.isEffect = false) : f.effect m = none := by
  unfold Frame.effect
  split
  · rename_i hp
    rw [hp] at h
    cases h
  · rfl

theorem effect_of_target (hp : f.point = .effect v k)
    (h : m.slot (k.target f.side v).1 (k.target f.side v).2.1 = (k.target f.side v).2.2) :
    f.effect m = k.effect f.side f.call v := by
  unfold Frame.effect
  rw [hp]
  exact if_pos h

theorem effect_of_missed (h : ∀ v k, f.point = .effect v k →
    m.slot (k.target f.side v).1 (k.target f.side v).2.1 ≠ (k.target f.side v).2.2) :
    f.effect m = none := by
  unfold Frame.effect
  split
  · rename_i v k hp
    exact if_neg (h v k hp)
  · rfl

/-- The action of a second compare-exchange has the effect of its attempt. -/
theorem effect_action (hr : k.Ready m tid S call v) {junk : Word}
    (h : m.slot (k.target S v).1 (k.target S v).2.1 = (k.target S v).2.2) :
    (k.action S call v junk).effect m = k.effect S call v := by
  cases k with
  | append n =>
    obtain ⟨⟨w, rfl, hw⟩, -⟩ := hr
    exact congrArg (fun w => some (Effect.add S w)) hw
  | interiorPop => exact congrArg (fun x : Slot => some (Effect.remove S x.word)) h
  | boundaryPop => exact congrArg (fun x : Slot => some (Effect.remove S x.word)) h
  | _ => rfl

theorem effect_of_unchanged (ha : a.changes = false) : a.effect m = none := by
  cases a <;> first | rfl | cases ha

/-- What the log of a call contains: nothing before its second compare-exchange,
and then the effect its result tells. -/
def Frame.Logged (f : Frame) (es : List (Effect Word)) : Prop :=
  match f.point.result with
  | none => es = []
  | some r => f.call.Returns f.side r es

omit [BufferSize] in
theorem logged_of_none (h : f.point.result = none) : f.Logged es ↔ es = [] := by
  rw [Frame.Logged, h]

omit [BufferSize] in
theorem logged_of_some {r : Result Word} (h : f.point.result = some r) :
    f.Logged es ↔ f.call.Returns f.side r es := by
  rw [Frame.Logged, h]

/-- A second compare-exchange that succeeds is logged with the right result. -/
theorem logged_done (hr : k.Ready m tid f.side f.call v) :
    Frame.Logged { f with point := k.doneNext f.side v }
      (k.effect f.side f.call v).toList := by
  cases k with
  | interiorPush =>
    obtain ⟨⟨w, hw⟩, -⟩ := hr
    apply (logged_of_some rfl).mpr
    rw [hw]
    exact ⟨rfl, rfl⟩
  | append n =>
    obtain ⟨⟨w, hw, -⟩, -⟩ := hr
    apply (logged_of_some rfl).mpr
    rw [hw]
    exact ⟨rfl, rfl⟩
  | straddle n x =>
    obtain ⟨⟨w, hw⟩, -⟩ := hr
    apply (logged_of_some rfl).mpr
    rw [hw]
    exact ⟨rfl, rfl⟩
  | interiorPop =>
    apply (logged_of_some rfl).mpr
    rw [hr.1]
    exact .inl ⟨_, rfl, rfl⟩
  | boundaryPop =>
    apply (logged_of_some rfl).mpr
    rw [hr.1]
    exact .inl ⟨_, rfl, rfl⟩
  | «seal» n x => 
    have hp : (Attempt.doneNext f.side v (.seal n x)).result = none :=
      result_of_plain (plain_of_goes goes_popRemove)
    exact (logged_of_none hp).mpr rfl
  | remove n => exact (logged_of_none rfl).mpr rfl

variable [DecidableEq τ]

/-- The effect of a step on the memory is the effect of the call's step. -/
theorem effect_next (hf : f.point.Facts m tid f.side f.call)
    (hn : next m c tid f.side f.call f.point = some (a, p)) : a.effect m = f.effect m := by
  cases ha : a.changes with
  | true =>
    obtain ⟨v, k, hp, rfl, hs, -⟩ := next_changes hn ha
    rw [effect_of_target hp hs]
    exact effect_action (view_of_effect hf hp).2 hs
  | false =>
    rw [effect_of_unchanged ha]
    cases he : f.point.isEffect with
    | false => exact (effect_of_not_isEffect he).symm
    | true =>
      obtain ⟨v, k, hp⟩ : ∃ v k, f.point = .effect v k := by
        cases hp : f.point <;> rw [hp] at he <;> first | exact ⟨_, _, rfl⟩ | cases he
      by_cases hs : m.slot (k.target f.side v).1 (k.target f.side v).2.1 =
          (k.target f.side v).2.2
      · rw [hp] at hn
        simp only [next, hs, if_true, Option.some.injEq, Prod.mk.injEq] at hn
        obtain ⟨rfl, -⟩ := hn
        rw [← effect_of_unchanged ha (m := m), effect_of_target hp hs]
        exact effect_action (view_of_effect hf hp).2 hs
      · refine (effect_of_missed fun w j hj => ?_).symm
        rw [hp] at hj
        cases hj
        exact hs

/-- The log stays as it should be within a call. -/
theorem logged_next (hf : f.point.Facts m tid f.side f.call) (hl : f.Logged es)
    (hn : next m c tid f.side f.call f.point = some (a, some q)) :
    Frame.Logged { f with point := q } (es ++ (f.effect m).toList) := by
  have hnone (h : f.effect m = none) : es ++ (f.effect m).toList = es := by
    rw [h]
    exact List.append_nil es
  have hquiet (h : f.point.isEffect = false) := hnone (effect_of_not_isEffect h)
  rcases next_cases hn with hq | ⟨v, k, hp, rfl, -⟩ | ⟨v, k, hp, rfl, hs⟩ | ⟨v, k, hp, rfl, -⟩ |
    ⟨r, hp, hq⟩
  · rw [hnone (effect_of_missed hq.missed), (logged_of_none hq.noResult).mp hl]
    exact (logged_of_none (result_of_plain hq.plain)).mpr rfl
  · rw [hquiet (by rw [hp]; rfl)]
    exact (logged_of_none rfl).mpr ((logged_of_none (by rw [hp]; rfl)).mp hl)
  · have hes : es = [] := (logged_of_none (by rw [hp]; rfl)).mp hl
    rw [hes, effect_of_target hp hs]
    exact logged_done (view_of_effect hf hp).2
  · rw [hquiet (by rw [hp]; rfl), (logged_of_none (by rw [hp]; rfl)).mp hl]
    apply (logged_of_some rfl).mpr
    rw [hp] at hf
    rw [hf.1]
    exact .inr ⟨rfl, rfl⟩
  · rw [hquiet (by cases h : f.point <;> rw [h] at hp <;> first | rfl | cases hp)]
    exact (logged_of_some hq).mpr ((logged_of_some hp).mp hl)

/-- The log of every call is right. -/
def LogOk (s : State τ) (log : τ → List (Effect Word)) : Prop :=
  ∀ tid f, s.frames tid = some f → f.Logged (log tid)

theorem logOk_step {log : τ → List (Effect Word)} (hi : Inv s) (hl : LogOk s log)
    (hs : (machine τ).step (tid, c) s = some t) : LogOk t (logEffect (tid, c) s t log) := by
  have hother {q : τ} (hq : q ≠ tid) : logEffect (tid, c) s t log q = log q :=
    Function.update_of_ne hq _ _
  have hself : logEffect (tid, c) s t log tid =
      if (s.frames tid).isSome then log tid ++ (s.effect tid).toList else [] :=
    Function.update_self _ _ _
  intro q g hg
  rcases step_cases hs with ⟨hf, rfl⟩ | ⟨f, a, p, hf, hn, rfl⟩
  · rcases frame_of_start hg with ⟨rfl, rfl⟩ | ⟨hq, hg⟩
    · rw [hself, hf]
      exact (logged_of_none rfl).mpr rfl
    · rw [hother hq]
      exact hl q g hg
  · rcases frame_of_next hg with ⟨rfl, pt, rfl, rfl⟩ | ⟨hq, hg⟩
    · have heff : s.effect q = f.effect s.mem := by rw [State.effect, hf, Option.bind_some]
      rw [hself, hf, heff]
      exact logged_next (hi.facts q f hf) (hl q f hf) hn
    · rw [hother hq]
      exact hl q g hg

theorem run_logOk {u : State τ × (τ → List (Effect Word))} (h : (logged τ).Reachable u) :
    LogOk u.1 u.2 := by
  apply h.invariant
  · intro u hu tid f hf
    rw [hu.1.frames] at hf
    cases hf
  · rintro ⟨tid, c⟩ u u' hu hl _ hs
    obtain ⟨hst, hlog⟩ := Machine.account_step.mp hs
    rw [hlog]
    exact logOk_step (run_inv hu.reachable_of_account) hl hst

/-- A call returns from its last point with the result it holds. -/
theorem next_return (hn : next m c tid S call pt = some (a, none)) :
    ∃ r, pt = .clearSecond r ∧ a = .skip := by
  cases pt with
  | clearSecond r =>
    cases hn
    exact ⟨r, rfl, rfl⟩
  | failed => cases hn
  | alloc v =>
    simp only [next] at hn
    split_ifs at hn
    cases hn
  | fill v n i =>
    simp only [next] at hn
    split_ifs at hn <;> cases hn
  | safe v k =>
    simp only [next] at hn
    split_ifs at hn <;> cases hn
  | effect v k =>
    simp only [next] at hn
    split_ifs at hn <;> cases hn
  | updCas v n u =>
    simp only [next] at hn
    split_ifs at hn <;> cases hn
  | _ => cases hn

/-- Every step changes the content by the effect of the second compare-exchange
it succeeds in, or not at all; a call that returns has had the effect its result
tells, and no other. -/
theorem refines_atomic_deque {u u' : State τ × (τ → List (Effect Word))}
    (h : (logged τ).Reachable u) (hs : (logged τ).step (tid, c) u = some u') :
    Changes (u.1.effect tid) u.1.mem.content u'.1.mem.content ∧
      ∀ f, u.1.frames tid = some f → u'.1.frames tid = none →
        ∃ r, f.point = .clearSecond r ∧ f.call.Returns f.side r (u.2 tid) := by
  obtain ⟨s, log⟩ := u
  obtain ⟨t, log'⟩ := u'
  have hi : Inv s := run_inv h.reachable_of_account
  have hl : LogOk s log := run_logOk h
  have hst : (machine τ).step (tid, c) s = some t := (Machine.account_step.mp hs).1
  rcases step_cases hst with ⟨hf, rfl⟩ | ⟨f, a, p, hf, hn, rfl⟩
  · refine ⟨?_, fun f hf' => ?_⟩
    · rw [State.effect, hf]
      rfl
    · rw [hf] at hf'
      cases hf'
  · have hk : f.point.Knows s.mem tid f.side f.call := ⟨hi.facts tid f hf, hi.permit tid f hf⟩
    have ha := (next_knows hi.shape (hi.clean f.side tid) hk hn).1
    have heff : s.effect tid = a.effect s.mem := by
      rw [State.effect, hf, Option.bind_some, effect_next hk.1 hn]
    refine ⟨heff ▸ hi.shape.content_act ha, fun g hg ht => ?_⟩
    obtain rfl : f = g := Option.some.inj (hf.symm.trans hg)
    replace ht : p.map (fun p => { f with point := p }) = none :=
      (Function.update_self tid _ s.frames).symm.trans ht
    rw [Option.map_eq_none_iff] at ht
    subst ht
    obtain ⟨r, hp, -⟩ := next_return hn
    exact ⟨r, hp, (logged_of_some (by rw [hp]; rfl)).mp (hl tid f hf)⟩

end Refinement

section Push

attribute [local instance] four

/-- A step of a thread that pushes 7 at the right end. -/
def pushSeven : ℕ × Choice := (0, ⟨(.right, .push 7), 1, 0, 0⟩)

/-- The first push up to its second compare-exchange. -/
def beforePush : State ℕ × (ℕ → List (Effect Word)) :=
  ((logged ℕ).exec (fun _ _ => True) (List.replicate 10 pushSeven)
    (constructed ℕ, fun _ => [])).getD (constructed ℕ, fun _ => [])

theorem push_refines_atomic_deque : ∃ u, (logged ℕ).step pushSeven beforePush = some u ∧
    beforePush.1.mem.content = [] ∧ u.1.mem.content = [7] := by
  have hstep : ((logged ℕ).step pushSeven beforePush).isSome := by decide +kernel
  obtain ⟨u, hu⟩ := Option.isSome_iff_exists.mp hstep
  have hrun : (logged ℕ).Reachable beforePush :=
    Machine.Run.exec_getD _ (.start ⟨init_constructed, rfl⟩)
  have hchange := (refines_atomic_deque hrun hu).1
  have heffect : beforePush.1.effect 0 = some (.add .right 7) := by decide +kernel
  have hempty : beforePush.1.mem.content = [] := by decide +kernel
  rw [heffect, hempty] at hchange
  exact ⟨u, hu, hempty, hchange⟩

end Push
end UnboundedDeque.OFDeque
