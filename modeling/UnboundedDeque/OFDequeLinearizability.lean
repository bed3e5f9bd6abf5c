import UnboundedDeque.LinearizableDeque
import UnboundedDeque.OFDequeEmptyPop
import UnboundedDeque.OFDequeRefinement
import UnboundedDeque.OFDequeSequential

/-!
# `OFDeque` is linearizable where its check for the empty deque is sound

A push and a pop take effect at their second compare-exchange. A pop that returns empty is
put at a moment since its call at which the deque was empty, which it may know only later.
-/
namespace UnboundedDeque.OFDeque
open StepMachine Linearizability

section Linearizability

variable {τ : Type*} {m : Memory τ} {tid q : τ} {c : Choice}
  {a : Action} {pt : Point} {p : Option Point} {f : Frame} {s t : State τ}
  {es : List (Effect Word)} {e : Effect Word} {log : τ → List (Effect Word)} {saw : τ → Bool}

/-- The call or the return that a step of a thread makes. -/
def event (l : τ × Choice) (s t : State τ) : Option (Event τ (Side × Call Word) (Result Word)) :=
  match s.frames l.1, t.frames l.1 with
  | none, some f => some (.call l.1 (f.side, f.call))
  | some f, none =>
    match f.point with
    | .clearSecond r => some (.ret l.1 r)
    | _ => none
  | _, _ => none

def Point.foundEmpty (pt : Point) : Bool := decide (pt.result = some .empty)

/-- The phase of a thread with its log. -/
def phase (s : State τ) (log : τ → List (Effect Word)) (tid : τ) :
    Phase (Side × Call Word) (Result Word) :=
  phaseOf (log tid) ((s.frames tid).any fun f => f.point.foundEmpty)
    ((s.frames tid).map fun f => (f.side, f.call))

/-- A pop has seen the deque empty since its call. -/
def SawEmpty (s : State τ) (saw : τ → Bool) (tid : τ) (r : Result Word) : Prop :=
  saw tid = true ∧ r = .empty ∧ ∃ f, s.frames tid = some f ∧ f.call = .pop

variable [DecidableEq τ] [BufferSize]

/-- The logs of effects and the account of moments with an empty deque. -/
def watchedLog (τ : Type*) [DecidableEq τ] :
    Machine (τ × Choice) (State τ × (τ → List (Effect Word)) × (τ → Bool)) :=
  (machine τ).account (fun _ => [], fun _ => false) fun l s t k =>
    (logEffect l s t k.1, noteEmpty l s t k.2)

omit [DecidableEq τ] [BufferSize] in
theorem foundEmpty_of_none (h : pt.result = none) : pt.foundEmpty = false := by
  rw [Point.foundEmpty, h]
  rfl

omit [DecidableEq τ] [BufferSize] in
theorem foundEmpty_of_some {r : Result Word} (h : pt.result = some r) :
    pt.foundEmpty = decide (r = .empty) := by
  rw [Point.foundEmpty, h]
  simp

omit [DecidableEq τ] in
/-- A call takes effect once, by what it has been called for. -/
theorem effect_has (hf : f.point.Facts m tid f.side f.call) (hl : f.Logged es)
    (he : f.effect m = some e) : es = [] ∧ f.point.foundEmpty = false ∧ f.call.Has f.side e := by
  cases hp : f.point with
  | effect v k =>
    have hs : m.slot (k.target f.side v).1 (k.target f.side v).2.1 = (k.target f.side v).2.2 := by
      by_contra hne
      rw [effect_of_missed fun w j hj => by rw [hp] at hj; cases hj; exact hne] at he
      cases he
    rw [effect_of_target hp hs] at he
    refine ⟨(logged_of_none (by rw [hp]; rfl)).mp hl, foundEmpty_of_none rfl, ?_⟩
    have hdone := logged_done (view_of_effect hf hp).2
    rw [he] at hdone
    unfold Frame.Logged at hdone
    split at hdone
    · cases hdone
    · rw [Call.Has, ← Call.Returns.eq_result hdone]
      exact hdone
  | _ =>
    rw [effect_of_not_isEffect (by rw [hp]; rfl)] at he
    cases he

/-- A step inside a call. -/
theorem effective {pt' : Point} (hf : f.point.Facts m tid f.side f.call) (hl : f.Logged es)
    (hs : f.point.Empties m f.side (saw tid))
    (hn : next m c tid f.side f.call f.point = some (a, some pt')) :
    Effective (saw tid = true) f.side f.call (f.effect m) es f.point.foundEmpty pt'.foundEmpty
      m.content where
  fits e he := effect_has hf hl he
  finds he hes := by
    have hnone {pt pt' : Point} (h : pt.result = none) (h' : pt'.result = none) :
        pt'.foundEmpty = pt.foundEmpty := by
      rw [foundEmpty_of_none h, foundEmpty_of_none h']
    rcases next_cases hn with hq | ⟨v, k, hp, rfl, -⟩ | ⟨v, k, hp, rfl, ht⟩ | ⟨v, k, hp, rfl, hc⟩ |
      ⟨r, hp, hq⟩
    · exact .inl (hnone hq.noResult (result_of_plain hq.plain))
    · exact .inl (hnone (by rw [hp]; rfl) rfl)
    · left
      rw [effect_of_target hp ht] at he
      cases k with
      | «seal» n x =>
        exact hnone (by rw [hp]; rfl) (result_of_plain (plain_of_goes goes_popRemove))
      | remove n => exact hnone (by rw [hp]; rfl) rfl
      | _ => cases he
    · rw [hp] at hf hs
      exact .inr ⟨by rw [hp]; exact foundEmpty_of_none rfl, rfl, hf.1, .inr (hs hc)⟩
    · left
      rw [foundEmpty_of_some hp, foundEmpty_of_some hq]

omit [DecidableEq τ] [BufferSize] in
theorem phase_of_none (hf : s.frames tid = none) : phase s log tid = .idle := by
  rw [phase, hf]
  rfl

omit [DecidableEq τ] [BufferSize] in
theorem phase_of_some (hf : s.frames tid = some f) :
    phase s log tid = phaseOf (log tid) f.point.foundEmpty (some (f.side, f.call)) := by
  rw [phase, hf]
  rfl

theorem phase_of_ne (hq : q ≠ tid) (ht : t.frames q = s.frames q) :
    phase t (logEffect (tid, c) s t log) q = phase s log q := by
  have hlog : logEffect (tid, c) s t log q = log q := Function.update_of_ne hq _ _
  rw [phase, phase, ht, hlog]

theorem logEffect_self : logEffect (tid, c) s t log tid =
    if (s.frames tid).isSome then log tid ++ (s.effect tid).toList else [] :=
  Function.update_self _ _ _

/-- A call that returns is done with the result it returns. -/
theorem phase_of_return (hl : LogOk s log) (hf : s.frames tid = some f)
    (hn : next s.mem c tid f.side f.call f.point = some (a, none)) :
    a = .skip ∧ ∃ r, f.point = .clearSecond r ∧ phase s log tid = .done (f.side, f.call) r := by
  obtain ⟨r, hr, ha⟩ := next_return hn
  have hlog : f.call.Returns f.side r (log tid) :=
    (logged_of_some (by rw [hr]; rfl)).mp (hl tid f hf)
  refine ⟨ha, r, hr, ?_⟩
  rw [phase_of_some hf]
  apply hlog.phase_eq
  intro hnil
  rw [hnil] at hlog
  rw [hr, hlog.eq_empty.1]
  rfl

/-- What a pop has seen it has seen before, or the deque is empty now. -/
theorem seen_step {o : Side × Call Word} {r : Result Word}
    (hmoves : (phase s log tid).Moves (dequeObject Word) (SawEmpty s saw tid)
      (phase t (logEffect (tid, c) s t log) tid) s.mem.content t.mem.content)
    (hother : ∀ q, q ≠ tid → t.frames q = s.frames q)
    (hself : ∀ f g, s.frames tid = some f → t.frames tid = some g → g.call = f.call)
    (hp : phase t (logEffect (tid, c) s t log) q = .pending o)
    (hs : SawEmpty t (noteEmpty (tid, c) s t saw) q r) :
    phase s log q = .pending o ∧ SawEmpty s saw q r ∨
      (dequeObject Word).apply o t.mem.content = (r, t.mem.content) := by
  obtain ⟨hsaw, rfl, f, hf, hcall⟩ := hs
  by_cases hempty : t.mem.content = []
  · right
    rw [phase_of_some hf, hcall] at hp
    rw [eq_of_phaseOf hp, hempty]
    exact pop_onList_nil f.side
  · left
    have hold : saw q = true ∧ (q = tid → s.frames q ≠ none) := by
      rw [noteEmpty, decide_eq_false hempty, Bool.or_false, Bool.and_eq_true] at hsaw
      refine ⟨hsaw.1, fun hq hnone => ?_⟩
      subst hq
      simp [hnone] at hsaw
    by_cases hq : q = tid
    · subst hq
      obtain ⟨g, hg⟩ := Option.ne_none_iff_exists'.mp (hold.2 rfl)
      refine ⟨?_, hold.1, rfl, g, hg, (hself g f hg hf).symm.trans hcall⟩
      rw [hp] at hmoves
      refine hmoves.from_pending.resolve_right fun hidle => ?_
      rw [phase_of_some hg] at hidle
      exact phaseOf_ne_idle _ _ _ hidle
    · refine ⟨?_, hold.1, rfl, f, (hother q hq).symm.trans hf, hcall⟩
      rw [← hp]
      exact (phase_of_ne hq (hother q hq)).symm

/-- A step is about the frame of its thread and keeps the call. -/
theorem frames_step (hst : (machine τ).step (tid, c) s = some t) :
    (∀ q, q ≠ tid → t.frames q = s.frames q) ∧
      ∀ f g, s.frames tid = some f → t.frames tid = some g → g.call = f.call := by
  rcases step_cases hst with ⟨hf, rfl⟩ | ⟨f, a, p, hf, hn, rfl⟩
  · refine ⟨fun q hq => Function.update_of_ne hq _ _, fun f g hs => ?_⟩
    rw [hf] at hs
    cases hs
  · refine ⟨fun q hq => Function.update_of_ne hq _ _, fun g g' hs ht => ?_⟩
    obtain rfl := Option.some.inj (hf.symm.trans hs)
    obtain ⟨pt, -, rfl⟩ := Option.map_eq_some_iff.mp ((Function.update_self tid _ _).symm.trans ht)
    rfl

theorem moves_step (hi : Inv s) (hl : LogOk s log) (he : EmptiesOk s saw)
    (hst : (machine τ).step (tid, c) s = some t) :
    (phase s log tid).Moves (dequeObject Word) (SawEmpty s saw tid)
        (phase t (logEffect (tid, c) s t log) tid) s.mem.content t.mem.content ∧
      event (tid, c) s t =
        Phase.event tid (phase s log tid) (phase t (logEffect (tid, c) s t log) tid) := by
  rcases step_cases hst with ⟨hf, rfl⟩ | ⟨f, a, p, hf, hn, rfl⟩
  · rw [phase_of_none hf, phase_of_some (Function.update_self _ _ _), logEffect_self, hf]
    refine ⟨.call, ?_⟩
    simp only [event, hf, Function.update_self]
    rfl
  · have hk : f.point.Knows s.mem tid f.side f.call := ⟨hi.facts tid f hf, hi.permit tid f hf⟩
    have ha := (next_knows hi.shape (hi.clean f.side tid) hk hn).1
    have hchanges := hi.shape.content_act ha
    have hself := Function.update_self tid (p.map fun p => { f with point := p }) s.frames
    have heff : s.effect tid = f.effect s.mem := by rw [State.effect, hf, Option.bind_some]
    rw [effect_next hk.1 hn] at hchanges
    cases p with
    | some q =>
      rw [phase_of_some hf, phase_of_some hself, logEffect_self, hf, heff, event_phaseOf]
      have hturn := effective hk.1 (hl tid f hf) (he tid f hf) hn
      constructor
      · apply Effective.moves _ hchanges
        refine ⟨hturn.fits, fun hnone hnil => (hturn.finds hnone hnil).imp_right ?_⟩
        rintro ⟨hfound, hfound', hcall, hempty⟩
        exact ⟨hfound, hfound', hcall, hempty.imp_right fun hs => ⟨hs, rfl, f, hf, hcall⟩⟩
      · simp only [event, hf, Function.update_self]
        rfl
    | none =>
      obtain ⟨rfl, r, hr, hdone⟩ := phase_of_return hl hf hn
      rw [hdone, phase_of_none hself]
      refine ⟨.ret, ?_⟩
      simp only [event, hf, Function.update_self, hr, Option.map_none]
      rfl

/-- Every step moves the thread that takes it. -/
theorem moved (hi : Inv s) (hl : LogOk s log) (he : EmptiesOk s saw)
    (hst : (machine τ).step (tid, c) s = some t) :
    Moved (dequeObject Word) (event (tid, c) s t) (phase s log)
      (phase t (logEffect (tid, c) s t log)) (SawEmpty s saw)
        (SawEmpty t (noteEmpty (tid, c) s t saw)) tid s.mem.content t.mem.content := by
  obtain ⟨hother, hself⟩ := frames_step hst
  obtain ⟨hmoves, hevent⟩ := moves_step hi hl he hst
  exact ⟨fun q hq => phase_of_ne hq (hother q hq), hmoves, hevent,
    fun q o r => seen_step hmoves hother hself⟩

/-- What the logs and the account of empty moments tell of a run. -/
theorem run_watchedLog {u : State τ × (τ → List (Effect Word)) × (τ → Bool)}
    (h : (watchedLog τ).Run (fun l u => u.1.backUnlinked l.1 = false) u) :
    Inv u.1 ∧ LogOk u.1 u.2.1 ∧ EmptiesOk u.1 u.2.2 := by
  have hboth : LogOk u.1 u.2.1 ∧ EmptiesOk u.1 u.2.2 := by
    apply h.invariant
    · intro u hu
      constructor <;> intro tid f hf
      · rw [hu.1.frames] at hf
        cases hf
      · rw [hu.1.frames] at hf
        cases hf
    · rintro ⟨tid, c⟩ u u' hu ⟨hl, he⟩ hok hst
      obtain ⟨hst, hk⟩ := Machine.account_step.mp hst
      rw [hk]
      have hi := run_inv hu.reachable_of_account
      exact ⟨logOk_step hi hl hst, emptiesOk_step hi he hok hst⟩
  exact ⟨run_inv h.reachable_of_account, hboth⟩

theorem atomic (τ : Type*) [DecidableEq τ] : Atomic (watchedLog τ)
    (fun l u => u.1.backUnlinked l.1 = false) (dequeObject Word) (fun u a => a = u.1.mem.content)
    (fun u => phase u.1 u.2.1) (fun u => SawEmpty u.1 u.2.2) fun l u v => event l u.1 v.1 where
  init u hu := by
    refine ⟨?_, fun p => phase_of_none (hu.1.frames p)⟩
    exact (content_init hu.1.mem).symm
  step := by
    rintro ⟨tid, c⟩ u u' a hu hok hs rfl
    obtain ⟨hst, hk⟩ := Machine.account_step.mp hs
    obtain ⟨hi, hl, he⟩ := run_watchedLog hu
    refine ⟨_, tid, rfl, ?_⟩
    rw [hk]
    exact moved hi hl he hst

/-- In a run in which no check before sealing relies on a back slot without a link, the
calls have the results they could have had one after another, each at a moment between its
call and its return, and what they leave is the content of the deque. -/
theorem slots_linearizable {x : State τ × List (Event τ (Side × Call Word) (Result Word))}
    (h : (withHistory (machine τ) event).Run (fun l x => x.1.backUnlinked l.1 = false) x) :
    Linearizable (dequeObject Word) x.2 x.1.mem.content := by
  obtain ⟨k, a, rfl, hlin⟩ := (atomic τ).linearizable_of_account
    (fun (l : τ × Choice) (s : State τ) => s.backUnlinked l.1 = false) h
  exact hlin

end Linearizability

section Pops

attribute [local instance] four

/-- Three pops that overlap, with their history: the one that starts second and the one that
starts last return, and the first one is still under way. -/
def popped : State ℕ × List (Event ℕ (Side × Call Word) (Result Word)) :=
  ((withHistory (machine ℕ) event).exec (fun l x => x.1.backUnlinked l.1 = false)
    (overlappingPops ++ steps 2 0 .right .pop 1) (constructed ℕ, [])).getD (constructed ℕ, [])

theorem slots_linearizable_pops : popped.2 = [.call 1 (.right, .push 1), .ret 1 .pushed,
      .call 1 (.right, .push 3), .ret 1 .pushed, .call 2 (.right, .pop), .ret 2 (.popped 3),
      .call 2 (.right, .pop), .call 0 (.right, .pop), .call 1 (.left, .pop), .ret 1 (.popped 1),
      .ret 0 .empty] ∧
    Linearizable (dequeObject Word) popped.2 popped.1.mem.content := by
  have hrun : (withHistory (machine ℕ) event).Run (fun l x => x.1.backUnlinked l.1 = false)
      popped := Machine.Run.exec_getD _ (.start ⟨init_constructed, rfl⟩)
  exact ⟨by decide +kernel, slots_linearizable hrun⟩

end Pops
end UnboundedDeque.OFDeque
