import UnboundedDeque.FCDequeRefinement
import UnboundedDeque.LinearizableDeque

/-!
# The flat-combining deque is linearizable

A call takes effect when a combiner applies its request, be it the caller or another thread.
-/
namespace UnboundedDeque.FCDeque
open StepMachine Linearizability

variable {n : ℕ} {T : Type*} {empty : T} {s t : State n T} {a : Account n T} {tid u : Fin n}
  {S : Side} {f : Frame n T} {x : Call T} {e : Applied T} {d d' : List T}

/-- The call or the return that a step of a thread makes. -/
def event (l : Fin n × Side × Call T) (s t : State n T) :
    Option (Event (Fin n) (Side × Call T) (Option T)) :=
  match s.frames l.1, t.frames l.1 with
  | none, some f => some (.call l.1 (f.side, f.call))
  | some f, none =>
    match f.point with
    | .ret r => some (.ret l.1 r)
    | _ => none
  | _, _ => none

/-- The phase of a call with the applications of its request. -/
def Frame.phase (f : Frame n T) : List (Applied T) → Phase (Side × Call T) (Option T)
  | [] => .pending (f.side, f.call)
  | e :: _ => .done (f.side, f.call) e.result

def phase (s : State n T) (a : Account n T) (u : Fin n) : Phase (Side × Call T) (Option T) :=
  match s.frames u with
  | none => .idle
  | some f => f.phase (a.log u)

theorem phase_of_none (hf : s.frames u = none) : phase s a u = .idle := by
  simp only [phase, hf]

theorem phase_of_some (hf : s.frames u = some f) : phase s a u = f.phase (a.log u) := by
  simp only [phase, hf]

/-- An application does what the call does on a plain list. -/
theorem apply_of_matches (hm : f.Matches e) (he : e.Changes empty d d') :
    (valueObject empty).apply (f.side, f.call) d = (e.result, d') := by
  unfold Frame.Matches at hm
  cases hc : f.call with
  | push v =>
    rw [hc] at hm
    obtain rfl : e = .push f.side v := hm
    obtain rfl : d' = f.side.add v d := he
    rfl
  | pop =>
    rw [hc] at hm
    obtain ⟨v, rfl⟩ := hm
    rcases he.1 with ⟨rfl, rfl, rfl⟩ | rfl
    · have hrest : f.side.rest ([] : List T) = [] := by cases f.side <;> rfl
      simp [valueObject, hrest, Applied.result]
    · simp [valueObject, Applied.result]

/-- A step of a call goes on to a point of it or returns. -/
theorem frameStep_frames (hs : frameStep empty s tid f = some t) :
    (∃ p, t.frames = Function.update s.frames tid (some { f with point := p })) ∨
      t.frames = Function.update s.frames tid none ∧ ∃ r, f.point = .ret r := by
  have hgoto {s' : State n T} {p : Point n T} (h : some (s'.goto tid f p) = some t)
      (hframes : s'.frames = s.frames) :
      ∃ p, t.frames = Function.update s.frames tid (some { f with point := p }) := by
    refine ⟨p, ?_⟩
    rw [← Option.some.inj h, ← hframes]
    rfl
  unfold frameStep at hs
  split at hs
  case h_8 r hp =>
    refine .inr ⟨?_, r, hp⟩
    rw [← Option.some.inj hs]
    rfl
  all_goals left
  case h_1 =>
    split at hs
    · exact hgoto hs rfl
    · cases hs
  case h_3 =>
    split_ifs at hs
    · split at hs <;> exact hgoto hs rfl
    · exact hgoto hs rfl
  case h_13 =>
    split at hs <;> exact hgoto hs rfl
  all_goals exact hgoto hs rfl

/-- A step that applies no request and is inside a call leaves the logs alone. -/
theorem note_log (hf : s.frames tid = some f) (happ : s.applied empty tid = none) :
    (note empty (tid, S, x) s t a).log = a.log := by
  simp only [note, happ, hf]
  cases f.point with
  | tryLock =>
    dsimp only
    split_ifs <;> rfl
  | _ => rfl

theorem note_applied (happ : s.applied empty tid = some (u, e)) :
    (note empty (tid, S, x) s t a).log = Function.update a.log u (a.log u ++ [e]) := by
  simp only [note, happ]

/-- The start of a call. -/
theorem moved_call (hf : s.frames tid = none) :
    Moved (valueObject empty) (event (tid, S, x) s (s.call tid S x)) (phase s a)
      (phase (s.call tid S x) (note empty (tid, S, x) s (s.call tid S x) a)) (fun _ _ => False)
        (fun _ _ => False) tid s.deque (s.call tid S x).deque := by
  rw [note_none hf]
  have hnew : (s.call tid S x).frames tid = some _ := Function.update_self _ _ _
  have hlog : Function.update a.log tid [] tid = [] := Function.update_self _ _ _
  have hphase : phase (s.call tid S x) { a with log := Function.update a.log tid [] } tid =
      .pending (S, x) := by
    rw [phase_of_some hnew]
    dsimp only
    rw [hlog]
    rfl
  refine ⟨fun q hq => ?_, ?_, ?_, fun _ _ _ _ h => h.elim⟩
  · have hframe : (s.call tid S x).frames q = s.frames q := Function.update_of_ne hq _ _
    simp only [phase, hframe, Function.update_of_ne hq]
  · rw [phase_of_none hf, hphase]
    exact .call
  · rw [phase_of_none hf, hphase]
    simp only [event, hf, hnew]
    rfl

/-- A step to another point of a call changes phases only by what the account says. -/
theorem phase_goto {p : Point n T} (hf : s.frames tid = some f)
    (ht : t.frames = Function.update s.frames tid (some { f with point := p })) (b : Account n T)
    (q : Fin n) : phase t b q = phase s b q := by
  by_cases hq : q = tid
  · subst hq
    rw [phase_of_some hf, phase_of_some (by rw [ht]; exact Function.update_self _ _ _)]
    rfl
  · simp only [phase, ht, Function.update_of_ne hq]

/-- The application of a request moves the thread whose request it is. -/
theorem moved_applied (hi : Inv s a) (hf : s.frames tid = some f)
    (hs : frameStep empty s tid f = some t) (happ : s.applied empty tid = some (u, e)) :
    Moved (valueObject empty) (event (tid, S, x) s t) (phase s a)
      (phase t (note empty (tid, S, x) s t a)) (fun _ _ => False) (fun _ _ => False) u
        s.deque t.deque := by
  have hd := frameStep_deque hf hs
  rw [happ] at hd
  obtain ⟨hlog, g, hg, -, hm⟩ := hi.applied happ
  obtain ⟨p, ht⟩ : ∃ p, t.frames = Function.update s.frames tid (some { f with point := p }) := by
    rcases frameStep_frames hs with ht | ⟨-, r, hp⟩
    · exact ht
    · rw [applied_of_frame hf, hp] at happ
      cases happ
  have hold : phase s a u = .pending (g.side, g.call) := by
    rw [phase_of_some hg, hlog]
    rfl
  have hnew : phase t (note empty (tid, S, x) s t a) u = .done (g.side, g.call) e.result := by
    rw [phase_goto hf ht, phase_of_some hg, note_applied happ, Function.update_self, hlog]
    rfl
  refine ⟨fun q hq => ?_, ?_, ?_, fun _ _ _ _ h => h.elim⟩
  · rw [phase_goto hf ht]
    simp only [phase, note_applied happ, Function.update_of_ne hq]
  · rw [hold, hnew]
    exact .of_apply (apply_of_matches hm hd)
  · rw [hold, hnew]
    simp only [event, hf, ht, Function.update_self]
    rfl

/-- Any other step inside a call moves its thread, if at all, to idle. -/
theorem moved_quiet (hi : Inv s a) (hf : s.frames tid = some f)
    (hs : frameStep empty s tid f = some t) (happ : s.applied empty tid = none) :
    Moved (valueObject empty) (event (tid, S, x) s t) (phase s a)
      (phase t (note empty (tid, S, x) s t a)) (fun _ _ => False) (fun _ _ => False) tid
        s.deque t.deque := by
  have hd := frameStep_deque hf hs
  rw [happ] at hd
  have hlog := note_log (S := S) (x := x) (t := t) (a := a) hf happ
  have hsame (q : Fin n) : phase s (note empty (tid, S, x) s t a) q = phase s a q := by
    simp only [phase, hlog]
  rw [show t.deque = s.deque from hd]
  rcases frameStep_frames hs with ⟨p, ht⟩ | ⟨ht, r, hp⟩
  · refine ⟨fun q _ => ?_, ?_, ?_, fun _ _ _ _ h => h.elim⟩
    · rw [phase_goto hf ht, hsame]
    · rw [phase_goto hf ht, hsame]
      exact .stay
    · rw [phase_goto hf ht, hsame, Phase.event_self]
      simp only [event, hf, ht, Function.update_self]
  · have hdone : phase s a tid = .done (f.side, f.call) r := by
      have hfacts := hi.frame_facts hf
      rw [Frame.Facts, hp] at hfacts
      obtain ⟨e, -, hl, -, rfl⟩ := hfacts
      rw [phase_of_some hf, hl]
      rfl
    have hnone : t.frames tid = none := by
      rw [ht]
      exact Function.update_self _ _ _
    refine ⟨fun q hq => ?_, ?_, ?_, fun _ _ _ _ h => h.elim⟩
    · rw [← hsame]
      simp only [phase, ht, Function.update_of_ne hq]
    · rw [hdone, phase_of_none hnone]
      exact .ret
    · rw [hdone, phase_of_none hnone]
      simp only [event, hf, hnone, hp]
      rfl

theorem atomic (n : ℕ) (empty : T) : Atomic (logged n empty) (fun _ _ => True) (valueObject empty)
    (fun u d => d = u.1.deque) (fun u => phase u.1 u.2) (fun _ _ _ => False)
    fun l u v => event l u.1 v.1 where
  init u hu := ⟨hu.1.deque.symm, fun p => phase_of_none (hu.1.frames p)⟩
  step := by
    rintro ⟨tid, S, x⟩ ⟨s, a⟩ ⟨t, b⟩ d hr - hs rfl
    obtain ⟨hst, hb⟩ := Machine.account_step.mp hs
    obtain rfl : b = note empty (tid, S, x) s t a := hb
    replace hst : step empty (tid, S, x) s = some t := hst
    have hi : Inv s a := run_inv hr
    simp only [step] at hst
    cases hf : s.frames tid with
    | none =>
      rw [hf] at hst
      obtain rfl := Option.some.inj hst
      exact ⟨_, tid, rfl, moved_call hf⟩
    | some f =>
      rw [hf] at hst
      cases happ : s.applied empty tid with
      | none => exact ⟨_, tid, rfl, moved_quiet hi hf hst happ⟩
      | some ue => exact ⟨_, ue.1, rfl, moved_applied hi hf hst happ⟩

/-- The calls of every run have the results they could have had one after another, each at a
moment between its call and its return, and what they leave is `m_deque`. -/
theorem requests_linearizable {x : State n T × List (Event (Fin n) (Side × Call T) (Option T))}
    (h : (withHistory (machine n empty) event).Reachable x) :
    Linearizable (valueObject empty) x.2 x.1.deque := by
  obtain ⟨a, d, rfl, hlin⟩ := (atomic n empty).linearizable_of_account (fun _ _ => True) h
  exact hlin

/-- A pop that is called before a push and gets its value, with the history. -/
def servedPop : State 2 ℕ × List (Event (Fin 2) (Side × Call ℕ) (Option ℕ)) :=
  ((withHistory (machine 2 0) event).exec (fun _ _ => True)
    (List.replicate 2 popLeft ++ List.replicate 21 pushSeven ++ List.replicate 3 popLeft)
    (constructed 2 0, [])).getD (constructed 2 0, [])

theorem requests_linearizable_pop :
    servedPop.2 = [.call 1 (.left, .pop), .call 0 (.right, .push 7), .ret 0 none,
      .ret 1 (some 7)] ∧
    Linearizable (valueObject 0) servedPop.2 servedPop.1.deque := by
  have hrun : (withHistory (machine 2 0) event).Reachable servedPop :=
    Machine.Run.exec_getD _ (.start ⟨init_constructed 2 0, rfl⟩)
  exact ⟨by decide +kernel, requests_linearizable hrun⟩

end UnboundedDeque.FCDeque
