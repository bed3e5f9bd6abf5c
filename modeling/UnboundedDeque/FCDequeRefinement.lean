import UnboundedDeque.FCDequeSteps

/-!
# The flat-combining deque refines the atomic deque

A request is applied once, by the one thread that holds the lock, while its call
waits; the deque changes at no other step.
-/
namespace UnboundedDeque.FCDeque
open StepMachine

variable {n : ℕ} {T : Type*} {empty : T} {s t : State n T} {tid : Fin n} {S : Side} {f : Frame n T}
  {x : Call T} {d d' : List T}

/-- The contents before and after a request is applied. A pop takes the element at its
end, or `m_empty` from an empty deque and only there. -/
def Applied.Changes (empty : T) : Applied T → List T → List T → Prop
  | .push S v, d, d' => d' = S.add v d
  | .pop S v, d, d' =>
    (d = [] ∧ v = empty ∧ d' = [] ∨ d = S.add v d') ∧ (empty ∉ d → (v = empty ↔ d = []))

theorem popped_changes (empty : T) (S : Side) (d : List T) :
    (Applied.pop S (popped empty S d)).Changes empty d (S.rest d) := by
  by_cases hd : d = []
  · subst hd
    have hrest : S.rest ([] : List T) = [] := by cases S <;> rfl
    have hval : popped empty S [] = empty := by simp [popped]
    exact ⟨.inl ⟨rfl, hval, hrest⟩, fun _ => by simp [hval]⟩
  · obtain ⟨v, hv⟩ := S.first_ne_none hd
    have hval : popped empty S d = v := by rw [popped, hv, Option.getD_some]
    rw [hval]
    refine ⟨.inr (Side.eq_add_of_first hv), fun hempty => ?_⟩
    have hne : v ≠ empty := fun h => hempty (h ▸ Side.mem_of_first hv)
    simp [hne, hd]

/-- The deque changes by the application a step makes, or not at all. -/
theorem frameStep_deque (hf : s.frames tid = some f) (hs : frameStep empty s tid f = some t) :
    match s.applied empty tid with
    | none => t.deque = s.deque
    | some (_, e) => e.Changes empty s.deque t.deque := by
  rw [applied_of_frame hf]
  unfold frameStep at hs
  cases hp : f.point with
  | setValue =>
    rw [hp] at hs
    cases hc : f.call with
    | push v =>
      rw [hc] at hs
      rw [← Option.some.inj hs]
      rfl
    | pop =>
      rw [hc] at hs
      cases hs
  | wait =>
    rw [hp] at hs
    dsimp only at hs
    cases hc : f.call <;> rw [hc] at hs <;> split_ifs at hs <;> rw [← Option.some.inj hs] <;> rfl
  | take c S k =>
    rw [hp] at hs
    dsimp only at hs ⊢
    cases hk : (c.poppers S)[k]? with
    | none =>
      rw [hk] at hs
      rw [← Option.some.inj hs]
      rfl
    | some u =>
      rw [hk] at hs
      rw [← Option.some.inj hs]
      exact popped_changes empty S s.deque
  | _ =>
    rw [hp] at hs
    rw [← Option.some.inj hs]
    rfl

/-- A request is applied while its call waits and has not been applied before. -/
theorem Inv.applied {a : Account n T} {u : Fin n} {e : Applied T} (h : Inv s a)
    (happ : s.applied empty tid = some (u, e)) :
    a.log u = [] ∧ ∃ f, s.frames u = some f ∧ f.point.waits ∧ f.Matches e := by
  cases hf : s.frames tid with
  | none => simp [State.applied, hf] at happ
  | some f =>
    rw [applied_of_frame hf] at happ
    cases hp : f.point with
    | apply c i S =>
      rw [hp] at happ
      obtain ⟨rfl, rfl⟩ := Prod.mk.inj (Option.some.inj happ)
      have hpass := h.pass tid f hf (by rw [hp]; rfl)
      rw [hp] at hpass
      obtain ⟨-, ⟨g, hg, hpend⟩, hst⟩ := hpass.point
      obtain ⟨hside, v, hcall⟩ := Frame.call_of_status_push (hpend.status.symm.trans hst)
      refine ⟨hpend.log, g, hg, hpend.waits, ?_⟩
      rw [Frame.Matches, hcall, hpend.value v hcall, hside]
    | take c S k =>
      rw [hp] at happ
      obtain ⟨v, hk, hv⟩ := Option.map_eq_some_iff.mp happ
      obtain ⟨rfl, rfl⟩ := Prod.mk.inj hv
      have hpass := h.pass tid f hf (by rw [hp]; rfl)
      rw [hp] at hpass
      obtain ⟨⟨g, hg, hpend⟩, hst⟩ := hpass.pending S v (Combine.mem_after_self hk)
      obtain ⟨hside, hcall⟩ := Frame.call_of_status_pop (hpend.status.symm.trans hst)
      refine ⟨hpend.log, g, hg, hpend.waits, ?_⟩
      rw [Frame.Matches, hcall, hside]
      exact ⟨_, rfl⟩
    | _ =>
      rw [hp] at happ
      cases happ

/-- A call ends at its return. -/
theorem frameStep_return (hs : frameStep empty s tid f = some t)
    (ht : t.frames tid = none) : ∃ r, f.point = .ret r := by
  have hgoto (s : State n T) (p : Point n T) (h : t = s.goto tid f p) : False := by
    rw [h, State.goto_frames, Function.update_self] at ht
    cases ht
  unfold frameStep at hs
  cases hp : f.point with
  | setValue =>
    rw [hp] at hs
    cases hc : f.call with
    | push v =>
      rw [hc] at hs
      exact (hgoto _ _ (Option.some.inj hs).symm).elim
    | pop =>
      rw [hc] at hs
      cases hs
  | wait =>
    rw [hp] at hs
    dsimp only at hs
    cases hc : f.call <;> rw [hc] at hs <;> split_ifs at hs <;>
      exact (hgoto _ _ (Option.some.inj hs).symm).elim
  | take c S k =>
    rw [hp] at hs
    dsimp only at hs
    cases hk : (c.poppers S)[k]? <;> rw [hk] at hs <;>
      exact (hgoto _ _ (Option.some.inj hs).symm).elim
  | ret r => exact ⟨r, rfl⟩
  | _ =>
    rw [hp] at hs
    exact (hgoto _ _ (Option.some.inj hs).symm).elim

/-- Every step changes the deque by the application of one pending request, or not at
all; a call returns with its request applied once and the result of that; and whoever
is in `doCombining` is alone there, serves no popper twice and keeps within its arrays. -/
theorem requests_applied_once {u u' : State n T × Account n T} (h : (logged n empty).Reachable u)
    (hs : (logged n empty).step (tid, S, x) u = some u') :
    (match u.1.applied empty tid with
      | none => u'.1.deque = u.1.deque
      | some (v, e) => e.Changes empty u.1.deque u'.1.deque ∧ u.2.log v = [] ∧
          ∃ f, u.1.frames v = some f ∧ f.point.waits ∧ f.Matches e) ∧
      (∀ f, u.1.frames tid = some f → u'.1.frames tid = none →
        ∃ e, f.point = .ret e.result ∧ u.2.log tid = [e] ∧ f.Matches e) ∧
      ∀ w f, u.1.frames w = some f → f.point.combines →
        (∀ v g, u.1.frames v = some g → g.point.combines → v = w) ∧ u.2.served.Nodup ∧
          ∀ c, f.point.locals = some c → ∀ R, (c.poppers R).length ≤ n := by
  obtain ⟨s, a⟩ := u
  obtain ⟨t, b⟩ := u'
  have hi : Inv s a := run_inv h
  have hst : step empty (tid, S, x) s = some t := (Machine.account_step.mp hs).1
  simp only [step] at hst
  refine ⟨?_, fun f hf ht => ?_, fun w f hf hc => ⟨fun v g hg hcg => ?_, ?_, fun c hl R => ?_⟩⟩
  · cases hf : s.frames tid with
    | none =>
      rw [hf] at hst
      have happ : s.applied empty tid = none := by simp [State.applied, hf]
      rw [happ, ← Option.some.inj hst]
      rfl
    | some f =>
      rw [hf] at hst
      have hd := frameStep_deque hf hst
      cases happ : s.applied empty tid with
      | none =>
        rw [happ] at hd
        exact hd
      | some ve =>
        rw [happ] at hd
        exact ⟨hd, hi.applied happ⟩
  · rw [hf] at hst
    obtain ⟨r, hp⟩ := frameStep_return hst ht
    have hfacts := hi.frame_facts hf
    rw [Frame.Facts, hp] at hfacts
    obtain ⟨e, -, hlog, hm, rfl⟩ := hfacts
    exact ⟨e, hp, hlog, hm⟩
  · exact hi.alone v w g f hg hf hcg hc
  · have hn := (hi.pass w f hf hc).nodup
    rw [List.append_assoc] at hn
    exact hn.of_append_left
  · have hn := (hi.pass w f hf hc).poppers c hl
    have hR : (c.poppers R).Nodup := by
      cases R with
      | left => exact hn.of_append_left
      | right => exact hn.of_append_right
    exact hR.length_le_card.trans_eq (Fintype.card_fin n)

/-- `FCDeque(threadCount, empty)` -/
def constructed (n : ℕ) (empty : T) : State n T where
  deque := []
  lock := false
  requests := fun _ => ⟨empty, .complete⟩
  frames := fun _ => none

theorem init_constructed (n : ℕ) (empty : T) : Init empty (constructed n empty) :=
  ⟨rfl, rfl, fun _ => rfl, fun _ => rfl⟩

/-- A step of the first of two threads, which pushes 7 at the right end. -/
def pushSeven : Fin 2 × Side × Call ℕ := (0, .right, .push 7)

/-- A step of the second thread, which pops at the left end. -/
def popLeft : Fin 2 × Side × Call ℕ := (1, .left, .pop)

/-- The pop is published first; then the pushing thread combines, up to the step with which
it serves the pop that it has put off. -/
def beforeServe : State 2 ℕ × Account 2 ℕ :=
  ((logged 2 0).exec (fun _ _ => True) (List.replicate 2 popLeft ++ List.replicate 12 pushSeven)
    (constructed 2 0, ⟨fun _ => [], []⟩)).getD (constructed 2 0, ⟨fun _ => [], []⟩)

theorem serve_pop : ∃ u, (logged 2 0).step pushSeven beforeServe = some u ∧
    beforeServe.1.deque = [7] ∧ u.1.deque = [] ∧ beforeServe.2.log 1 = [] ∧
    ∃ f, beforeServe.1.frames 1 = some f ∧ f.Matches (.pop .left 7) := by
  have hstep : ((logged 2 0).step pushSeven beforeServe).isSome := by decide +kernel
  obtain ⟨u, hu⟩ := Option.isSome_iff_exists.mp hstep
  have hrun : (logged 2 0).Reachable beforeServe :=
    Machine.Run.exec_getD _ (.start ⟨init_constructed 2 0, rfl⟩)
  have happ : beforeServe.1.applied 0 0 = some (1, .pop .left 7) := by decide +kernel
  have hseven : beforeServe.1.deque = [7] := by decide +kernel
  have hchange := (requests_applied_once hrun hu).1
  rw [happ] at hchange
  obtain ⟨hd, hlog, f, hf, -, hm⟩ := hchange
  refine ⟨u, hu, hseven, ?_, hlog, f, hf, hm⟩
  rw [hseven] at hd
  rcases hd with ⟨he, -⟩ | hd
  · cases he
  · exact (List.cons.inj hd).2.symm

end UnboundedDeque.FCDeque
