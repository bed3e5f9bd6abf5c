import UnboundedDeque.FCDequeInvariant

/-!
# The steps of the flat-combining deque keep its invariants

Each step keeps the invariants, so a request is applied once, by the one thread that
holds the lock, while its call waits.
-/
namespace UnboundedDeque.FCDeque
open StepMachine

variable {n : ℕ} {T : Type*} {empty : T} {s t : State n T} {a b : Account n T}
  {tid u v w : Fin n} {S R : Side} {f g : Frame n T} {p : Point n T} {c : Combine n} {e : Applied T}
  {x : Call T} {i k : ℕ}

theorem note_none (hf : s.frames tid = none) :
    note empty (tid, S, x) s t a = { a with log := Function.update a.log tid [] } := by
  simp [note, State.applied, hf]

theorem note_some (hf : s.frames tid = some f) (hp : s.applied empty tid = none)
    (hl : f.point = .tryLock → s.lock = true) : note empty (tid, S, x) s t a = a := by
  simp only [note, hp, hf]
  cases hq : f.point with
  | tryLock => simp [hl hq]
  | _ => rfl

theorem applied_of_frame (hf : s.frames tid = some f) : s.applied empty tid =
    match f.point with
    | .apply _ i S => some (i, .push S (s.requests i).value)
    | .take c S k => (c.poppers S)[k]?.map fun u => (u, .pop S (popped empty S s.deque))
    | _ => none := by
  rw [State.applied, hf]
  rfl

/-- A call starts with an empty log. -/
theorem Inv.call (h : Inv s a) (hf : s.frames tid = none) :
    Inv (s.call tid S x) { a with log := Function.update a.log tid [] } := by
  have hst : (s.requests tid).status = .complete := by
    have := h.facts tid
    rw [hf] at this
    exact this
  have hnone {f : Frame n T} (hf' : s.frames tid = some f) : False := by
    rw [hf] at hf'
    cases hf'
  refine h.outside rfl (fun _ _ => rfl) (fun u hu => Function.update_of_ne hu _ _) rfl
    id (fun f hf' => (hnone hf').elim) (fun f hf' => ?_) ?_ fun f hf' => (hnone hf').elim
  · obtain rfl := Option.some.inj hf'
    cases x <;> rfl
  · cases x with
    | push v => exact ⟨hst, Function.update_self _ _ _, v, rfl⟩
    | pop =>
      refine ⟨hst, Function.update_self _ _ _, fun v hv => ?_⟩
      cases hv

/-- Facts of a waiting thread whose request is not complete. -/
theorem Frame.Facts.goto_wait {r : Request T} {l : List (Applied T)} {A : Prop}
    (h : f.Facts r l A) (hf : f.point.waits = true) (hp : p.waits = true) :
    { f with point := p }.Facts r l A := h.goto hf hp id

/-- A waiting thread that goes on waiting without the lock. -/
theorem Inv.wait (h : Inv s a) (hf : s.frames tid = some f) (hw : f.point.waits = true)
    (hc : f.point.combines = false) (hp : p.waits = true) (hpc : p.combines = false) :
    Inv (s.goto tid f p) a := by
  have hfacts := h.frame_facts hf
  refine h.outside rfl (fun _ _ => rfl) (fun _ _ => rfl) rfl id (fun g hg => ?_)
    (fun g hg => ?_) (Frame.Facts.goto_wait hfacts hw hp) fun g hg _ _ => ?_
  · exact Option.some.inj (hf.symm.trans hg) ▸ hc
  · exact Option.some.inj hg ▸ hpc
  · exact ⟨rfl, rfl, p, hp, by rw [Option.some.inj (hf.symm.trans hg)]⟩

/-- A waiting thread that has seen its request complete has had it applied. -/
theorem Inv.done_of_complete (h : Inv s a) (hf : s.frames tid = some f)
    (hw : f.point.waits = true) (hst : (s.requests tid).status = .complete) :
    ∃ e, f.Done (s.requests tid) (a.log tid) e := by
  have hfacts := h.frame_facts hf
  rcases (Frame.facts_of_waits hw).mp hfacts with hp | ⟨w, g, hg, hack⟩ | hd
  · exact absurd (hp.status.symm.trans hst) f.status_ne_complete
  · -- whoever is about to acknowledge the request has found it incomplete
    have htaken : ∃ e, s.Taken a tid e := by
      have hpoint := (h.pass w g hg (Point.combines_of_acks hack)).point
      unfold AtPoint at hpoint
      unfold Point.acks at hack
      cases hq : g.point with
      | ackPush c i =>
        rw [hq] at hack hpoint
        obtain rfl := Option.some.inj hack
        exact ⟨_, hpoint.2.choose_spec.choose_spec⟩
      | store c S k u v =>
        rw [hq] at hack hpoint
        obtain rfl := Option.some.inj hack
        exact ⟨_, hpoint.2.2⟩
      | ackPop c S k u =>
        rw [hq] at hack hpoint
        obtain rfl := Option.some.inj hack
        exact ⟨_, hpoint.2.2⟩
      | _ =>
        rw [hq] at hack
        cases hack
    obtain ⟨e, f', hf', ht⟩ := htaken
    exact absurd (ht.status.symm.trans hst) f'.status_ne_complete
  · exact hd

/-- A step of a thread without the lock that does not wait afterwards, because its
request is complete or not published. -/
theorem Inv.leave (h : Inv s a) (hf : s.frames tid = some f) (hc : f.point.combines = false)
    (ho : ∀ f, t.frames tid = some f → f.point.combines = false)
    (hframes : t.frames = Function.update s.frames tid (t.frames tid))
    (hrequests : ∀ u ≠ tid, t.requests u = s.requests u) (hlock : t.lock = s.lock)
    (hst : f.point.waits = true → (s.requests tid).status = .complete)
    (hfacts : Facts (t.frames tid) (t.requests tid) (a.log tid) (s.Acked tid)) : Inv t a := by
  refine h.outside hframes hrequests (fun _ _ => rfl) rfl (fun hl => hlock.trans hl) (fun g hg => ?_)
    ho hfacts fun g hg hw hs => ?_
  · exact Option.some.inj (hf.symm.trans hg) ▸ hc
  · obtain rfl := Option.some.inj (hf.symm.trans hg)
    exact absurd (hs.symm.trans (hst hw)) f.status_ne_complete

/-- Such a step to a point of the call. -/
theorem Inv.leave_goto (h : Inv s a) (hf : s.frames tid = some f)
    (hc : f.point.combines = false) (hp : p.combines = false)
    (hframes : t.frames = Function.update s.frames tid (some { f with point := p }))
    (hrequests : ∀ u ≠ tid, t.requests u = s.requests u) (hlock : t.lock = s.lock)
    (hst : f.point.waits = true → (s.requests tid).status = .complete)
    (hfacts : { f with point := p }.Facts (t.requests tid) (a.log tid) (s.Acked tid)) :
    Inv t a := by
  have hself : t.frames tid = some { f with point := p } := by
    rw [hframes, Function.update_self]
  refine h.leave hf hc (fun g hg => ?_) (by rw [hself, hframes]) hrequests hlock hst ?_
  · rw [← Option.some.inj (hself.symm.trans hg)]
    exact hp
  · rw [hself]
    exact hfacts

/-- A step of the combiner that applies and acknowledges nothing. -/
theorem Inv.goto (h : Inv s a) (hf : s.frames tid = some f) (hc : f.point.combines = true)
    (hack : f.point.acks = none) (hp : p.waits = true) (hlock : p.combines = true → t.lock = true)
    (hframes : t.frames = Function.update s.frames tid (some { f with point := p }))
    (hrequests : t.requests = s.requests) (hlog : b.log = a.log)
    (hpass : p.combines = true → Pass t b tid p) : Inv t b := by
  refine h.inside hf hframes (Point.waits_of_combines hc) hp
    (fun w g hg hcg => h.alone w tid g f hg hf hcg hc) (fun u => .inl ?_) hlock hpass
  exact ⟨by rw [hrequests], by rw [hlog], by simp [hack]⟩

/-- The combiner finds only pending requests incomplete. -/
theorem Inv.pending_of_status (h : Inv s a) (hf : s.frames tid = some f)
    (hc : f.point.combines = true) (hack : f.point.acks = none)
    (hst : (s.requests u).status ≠ .complete) : s.Pending a u := by
  have hu := h.facts u
  cases hg : s.frames u with
  | none =>
    rw [hg] at hu
    exact absurd hu hst
  | some g =>
    rw [hg] at hu
    change g.Facts _ _ _ at hu
    cases hw : g.point.waits with
    | true =>
      rcases (Frame.facts_of_waits hw).mp hu with hp | ⟨w, g', hg', ha⟩ | ⟨e, hd⟩
      · exact ⟨g, hg, hp⟩
      · obtain rfl := h.alone w tid g' f hg' hf (Point.combines_of_acks ha) hc
        obtain rfl := Option.some.inj (hf.symm.trans hg')
        rw [hack] at ha
        cases ha
      · exact absurd hd.status hst
    | false =>
      exfalso
      apply hst
      unfold Frame.Facts at hu
      cases hq : g.point with
      | setValue | setStatus =>
        rw [hq] at hu
        exact hu.1
      | readValue =>
        rw [hq] at hu
        exact hu.2.choose_spec.status
      | ret r =>
        rw [hq] at hu
        exact hu.choose_spec.1
      | _ =>
        rw [hq] at hw
        cases hw

theorem State.Pending.step (h : s.Pending a u) (hf : s.frames tid = some f)
    (hframes : t.frames = Function.update s.frames tid (some { f with point := p }))
    (hp : p.waits = true) (hr : t.requests u = s.requests u) (hl : b.log u = a.log u) :
    t.Pending b u := by
  obtain ⟨g, hg, hpend⟩ := h
  by_cases hu : u = tid
  · subst hu
    obtain rfl := Option.some.inj (hf.symm.trans hg)
    refine ⟨_, by rw [hframes, Function.update_self], ?_⟩
    rw [hr, hl]
    exact hpend.goto hp
  · refine ⟨g, by rw [hframes, Function.update_of_ne hu, hg], ?_⟩
    rw [hr, hl]
    exact hpend

/-- A pending request whose log is extended is taken. -/
theorem State.Pending.take (h : s.Pending a u) (hf : s.frames tid = some f)
    (hframes : t.frames = Function.update s.frames tid (some { f with point := p }))
    (hp : p.waits = true) (hr : t.requests u = s.requests u) (hl : b.log u = a.log u ++ [e])
    (he : ∀ g, s.frames u = some g → g.Pending (s.requests u) (a.log u) → g.Matches e) :
    t.Taken b u e := by
  obtain ⟨g, hg, hpend⟩ := h
  have hlog : b.log u = [e] := by rw [hl, hpend.log, List.nil_append]
  have hst : (t.requests u).status = g.status := by rw [hr, hpend.status]
  by_cases hu : u = tid
  · subst hu
    obtain rfl := Option.some.inj (hf.symm.trans hg)
    exact ⟨{ f with point := p }, by rw [hframes, Function.update_self], hp, hst, hlog,
      he f hf hpend⟩
  · exact ⟨g, by rw [hframes, Function.update_of_ne hu, hg], hpend.waits, hst, hlog, he g hg hpend⟩

theorem State.Taken.step (h : s.Taken a u e) (hf : s.frames tid = some f)
    (hframes : t.frames = Function.update s.frames tid (some { f with point := p }))
    (hp : p.waits = true) (hr : (t.requests u).status = (s.requests u).status)
    (hl : b.log u = a.log u) : t.Taken b u e := by
  obtain ⟨g, hg, ht⟩ := h
  have hst : (t.requests u).status = g.status := hr.trans ht.status
  by_cases hu : u = tid
  · subst hu
    obtain rfl := Option.some.inj (hf.symm.trans hg)
    exact ⟨{ f with point := p }, by rw [hframes, Function.update_self], hp, hst, hl.trans ht.log,
      ht.call⟩
  · exact ⟨g, by rw [hframes, Function.update_of_ne hu, hg], ht.waits, hst, hl.trans ht.log,
      ht.call⟩

/-- A taken request that the combiner is about to acknowledge. -/
theorem State.Taken.facts (h : s.Taken a u e) {A : Prop} (hA : A) :
    Facts (s.frames u) (s.requests u) (a.log u) A := by
  obtain ⟨g, hg, ht⟩ := h
  rw [hg]
  exact (Frame.facts_of_waits ht.waits).mpr (.inr (.inl hA))

/-- A taken request with its value stored is done once it is acknowledged. -/
theorem State.Taken.done (h : s.Taken a u e) (hf : s.frames tid = some f)
    (hframes : t.frames = Function.update s.frames tid (some { f with point := p }))
    (hp : p.waits = true) (hr : t.requests u = { s.requests u with status := .complete })
    (hv : ∀ S v, e = .pop S v → (s.requests u).value = v) (hl : b.log u = a.log u) {A : Prop} :
    Facts (t.frames u) (t.requests u) (b.log u) A := by
  obtain ⟨g, hg, ht⟩ := h
  have hdone : g.Done (t.requests u) (b.log u) e := by
    rw [hr, hl]
    exact ⟨rfl, hv, ht.log, ht.call⟩
  by_cases hu : u = tid
  · subst hu
    obtain rfl := Option.some.inj (hf.symm.trans hg)
    rw [hframes, Function.update_self]
    exact (Frame.facts_of_waits (by exact hp)).mpr (.inr (.inr ⟨e, hdone.goto⟩))
  · rw [hframes, Function.update_of_ne hu, hg]
    exact (Frame.facts_of_waits ht.waits).mpr (.inr (.inr ⟨e, hdone⟩))

@[simp] theorem Combine.visit_poppers (c : Combine n) (tid i : Fin n) :
    (c.visit tid i).poppers = c.poppers := by
  unfold visit
  split_ifs <;> rfl

theorem Scanned.visit {hi : i < n} (h : Scanned a tid c i i) :
    Scanned a tid (c.visit tid ⟨i, hi⟩) i (i + 1) := by
  refine ⟨h.served, ?_, fun S u hu => h.lt S u (by rwa [Combine.visit_poppers] at hu)⟩
  unfold Combine.visit
  split_ifs with htid
  · simp [← htid]
  · have hne : (tid : ℕ) ≠ i := fun hne => htid (Fin.ext hne.symm)
    rw [h.finished]
    omega

theorem Scanned.next (h : Scanned a tid c i (i + 1)) : Scanned a tid c (i + 1) (i + 1) :=
  ⟨h.served, h.finished, fun S u hu => Nat.lt_succ_of_lt (h.lt S u hu)⟩

theorem Combine.mem_addPopper : u ∈ (c.addPopper S v).poppers R ↔
    u ∈ c.poppers R ∨ R = S ∧ u = v := by
  unfold addPopper
  by_cases hR : R = S
  · subst hR
    simp
  · simp [hR]

theorem Scanned.addPopper {hi : i < n} (h : Scanned a tid c i (i + 1)) :
    Scanned a tid (c.addPopper S ⟨i, hi⟩) (i + 1) (i + 1) := by
  refine ⟨h.served, h.finished, fun R u hu => ?_⟩
  rcases Combine.mem_addPopper.mp hu with hu | ⟨-, rfl⟩
  · exact Nat.lt_succ_of_lt (h.lt R u hu)
  · exact Nat.lt_succ_self i

theorem Combine.nodup_addPopper (h : (c.poppers .left ++ c.poppers .right).Nodup)
    (hv : ∀ S, v ∉ c.poppers S) :
    ((c.addPopper S v).poppers .left ++ (c.addPopper S v).poppers .right).Nodup := by
  have hperm : ((c.addPopper S v).poppers .left ++ (c.addPopper S v).poppers .right).Perm
      (v :: (c.poppers .left ++ c.poppers .right)) := by
    cases S with
    | left =>
      change (c.poppers .left ++ [v] ++ c.poppers .right).Perm _
      rw [List.append_assoc]
      exact List.perm_middle
    | right =>
      change (c.poppers .left ++ (c.poppers .right ++ [v])).Perm _
      rw [← List.append_assoc]
      exact List.perm_append_singleton _ _
  refine hperm.nodup_iff.mpr (List.nodup_cons.mpr ⟨fun hm => ?_, h⟩)
  rcases List.mem_append.mp hm with hm | hm
  · exact hv .left hm
  · exact hv .right hm

theorem Combine.mem_after_self (h : (c.poppers S)[k]? = some u) : u ∈ c.after S k S := by
  have hm : u ∈ (c.poppers S).drop k := by
    apply List.mem_of_getElem? (i := 0)
    rw [List.getElem?_drop]
    exact h
  cases S <;> exact hm

theorem Combine.after_succ_subset (c : Combine n) (S R : Side) (k : ℕ) :
    c.after S (k + 1) R ⊆ c.after S k R := by
  have hdrop (l : List (Fin n)) : l.drop (k + 1) ⊆ l.drop k := by
    rw [← List.drop_drop]
    exact List.drop_subset _ _
  cases S <;> cases R
  · exact hdrop _
  · exact List.Subset.refl _
  · exact List.Subset.refl _
  · exact hdrop _

/-- The popper stage two comes to goes from the remaining to the served ones. -/
theorem Combine.after_append (h : (c.poppers S)[k]? = some u) (l : List (Fin n)) :
    l ++ c.after S k .left ++ c.after S k .right =
      (l ++ [u]) ++ c.after S (k + 1) .left ++ c.after S (k + 1) .right := by
  obtain ⟨hk, hu⟩ := List.getElem?_eq_some_iff.mp h
  have hdrop := List.drop_eq_getElem_cons hk
  rw [hu] at hdrop
  cases S with
  | left =>
    change l ++ (c.poppers .left).drop k ++ c.poppers .right = _
    rw [hdrop]
    simp [after]
  | right =>
    change l ++ [] ++ (c.poppers .right).drop k = _
    rw [hdrop]
    simp [after]

theorem Combine.after_end (h : (c.poppers S)[k]? = none) (R : Side) :
    (afterTake (T := T) c S).remaining R = c.after S k R := by
  have hk : (c.poppers S).drop k = [] := List.drop_eq_nil_of_le (List.getElem?_eq_none_iff.mp h)
  cases S <;> cases R
  · exact hk.symm
  · rfl
  · rfl
  · exact hk.symm

/-- What a combiner knows after a step that leaves the requests it still has to serve
as they were. -/
theorem Pass.step {q : Point n T} (h : Pass s a tid q) (hf : s.frames tid = some f)
    (hframes : t.frames = Function.update s.frames tid (some { f with point := p }))
    (hp : p.waits = true) (hsub : ∀ R, ∀ u ∈ p.remaining R, u ∈ q.remaining R)
    (hsame : ∀ R, ∀ u ∈ p.remaining R, t.requests u = s.requests u ∧ b.log u = a.log u)
    (hnodup : (b.served ++ p.remaining .left ++ p.remaining .right).Nodup)
    (hlocals : p.locals = q.locals ∨ ∀ c, p.locals = some c →
      (c.poppers .left ++ c.poppers .right).Nodup)
    (hpoint : AtPoint t b tid p) : Pass t b tid p := by
  refine ⟨fun R u hu => ?_, hnodup, fun c hc => ?_, hpoint⟩
  · obtain ⟨hpend, hst⟩ := h.pending R u (hsub R u hu)
    obtain ⟨hr, hl⟩ := hsame R u hu
    exact ⟨hpend.step hf hframes hp hr hl, hr ▸ hst⟩
  · rcases hlocals with hl | hl
    · exact h.poppers c (hl ▸ hc)
    · exact hl c hc

theorem not_remaining_of_served (h : (a.served ++ p.remaining .left ++ p.remaining .right).Nodup)
    (hu : u ∈ a.served) (S : Side) : u ∉ p.remaining S := by
  intro hm
  rw [List.append_assoc] at h
  have hdis := List.disjoint_of_nodup_append h hu
  cases S with
  | left => exact hdis (List.mem_append.mpr (.inl hm))
  | right => exact hdis (List.mem_append.mpr (.inr hm))

section Caller

variable (h : Inv s a) (hf : s.frames tid = some f)

include h hf

theorem inv_setValue {v : T} (hp : f.point = .setValue) (hcall : f.call = .push v) :
    Inv ((s.setValue tid v).goto tid f .setStatus) a := by
  have hfacts := h.frame_facts hf
  rw [Frame.Facts, hp] at hfacts
  obtain ⟨hst, hlog, -⟩ := hfacts
  have hself : ((s.setValue tid v).goto tid f .setStatus).requests tid =
      { s.requests tid with value := v } := Function.update_self _ _ _
  refine h.leave_goto (t := (s.setValue tid v).goto tid f .setStatus) hf (by rw [hp]; rfl) rfl rfl
    (fun u hu => Function.update_of_ne hu _ _) rfl (by simp [hp, Point.waits]) ?_
  rw [hself]
  exact ⟨hst, hlog, fun w hw => Call.push.inj (hcall.symm.trans hw)⟩

theorem inv_setStatus (hp : f.point = .setStatus) :
    Inv ((s.setStatus tid f.status).goto tid f .wait) a := by
  have hfacts := h.frame_facts hf
  rw [Frame.Facts, hp] at hfacts
  obtain ⟨-, hlog, hvalue⟩ := hfacts
  have hself : ((s.setStatus tid f.status).goto tid f .wait).requests tid =
      { s.requests tid with status := f.status } := Function.update_self _ _ _
  refine h.leave_goto (t := (s.setStatus tid f.status).goto tid f .wait) hf (by rw [hp]; rfl) rfl
    rfl (fun u hu => Function.update_of_ne hu _ _) rfl (by simp [hp, Point.waits]) ?_
  rw [hself]
  exact .inl ⟨rfl, rfl, hvalue, hlog⟩

/-- A thread that sees its request complete goes on to return. -/
theorem inv_complete (hp : f.point = .wait) (hst : (s.requests tid).status = .complete) :
    Inv (s.goto tid f (match f.call with | .push _ => .ret none | .pop => .readValue)) a := by
  obtain ⟨e, hd⟩ := h.done_of_complete hf (by rw [hp]; rfl) hst
  have hcall := hd.call
  cases hc : f.call with
  | push v =>
    rw [Frame.Matches, hc] at hcall
    exact h.leave_goto hf (by rw [hp]; rfl) rfl rfl (fun _ _ => rfl) rfl (fun _ => hst)
      ⟨e, hst, hd.log, hd.call, by rw [hcall]; rfl⟩
  | pop =>
    exact h.leave_goto hf (by rw [hp]; rfl) rfl rfl (fun _ _ => rfl) rfl (fun _ => hst)
      ⟨hc, e, hd.goto⟩

theorem inv_readValue (hp : f.point = .readValue) :
    Inv (s.goto tid f (.ret (some (s.requests tid).value))) a := by
  have hfacts := h.frame_facts hf
  rw [Frame.Facts, hp] at hfacts
  obtain ⟨hcall, e, hd⟩ := hfacts
  have hm := hd.call
  rw [Frame.Matches, hcall] at hm
  obtain ⟨v, hv⟩ := hm
  exact h.leave_goto hf (by rw [hp]; rfl) rfl rfl (fun _ _ => rfl) rfl (fun _ => hd.status)
    ⟨e, hd.status, hd.log, hd.call, by rw [hd.value _ _ hv, hv]; rfl⟩

theorem inv_ret {r : Option T} (hp : f.point = .ret r) : Inv (s.return tid) a := by
  have hfacts := h.frame_facts hf
  rw [Frame.Facts, hp] at hfacts
  obtain ⟨e, hst, -⟩ := hfacts
  have hframe : (s.return tid).frames tid = none := Function.update_self _ _ _
  refine h.leave hf (by rw [hp]; rfl) (fun g hg => ?_) (by rw [hframe]; rfl)
    (fun _ _ => rfl) rfl (fun _ => hst) ?_
  · rw [hframe] at hg
    cases hg
  · rw [hframe]
    exact hst

end Caller

section Combiner

variable (h : Inv s a) (hf : s.frames tid = some f)
include h hf

theorem inv_round (hp : f.point = .round c) :
    Inv (s.goto tid f (if c.j < maxCombiningRounds ∧ c.finished = false then .scan c 0
      else .unlock)) a := by
  have hc : f.point.combines = true := by rw [hp]; rfl
  have hpass := h.pass tid f hf hc
  have hlock := h.lock tid f hf hc
  rw [hp] at hpass
  split_ifs with hj
  · refine h.goto hf hc (by rw [hp]; rfl) rfl (fun _ => hlock) rfl rfl rfl fun _ => ?_
    rcases hpass.point with ⟨hs, rfl⟩ | hfin
    · refine ⟨fun S u hu => absurd hu List.not_mem_nil, hpass.nodup, hpass.poppers, hs, ?_, ?_⟩
      · simp [Combine.fresh]
      · exact fun S u hu => absurd hu List.not_mem_nil
    · rw [hfin] at hj
      cases hj.2
  · refine h.goto hf hc (by rw [hp]; rfl) rfl (fun _ => hlock) rfl rfl rfl fun _ => ?_
    exact ⟨fun S u hu => absurd hu List.not_mem_nil, hpass.nodup, nofun, trivial⟩

theorem inv_scan (hp : f.point = .scan c i) :
    Inv (s.goto tid f (if hi : i < n then
      afterStatus (c.visit tid ⟨i, hi⟩) ⟨i, hi⟩ (s.requests ⟨i, hi⟩).status
      else .take c .left 0)) a := by
  have hc : f.point.combines = true := by rw [hp]; rfl
  have hack : f.point.acks = none := by rw [hp]; rfl
  have hpass := h.pass tid f hf hc
  have hlock := h.lock tid f hf hc
  rw [hp] at hpass
  have hscan : Scanned a tid c i i := hpass.point
  split_ifs with hi
  · have hvisit : Scanned a tid (c.visit tid ⟨i, hi⟩) i (i + 1) := hscan.visit
    have hsame (R : Side) (u : Fin n) (hu : u ∈ (c.visit tid ⟨i, hi⟩).poppers R) :
        u ∈ c.poppers R := by rwa [Combine.visit_poppers] at hu
    have hpoppers := hpass.poppers c rfl
    rw [← Combine.visit_poppers c tid ⟨i, hi⟩] at hpoppers
    have hnodup (d : Combine n) (hd : (d.poppers .left ++ d.poppers .right).Nodup) :
        (a.served ++ d.poppers .left ++ d.poppers .right).Nodup := by
      rw [hscan.served, List.nil_append]
      exact hd
    cases hst : (s.requests ⟨i, hi⟩).status with
    | push S =>
      have hpend := h.pending_of_status hf hc hack (u := ⟨i, hi⟩) (by simp [hst])
      refine h.goto hf hc hack rfl (fun _ => hlock) rfl rfl rfl fun _ => ?_
      exact hpass.step hf rfl rfl hsame (fun _ _ _ => ⟨rfl, rfl⟩) (hnodup _ hpoppers)
        (.inr fun d hd => Option.some.inj hd ▸ hpoppers)
        ⟨hvisit, hpend.step hf rfl rfl rfl rfl, hst⟩
    | pop S =>
      have hpend := h.pending_of_status hf hc hack (u := ⟨i, hi⟩) (by simp [hst])
      have hadd := Combine.nodup_addPopper (S := S) (v := ⟨i, hi⟩) hpoppers
        fun R hm => absurd (hvisit.lt R _ hm) (lt_irrefl i)
      refine h.goto hf hc hack rfl (fun _ => hlock) rfl rfl rfl fun _ => ?_
      refine ⟨fun R u hu => ?_, hnodup _ hadd, fun d hd => Option.some.inj hd ▸ hadd,
        hvisit.addPopper⟩
      rcases Combine.mem_addPopper.mp hu with hu | ⟨rfl, rfl⟩
      · rw [Combine.visit_poppers] at hu
        obtain ⟨hup, hus⟩ := hpass.pending R u hu
        exact ⟨hup.step hf rfl rfl rfl rfl, hus⟩
      · exact ⟨hpend.step hf rfl rfl rfl rfl, hst⟩
    | complete =>
      refine h.goto hf hc hack rfl (fun _ => hlock) rfl rfl rfl fun _ => ?_
      exact hpass.step hf rfl rfl hsame (fun _ _ _ => ⟨rfl, rfl⟩) (hnodup _ hpoppers)
        (.inr fun d hd => Option.some.inj hd ▸ hpoppers) hvisit.next
  · refine h.goto hf hc hack rfl (fun _ => hlock) rfl rfl rfl fun _ => ?_
    refine hpass.step hf rfl rfl (fun R u hu => ?_) (fun _ _ _ => ⟨rfl, rfl⟩) hpass.nodup
      (.inl rfl) ?_
    · cases R <;> exact hu
    · exact hscan.finished.mpr (lt_of_lt_of_le tid.isLt (not_lt.mp hi))

theorem inv_apply {i : Fin n} (hp : f.point = .apply c i S) :
    Inv ({ s with deque := S.add (s.requests i).value s.deque }.goto tid f (.ackPush c i))
      ⟨Function.update a.log i (a.log i ++ [.push S (s.requests i).value]), a.served⟩ := by
  have hc : f.point.combines = true := by rw [hp]; rfl
  have hack : f.point.acks = none := by rw [hp]; rfl
  have hpass := h.pass tid f hf hc
  have hlock := h.lock tid f hf hc
  rw [hp] at hpass
  obtain ⟨hscan, hpend, hst⟩ := hpass.point
  generalize ht : ({ s with deque := S.add (s.requests i).value s.deque } : State n T).goto tid f
    (.ackPush c i) = t
  generalize hb : (⟨Function.update a.log i (a.log i ++ [.push S (s.requests i).value]),
    a.served⟩ : Account n T) = b
  have hframes : t.frames = Function.update s.frames tid (some { f with point := .ackPush c i }) := by
    rw [← ht]
    rfl
  have hreq : t.requests = s.requests := by
    rw [← ht]
    rfl
  have hother {u : Fin n} (hu : u ≠ i) : b.log u = a.log u := by
    rw [← hb]
    exact Function.update_of_ne hu _ _
  have hserved : b.served = a.served := by rw [← hb]
  have htaken : t.Taken b i (.push S (s.requests i).value) := by
    refine hpend.take hf hframes rfl (by rw [hreq]) ?_ fun g hg hgp => ?_
    · rw [← hb]
      exact Function.update_self _ _ _
    · obtain ⟨hside, v, hcall⟩ := Frame.call_of_status_push (hgp.status.symm.trans hst)
      rw [Frame.Matches, hcall, hgp.value v hcall, hside]
  refine h.inside hf hframes (Point.waits_of_combines hc) rfl
    (fun w g hg hcg => h.alone w tid g f hg hf hcg hc) (fun u => ?_) (fun _ => ?_) fun _ => ?_
  · by_cases hu : u = i
    · subst hu
      exact .inr (htaken.facts ⟨tid, _, by rw [hframes, Function.update_self], rfl⟩)
    · exact .inl ⟨by rw [hreq], hother hu, by simp [hack]⟩
  · rw [← ht]
    exact hlock
  · have hne {R : Side} {u : Fin n} (hu : u ∈ c.poppers R) : u ≠ i := by
      rintro rfl
      exact absurd (hscan.lt R u hu) (lt_irrefl _)
    refine hpass.step hf hframes rfl (fun _ _ hu => hu)
      (fun R u hu => ⟨by rw [hreq], hother (hne hu)⟩) (hserved ▸ hpass.nodup) (.inl rfl) ?_
    exact ⟨⟨hserved.trans hscan.served, hscan.finished, hscan.lt⟩, S, _, htaken⟩

theorem inv_ackPush {i : Fin n} (hp : f.point = .ackPush c i) :
    Inv ((s.setStatus i .complete).goto tid f (.scan c (i + 1))) a := by
  have hc : f.point.combines = true := by rw [hp]; rfl
  have hpass := h.pass tid f hf hc
  have hlock := h.lock tid f hf hc
  rw [hp] at hpass
  obtain ⟨hscan, S, v, htaken⟩ := hpass.point
  have hother {u : Fin n} (hu : u ≠ i) :
      ((s.setStatus i .complete).goto tid f (.scan c (i + 1))).requests u = s.requests u :=
    Function.update_of_ne hu _ _
  refine h.inside (t := (s.setStatus i .complete).goto tid f (.scan c (i + 1))) hf rfl
    (Point.waits_of_combines hc) rfl
    (fun w g hg hcg => h.alone w tid g f hg hf hcg hc) (fun u => ?_) (fun _ => hlock) fun _ => ?_
  · by_cases hu : u = i
    · subst hu
      refine .inr (htaken.done hf rfl rfl (Function.update_self _ _ _) (fun _ _ he => ?_) rfl)
      cases he
    · refine .inl ⟨hother hu, rfl, ?_⟩
      rw [hp]
      simpa [Point.acks] using Ne.symm hu
  · have hne {R : Side} {u : Fin n} (hu : u ∈ c.poppers R) : u ≠ i := by
      rintro rfl
      exact absurd (hscan.lt R u hu) (lt_irrefl _)
    exact hpass.step hf rfl rfl (fun _ _ hu => hu) (fun R u hu => ⟨hother (hne hu), rfl⟩)
      hpass.nodup (.inl rfl) hscan.next

theorem inv_take (hp : f.point = .take c S k) (hk : (c.poppers S)[k]? = some u) :
    Inv ({ s with deque := S.rest s.deque }.goto tid f
        (.store c S k u (popped empty S s.deque)))
      ⟨Function.update a.log u (a.log u ++ [.pop S (popped empty S s.deque)]),
        a.served ++ [u]⟩ := by
  have hc : f.point.combines = true := by rw [hp]; rfl
  have hack : f.point.acks = none := by rw [hp]; rfl
  have hpass := h.pass tid f hf hc
  have hlock := h.lock tid f hf hc
  rw [hp] at hpass
  generalize ht : ({ s with deque := S.rest s.deque } : State n T).goto tid f
    (.store c S k u (popped empty S s.deque)) = t
  generalize hb : (⟨Function.update a.log u (a.log u ++ [.pop S (popped empty S s.deque)]),
    a.served ++ [u]⟩ : Account n T) = b
  have hframes : t.frames = Function.update s.frames tid
      (some { f with point := .store c S k u (popped empty S s.deque) }) := by
    rw [← ht]
    rfl
  have hreq : t.requests = s.requests := by
    rw [← ht]
    rfl
  have hother {v : Fin n} (hv : v ≠ u) : b.log v = a.log v := by
    rw [← hb]
    exact Function.update_of_ne hv _ _
  have hserved : b.served = a.served ++ [u] := by rw [← hb]
  have hnodup : (b.served ++ c.after S (k + 1) .left ++ c.after S (k + 1) .right).Nodup := by
    rw [hserved, ← Combine.after_append hk]
    exact hpass.nodup
  have hmem : u ∈ b.served := hserved ▸ List.mem_append.mpr (.inr (List.mem_singleton.mpr rfl))
  obtain ⟨hpend, hst⟩ := hpass.pending S u (Combine.mem_after_self hk)
  have htaken : t.Taken b u (.pop S (popped empty S s.deque)) := by
    refine hpend.take hf hframes rfl (by rw [hreq]) ?_ fun g hg hgp => ?_
    · rw [← hb]
      exact Function.update_self _ _ _
    · obtain ⟨hside, hcall⟩ := Frame.call_of_status_pop (hgp.status.symm.trans hst)
      rw [Frame.Matches, hcall, hside]
      exact ⟨_, rfl⟩
  refine h.inside hf hframes (Point.waits_of_combines hc) rfl
    (fun w g hg hcg => h.alone w tid g f hg hf hcg hc) (fun v => ?_) (fun _ => ?_) fun _ => ?_
  · by_cases hv : v = u
    · subst hv
      exact .inr (htaken.facts ⟨tid, _, by rw [hframes, Function.update_self], rfl⟩)
    · exact .inl ⟨by rw [hreq], hother hv, by simp [hack]⟩
  · rw [← ht]
    exact hlock
  · refine hpass.step hf hframes rfl (fun R v hv => c.after_succ_subset S R k hv)
      (fun R v hv => ⟨by rw [hreq], hother ?_⟩) hnodup (.inl rfl) ⟨hpass.point, hmem, htaken⟩
    rintro rfl
    exact not_remaining_of_served hnodup hmem R hv

theorem inv_takeEnd (hp : f.point = .take c S k) (hk : (c.poppers S)[k]? = none) :
    Inv (s.goto tid f (afterTake c S)) a := by
  have hc : f.point.combines = true := by rw [hp]; rfl
  have hpass := h.pass tid f hf hc
  have hlock := h.lock tid f hf hc
  rw [hp] at hpass
  have hrem (R : Side) : (afterTake (T := T) c S).remaining R = c.after S k R :=
    Combine.after_end hk R
  have hwaits : (afterTake (T := T) c S).waits = true := by cases S <;> rfl
  refine h.goto hf hc (by rw [hp]; rfl) hwaits (fun _ => hlock) rfl rfl rfl fun _ => ?_
  refine hpass.step hf rfl hwaits (fun R u hu => ?_) (fun _ _ _ => ⟨rfl, rfl⟩) ?_ ?_ ?_
  · rw [hrem] at hu
    exact hu
  · rw [hrem, hrem]
    exact hpass.nodup
  · refine .inr fun d hd => ?_
    cases S <;> exact Option.some.inj hd ▸ hpass.poppers c rfl
  · cases S with
    | left => exact hpass.point
    | right => exact .inr hpass.point

theorem inv_store {value : T} (hp : f.point = .store c S k u value) :
    Inv ((s.setValue u value).goto tid f (.ackPop c S k u)) a := by
  have hc : f.point.combines = true := by rw [hp]; rfl
  have hpass := h.pass tid f hf hc
  have hlock := h.lock tid f hf hc
  rw [hp] at hpass
  obtain ⟨hfin, hserved, htaken⟩ := hpass.point
  have hother {v : Fin n} (hv : v ≠ u) :
      ((s.setValue u value).goto tid f (.ackPop c S k u)).requests v = s.requests v :=
    Function.update_of_ne hv _ _
  have hself : ((s.setValue u value).goto tid f (.ackPop c S k u)).requests u =
      { s.requests u with value } := Function.update_self _ _ _
  have htaken' : ((s.setValue u value).goto tid f (.ackPop c S k u)).Taken a u (.pop S value) :=
    htaken.step hf rfl rfl (by rw [hself]) rfl
  refine h.inside (t := (s.setValue u value).goto tid f (.ackPop c S k u)) hf rfl
    (Point.waits_of_combines hc) rfl
    (fun w g hg hcg => h.alone w tid g f hg hf hcg hc) (fun v => ?_) (fun _ => hlock) fun _ => ?_
  · by_cases hv : v = u
    · subst hv
      exact .inr (htaken'.facts ⟨tid, _, Function.update_self _ _ _, rfl⟩)
    · refine .inl ⟨hother hv, rfl, ?_⟩
      rw [hp]
      simpa [Point.acks] using Ne.symm hv
  · refine hpass.step hf rfl rfl (fun _ _ hv => hv) (fun R v hv => ⟨hother ?_, rfl⟩) hpass.nodup
      (.inl rfl) ⟨hfin, hserved, ?_⟩
    · rintro rfl
      exact not_remaining_of_served hpass.nodup hserved R hv
    · rw [hself]
      exact htaken'

theorem inv_ackPop (hp : f.point = .ackPop c S k u) :
    Inv ((s.setStatus u .complete).goto tid f (.take c S (k + 1))) a := by
  have hc : f.point.combines = true := by rw [hp]; rfl
  have hpass := h.pass tid f hf hc
  have hlock := h.lock tid f hf hc
  rw [hp] at hpass
  obtain ⟨hfin, hserved, htaken⟩ := hpass.point
  have hother {v : Fin n} (hv : v ≠ u) :
      ((s.setStatus u .complete).goto tid f (.take c S (k + 1))).requests v = s.requests v :=
    Function.update_of_ne hv _ _
  refine h.inside (t := (s.setStatus u .complete).goto tid f (.take c S (k + 1))) hf rfl
    (Point.waits_of_combines hc) rfl
    (fun w g hg hcg => h.alone w tid g f hg hf hcg hc) (fun v => ?_) (fun _ => hlock) fun _ => ?_
  · by_cases hv : v = u
    · subst hv
      refine .inr (htaken.done hf rfl rfl (Function.update_self _ _ _) (fun _ _ he => ?_) rfl)
      exact (Applied.pop.inj he).2
    · refine .inl ⟨hother hv, rfl, ?_⟩
      rw [hp]
      simpa [Point.acks] using Ne.symm hv
  · refine hpass.step hf rfl rfl (fun _ _ hv => hv) (fun R v hv => ⟨hother ?_, rfl⟩) hpass.nodup
      (.inl rfl) hfin
    rintro rfl
    exact not_remaining_of_served hpass.nodup hserved R hv

theorem inv_unlock (hp : f.point = .unlock) : Inv ({ s with lock := false }.goto tid f .wait) a := by
  have hc : f.point.combines = true := by rw [hp]; rfl
  have hwait (hq : (Point.wait : Point n T).combines = true) : False := by cases hq
  exact h.goto hf hc (by rw [hp]; rfl) rfl (fun hq => (hwait hq).elim) rfl rfl rfl
    fun hq => (hwait hq).elim

/-- Whoever takes the lock finds nobody else in `doCombining`. -/
theorem inv_tryLock (hp : f.point = .tryLock) (hl : s.lock = false) :
    Inv ({ s with lock := true }.goto tid f (.round .fresh)) { a with served := [] } := by
  have halone (w : Fin n) (g : Frame n T) (hg : s.frames w = some g)
      (hcg : g.point.combines = true) : w = tid := by
    have := h.lock w g hg hcg
    rw [hl] at this
    cases this
  refine h.inside hf rfl (by rw [hp]; rfl) rfl halone (fun u => .inl ⟨rfl, rfl, ?_⟩)
    (fun _ => rfl) fun _ => ?_
  · simp [hp, Point.acks]
  · refine ⟨fun S u hu => absurd hu List.not_mem_nil, List.nodup_nil, fun c hc => ?_,
      .inl ⟨rfl, rfl⟩⟩
    obtain rfl := Option.some.inj hc
    exact List.nodup_nil

end Combiner

/-- Every step of a call keeps the invariants. -/
theorem inv_frameStep (h : Inv s a) (hf : s.frames tid = some f)
    (hs : frameStep empty s tid f = some t) : Inv t (note empty (tid, S, x) s t a) := by
  have happ := @applied_of_frame _ _ empty _ _ _ hf
  unfold frameStep at hs
  cases hp : f.point with
  | setValue =>
    rw [hp] at happ hs
    rw [note_some hf happ (by simp [hp])]
    cases hcall : f.call with
    | push v =>
      rw [hcall] at hs
      obtain rfl := Option.some.inj hs
      exact inv_setValue h hf hp hcall
    | pop =>
      rw [hcall] at hs
      cases hs
  | setStatus =>
    rw [hp] at happ hs
    rw [note_some hf happ (by simp [hp])]
    obtain rfl := Option.some.inj hs
    exact inv_setStatus h hf hp
  | wait =>
    rw [hp] at happ hs
    rw [note_some hf happ (by simp [hp])]
    dsimp only at hs
    split_ifs at hs with hst
    · have hcomplete := inv_complete h hf hp hst
      cases hc : f.call with
      | push v =>
        rw [hc] at hs hcomplete
        obtain rfl := Option.some.inj hs
        exact hcomplete
      | pop =>
        rw [hc] at hs hcomplete
        obtain rfl := Option.some.inj hs
        exact hcomplete
    · obtain rfl := Option.some.inj hs
      exact h.wait hf (by rw [hp]; rfl) (by rw [hp]; rfl) rfl rfl
  | isLocked =>
    rw [hp] at happ hs
    rw [note_some hf happ (by simp [hp])]
    obtain rfl := Option.some.inj hs
    have hw : f.point.waits = true := by rw [hp]; rfl
    split_ifs with hl
    · exact h.wait hf hw (by rw [hp]; rfl) rfl rfl
    · exact h.wait hf hw (by rw [hp]; rfl) rfl rfl
  | tryLock =>
    rw [hp] at happ hs
    obtain rfl := Option.some.inj hs
    cases hl : s.lock with
    | true =>
      have hsame : ({ s with lock := true } : State n T) = s := by
        rw [← hl]
      rw [note_some hf happ fun _ => hl, if_pos rfl, hsame]
      exact h.wait hf (by rw [hp]; rfl) (by rw [hp]; rfl) rfl rfl
    | false =>
      simp only [note, happ, hf, hp, hl]
      exact inv_tryLock h hf hp hl
  | unlock =>
    rw [hp] at happ hs
    rw [note_some hf happ (by simp [hp])]
    obtain rfl := Option.some.inj hs
    exact inv_unlock h hf hp
  | readValue =>
    rw [hp] at happ hs
    rw [note_some hf happ (by simp [hp])]
    obtain rfl := Option.some.inj hs
    exact inv_readValue h hf hp
  | ret r =>
    rw [hp] at happ hs
    rw [note_some hf happ (by simp [hp])]
    obtain rfl := Option.some.inj hs
    exact inv_ret h hf hp
  | round c =>
    rw [hp] at happ hs
    rw [note_some hf happ (by simp [hp])]
    obtain rfl := Option.some.inj hs
    exact inv_round h hf hp
  | scan c i =>
    rw [hp] at happ hs
    rw [note_some hf happ (by simp [hp])]
    obtain rfl := Option.some.inj hs
    exact inv_scan h hf hp
  | apply c i S =>
    rw [hp] at happ hs
    obtain rfl := Option.some.inj hs
    simp only [note, happ]
    exact inv_apply h hf hp
  | ackPush c i =>
    rw [hp] at happ hs
    rw [note_some hf happ (by simp [hp])]
    obtain rfl := Option.some.inj hs
    exact inv_ackPush h hf hp
  | take c S k =>
    rw [hp] at happ hs
    dsimp only at happ hs
    cases hk : (c.poppers S)[k]? with
    | none =>
      rw [hk] at happ hs
      rw [note_some hf happ (by simp [hp])]
      obtain rfl := Option.some.inj hs
      exact inv_takeEnd h hf hp hk
    | some u =>
      rw [hk] at happ hs
      obtain rfl := Option.some.inj hs
      simp only [note, happ, Option.map_some]
      exact inv_take h hf hp hk
  | store c S k u v =>
    rw [hp] at happ hs
    rw [note_some hf happ (by simp [hp])]
    obtain rfl := Option.some.inj hs
    exact inv_store h hf hp
  | ackPop c S k u =>
    rw [hp] at happ hs
    rw [note_some hf happ (by simp [hp])]
    obtain rfl := Option.some.inj hs
    exact inv_ackPop h hf hp

theorem run_inv {u : State n T × Account n T} (h : (logged n empty).Reachable u) :
    Inv u.1 u.2 := by
  apply h.invariant
  · rintro ⟨s, a⟩ ⟨hs, rfl⟩
    exact inv_init hs
  · rintro ⟨tid, S, x⟩ ⟨s, a⟩ ⟨t, b⟩ _ hi _ hs
    obtain ⟨hstep, hb⟩ := Machine.account_step.mp hs
    change step empty (tid, S, x) s = some t at hstep
    change Inv t b
    change b = note empty (tid, S, x) s t a at hb
    rw [hb]
    simp only [step] at hstep
    cases hf : s.frames tid with
    | none =>
      rw [hf] at hstep
      obtain rfl := Option.some.inj hstep
      rw [note_none hf]
      exact Inv.call hi hf
    | some f =>
      rw [hf] at hstep
      exact inv_frameStep hi hf hstep

end UnboundedDeque.FCDeque
