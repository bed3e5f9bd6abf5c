import UnboundedDeque.FCDequeMachine

/-!
# Invariants of the flat-combining deque

A published request is pending until a combiner applies it, then about to be
acknowledged, and done afterwards. Poppers a combiner has collected stay pending until
it comes to them.
-/
namespace UnboundedDeque.FCDeque
open StepMachine

variable {n : ℕ} {T : Type*} {empty : T} {s t : State n T} {a b : Account n T}
  {tid u v w : Fin n} {S R : Side} {f g : Frame n T} {p : Point n T} {c : Combine n} {e : Applied T}
  {l : List (Applied T)} {r : Request T} {A A' : Prop} {o : Option (Frame n T)}

/-- The call has published its request and has not seen it completed. -/
def Point.waits : Point n T → Bool
  | .setValue | .setStatus | .readValue | .ret _ => false
  | _ => true

/-- The thread holds the lock. -/
def Point.combines : Point n T → Bool
  | .setValue | .setStatus | .readValue | .ret _ | .wait | .isLocked | .tryLock => false
  | _ => true

/-- The request a combiner has applied and not acknowledged. -/
def Point.acks : Point n T → Option (Fin n)
  | .ackPush _ i => some i
  | .store _ _ _ u _ | .ackPop _ _ _ u => some u
  | _ => none

/-- The locals of a thread in `doCombining`. -/
def Point.locals : Point n T → Option (Combine n)
  | .round c | .scan c _ | .apply c _ _ | .ackPush c _ | .take c _ _ | .store c _ _ _ _
  | .ackPop c _ _ _ => some c
  | _ => none

/-- The poppers that stage two has not come to, from index `k` of a side on. -/
def Combine.after (c : Combine n) (R : Side) (k : ℕ) : Side → List (Fin n)
  | .left => if R = .left then (c.poppers .left).drop k else []
  | .right => if R = .left then c.poppers .right else (c.poppers .right).drop k

/-- The poppers a combiner has collected and not served. -/
def Point.remaining : Point n T → Side → List (Fin n)
  | .scan c _ | .apply c _ _ | .ackPush c _ => c.poppers
  | .take c R k => c.after R k
  | .store c R k _ _ | .ackPop c R k _ => c.after R (k + 1)
  | _ => fun _ => []

/-- What a combiner may do for a call. -/
def Frame.Matches (f : Frame n T) (e : Applied T) : Prop :=
  match f.call with
  | .push v => e = .push f.side v
  | .pop => ∃ v, e = .pop f.side v

/-- What a call returns. -/
def Applied.result : Applied T → Option T
  | .push _ _ => none
  | .pop _ v => some v

/-- The request is published and not applied. -/
structure Frame.Pending (f : Frame n T) (r : Request T) (l : List (Applied T)) : Prop where
  waits : f.point.waits = true
  status : r.status = f.status
  value : ∀ v, f.call = .push v → r.value = v
  log : l = []

/-- The request is applied and not acknowledged. -/
structure Frame.Taken (f : Frame n T) (r : Request T) (l : List (Applied T)) (e : Applied T) :
    Prop where
  waits : f.point.waits = true
  status : r.status = f.status
  log : l = [e]
  call : f.Matches e

/-- The request is applied and acknowledged. -/
structure Frame.Done (f : Frame n T) (r : Request T) (l : List (Applied T)) (e : Applied T) :
    Prop where
  status : r.status = .complete
  value : ∀ S v, e = .pop S v → r.value = v
  log : l = [e]
  call : f.Matches e

/-- What holds of a call with its request and the applications of it; `A` tells that a
combiner is about to acknowledge the request. -/
def Frame.Facts (f : Frame n T) (r : Request T) (l : List (Applied T)) (A : Prop) : Prop :=
  match f.point with
  | .setValue => r.status = .complete ∧ l = [] ∧ ∃ v, f.call = .push v
  | .setStatus => r.status = .complete ∧ l = [] ∧ ∀ v, f.call = .push v → r.value = v
  | .readValue => f.call = .pop ∧ ∃ e, f.Done r l e
  | .ret x => ∃ e, r.status = .complete ∧ l = [e] ∧ f.Matches e ∧ x = e.result
  | _ => f.Pending r l ∨ A ∨ ∃ e, f.Done r l e

def Facts (o : Option (Frame n T)) (r : Request T) (l : List (Applied T)) (A : Prop) : Prop :=
  match o with
  | none => r.status = .complete
  | some f => f.Facts r l A

/-- Some combiner is about to acknowledge the request. -/
def State.Acked (s : State n T) (u : Fin n) : Prop :=
  ∃ w f, s.frames w = some f ∧ f.point.acks = some u

def State.Pending (s : State n T) (a : Account n T) (u : Fin n) : Prop :=
  ∃ f, s.frames u = some f ∧ f.Pending (s.requests u) (a.log u)

def State.Taken (s : State n T) (a : Account n T) (u : Fin n) (e : Applied T) : Prop :=
  ∃ f, s.frames u = some f ∧ f.Taken (s.requests u) (a.log u) e

/-- The collection of poppers has come to a thread: `finished` tells whether the
combiner has seen its own request. -/
structure Scanned (a : Account n T) (tid : Fin n) (c : Combine n) (i last : ℕ) : Prop where
  served : a.served = []
  finished : c.finished = true ↔ (tid : ℕ) < last
  lt : ∀ S, ∀ u ∈ c.poppers S, (u : ℕ) < i

/-- What holds at a point of `doCombining`. -/
def AtPoint (s : State n T) (a : Account n T) (tid : Fin n) : Point n T → Prop
  | .round c => a.served = [] ∧ c = .fresh ∨ c.finished = true
  | .scan c i => Scanned a tid c i i
  | .apply c i S =>
    Scanned a tid c i (i + 1) ∧ s.Pending a i ∧ (s.requests i).status = .push S
  | .ackPush c i => Scanned a tid c i (i + 1) ∧ ∃ S v, s.Taken a i (.push S v)
  | .take c _ _ => c.finished = true
  | .store c S _ u v => c.finished = true ∧ u ∈ a.served ∧ s.Taken a u (.pop S v)
  | .ackPop c S _ u =>
    c.finished = true ∧ u ∈ a.served ∧ s.Taken a u (.pop S (s.requests u).value)
  | _ => True

/-- What holds of a combiner. -/
structure Pass (s : State n T) (a : Account n T) (tid : Fin n) (p : Point n T) : Prop where
  pending : ∀ S, ∀ u ∈ p.remaining S, s.Pending a u ∧ (s.requests u).status = .pop S
  nodup : (a.served ++ p.remaining .left ++ p.remaining .right).Nodup
  poppers : ∀ c, p.locals = some c → (c.poppers .left ++ c.poppers .right).Nodup
  point : AtPoint s a tid p

structure Inv (s : State n T) (a : Account n T) : Prop where
  facts : ∀ u, Facts (s.frames u) (s.requests u) (a.log u) (s.Acked u)
  lock : ∀ w f, s.frames w = some f → f.point.combines → s.lock = true
  alone : ∀ v w f g, s.frames v = some f → s.frames w = some g → f.point.combines →
    g.point.combines → v = w
  pass : ∀ w f, s.frames w = some f → f.point.combines → Pass s a w f.point

/-- The facts about a thread inside a call. -/
theorem Inv.frame_facts {s : State n T} {a : Account n T} (h : Inv s a)
    (hf : s.frames u = some f) : f.Facts (s.requests u) (a.log u) (s.Acked u) := by
  have hfacts := h.facts u
  rw [hf] at hfacts
  exact hfacts

theorem Point.combines_of_acks (h : p.acks = some u) : p.combines = true := by
  cases p <;> first | rfl | cases h

theorem Point.waits_of_combines (h : p.combines = true) : p.waits = true := by
  cases p <;> first | rfl | cases h

theorem Frame.status_ne_complete (f : Frame n T) : f.status ≠ .complete := by
  unfold status
  cases f.call <;> simp

theorem Frame.call_of_status_push (h : f.status = .push S) : f.side = S ∧ ∃ v, f.call = .push v := by
  unfold status at h
  cases hc : f.call with
  | push v =>
    rw [hc] at h
    exact ⟨Status.push.inj h, v, rfl⟩
  | pop =>
    rw [hc] at h
    cases h

theorem Frame.call_of_status_pop (h : f.status = .pop S) : f.side = S ∧ f.call = .pop := by
  unfold status at h
  cases hc : f.call with
  | push v =>
    rw [hc] at h
    cases h
  | pop =>
    rw [hc] at h
    exact ⟨Status.pop.inj h, rfl⟩

theorem Frame.facts_of_waits (h : f.point.waits = true) :
    f.Facts r l A ↔ f.Pending r l ∨ A ∨ ∃ e, f.Done r l e := by
  unfold Frame.Facts
  cases hp : f.point with
  | setValue | setStatus | readValue | ret =>
    rw [hp] at h
    cases h
  | _ => rfl

theorem Frame.Pending.goto (h : f.Pending r l) (hp : p.waits = true) :
    { f with point := p }.Pending r l :=
  ⟨hp, h.status, h.value, h.log⟩

theorem Frame.Taken.goto (h : f.Taken r l e) (hp : p.waits = true) :
    { f with point := p }.Taken r l e :=
  ⟨hp, h.status, h.log, h.call⟩

theorem Frame.Done.goto (h : f.Done r l e) : { f with point := p }.Done r l e :=
  ⟨h.status, h.value, h.log, h.call⟩

theorem Frame.Facts.goto (h : f.Facts r l A) (hf : f.point.waits = true) (hp : p.waits = true)
    (hA : A → A') : { f with point := p }.Facts r l A' := by
  rw [Frame.facts_of_waits hf] at h
  rw [Frame.facts_of_waits (by exact hp)]
  rcases h with h | h | ⟨e, h⟩
  · exact .inl (h.goto hp)
  · exact .inr (.inl (hA h))
  · exact .inr (.inr ⟨e, h.goto⟩)

theorem Facts.mono (h : Facts o r l A) (hA : A → A') : Facts o r l A' := by
  cases o with
  | none => exact h
  | some f =>
    cases hf : f.point.waits with
    | true => exact Frame.Facts.goto (p := f.point) h hf hf hA
    | false =>
      change f.Facts r l A at h
      change f.Facts r l A'
      unfold Frame.Facts at h ⊢
      cases hp : f.point with
      | setValue | setStatus | readValue | ret =>
        rw [hp] at h
        exact h
      | _ =>
        rw [hp] at hf
        cases hf

theorem inv_init (h : Init empty s) : Inv s ⟨fun _ => [], []⟩ := by
  have hidle (u : Fin n) (f : Frame n T) (hf : s.frames u = some f) : False := by
    rw [h.frames u] at hf
    cases hf
  constructor
  · intro u
    rw [h.frames, h.requests]
    rfl
  · exact fun w f hf => (hidle w f hf).elim
  · exact fun v w f g hf => (hidle v f hf).elim
  · exact fun w f hf => (hidle w f hf).elim

/-- What a combiner relies on, kept by a step that keeps what it has to do and has done. -/
theorem Pass.mono {w : Fin n} (hp : Pass s a w p) (hserved : b.served = a.served)
    (hpending : ∀ {u}, s.Pending a u →
      t.Pending b u ∧ (t.requests u).status = (s.requests u).status)
    (htaken : ∀ {u e}, s.Taken a u e → t.Taken b u e ∧ t.requests u = s.requests u) :
    Pass t b w p := by
  have hscanned {c : Combine n} {i last : ℕ} (hs : Scanned a w c i last) :
      Scanned b w c i last := ⟨hserved.trans hs.served, hs.finished, hs.lt⟩
  refine ⟨fun S u hu => ?_, by rw [hserved]; exact hp.nodup, hp.poppers, ?_⟩
  · obtain ⟨hu, hs⟩ := hp.pending S u hu
    exact ⟨(hpending hu).1, (hpending hu).2.trans hs⟩
  · have hpoint := hp.point
    cases p with
    | round c => exact hpoint.imp_left fun h => ⟨hserved.trans h.1, h.2⟩
    | scan c i => exact hscanned hpoint
    | apply c i S =>
      obtain ⟨hs, hi, hst⟩ := hpoint
      exact ⟨hscanned hs, (hpending hi).1, (hpending hi).2.trans hst⟩
    | ackPush c i =>
      obtain ⟨hs, S, v, hi⟩ := hpoint
      exact ⟨hscanned hs, S, v, (htaken hi).1⟩
    | take c S k => exact hpoint
    | store c S k u v =>
      obtain ⟨hfin, hu, ht⟩ := hpoint
      exact ⟨hfin, hserved ▸ hu, (htaken ht).1⟩
    | ackPop c S k u =>
      obtain ⟨hfin, hu, ht⟩ := hpoint
      exact ⟨hfin, hserved ▸ hu, (htaken ht).2 ▸ (htaken ht).1⟩
    | _ => trivial

/-- A step of a thread that does not hold the lock before or after it. -/
theorem Inv.outside (h : Inv s a) (hframes : t.frames = Function.update s.frames tid o)
    (hrequests : ∀ u ≠ tid, t.requests u = s.requests u) (hlog : ∀ u ≠ tid, b.log u = a.log u)
    (hserved : b.served = a.served) (hlock : s.lock = true → t.lock = true)
    (hfrom : ∀ f, s.frames tid = some f → f.point.combines = false)
    (hto : ∀ f, o = some f → f.point.combines = false)
    (hfacts : Facts o (t.requests tid) (b.log tid) (s.Acked tid))
    (hkeep : ∀ f, s.frames tid = some f → f.point.waits = true →
      (s.requests tid).status = f.status → t.requests tid = s.requests tid ∧
        b.log tid = a.log tid ∧ ∃ p, p.waits = true ∧ o = some { f with point := p }) : Inv t b := by
  have hother {u : Fin n} (hu : u ≠ tid) : t.frames u = s.frames u := by
    rw [hframes, Function.update_of_ne hu]
  have hself : t.frames tid = o := by rw [hframes, Function.update_self]
  have hold {w : Fin n} {f : Frame n T} (hf : t.frames w = some f) (hc : f.point.combines = true) :
      w ≠ tid ∧ s.frames w = some f := by
    have hw : w ≠ tid := by
      rintro rfl
      rw [hto f (hself.symm.trans hf)] at hc
      cases hc
    exact ⟨hw, (hother hw).symm.trans hf⟩
  have hacked {u : Fin n} (hu : s.Acked u) : t.Acked u := by
    obtain ⟨w, f, hf, ha⟩ := hu
    refine ⟨w, f, ?_, ha⟩
    rw [hother, hf]
    rintro rfl
    have hc := Point.combines_of_acks ha
    rw [hfrom f hf] at hc
    cases hc
  have hpending {u : Fin n} (hu : s.Pending a u) :
      t.Pending b u ∧ (t.requests u).status = (s.requests u).status := by
    obtain ⟨f, hf, hp⟩ := hu
    by_cases hut : u = tid
    · subst hut
      obtain ⟨hr, hl, p, hpw, ho⟩ := hkeep f hf hp.waits hp.status
      exact ⟨⟨_, hself.trans ho, by rw [hr, hl]; exact hp.goto hpw⟩, by rw [hr]⟩
    · refine ⟨⟨f, (hother hut).trans hf, ?_⟩, by rw [hrequests u hut]⟩
      rw [hrequests u hut, hlog u hut]
      exact hp
  have htaken {u : Fin n} {e : Applied T} (hu : s.Taken a u e) :
      t.Taken b u e ∧ t.requests u = s.requests u := by
    obtain ⟨f, hf, hp⟩ := hu
    by_cases hut : u = tid
    · subst hut
      obtain ⟨hr, hl, p, hpw, ho⟩ := hkeep f hf hp.waits hp.status
      exact ⟨⟨_, hself.trans ho, by rw [hr, hl]; exact hp.goto hpw⟩, hr⟩
    · refine ⟨⟨f, (hother hut).trans hf, ?_⟩, hrequests u hut⟩
      rw [hrequests u hut, hlog u hut]
      exact hp
  constructor
  · intro u
    by_cases hu : u = tid
    · subst hu
      rw [hself]
      exact hfacts.mono hacked
    · rw [hother hu, hrequests u hu, hlog u hu]
      exact (h.facts u).mono hacked
  · intro w f hf hc
    exact hlock (h.lock w f (hold hf hc).2 hc)
  · intro v w f g hf hg hcf hcg
    exact h.alone v w f g (hold hf hcf).2 (hold hg hcg).2 hcf hcg
  · intro w f hf hc
    exact (h.pass w f (hold hf hc).2 hc).mono hserved hpending htaken

/-- A step of a thread that holds the lock, or takes it while nobody has it. -/
theorem Inv.inside (h : Inv s a) (hf : s.frames tid = some f)
    (hframes : t.frames = Function.update s.frames tid (some { f with point := p }))
    (hfrom : f.point.waits = true) (hto : p.waits = true)
    (halone : ∀ w g, s.frames w = some g → g.point.combines → w = tid)
    (hfacts : ∀ u, (t.requests u = s.requests u ∧ b.log u = a.log u ∧ f.point.acks ≠ some u) ∨
      Facts (t.frames u) (t.requests u) (b.log u) (t.Acked u))
    (hlock : p.combines = true → t.lock = true) (hpass : p.combines = true → Pass t b tid p) :
    Inv t b := by
  have hother {u : Fin n} (hu : u ≠ tid) : t.frames u = s.frames u := by
    rw [hframes, Function.update_of_ne hu]
  have hself : t.frames tid = some { f with point := p } := by
    rw [hframes, Function.update_self]
  have honly {w : Fin n} {g : Frame n T} (hg : t.frames w = some g) (hc : g.point.combines = true) :
      w = tid ∧ g = { f with point := p } := by
    have hw : w = tid := by
      by_contra hw
      exact hw (halone w g ((hother hw).symm.trans hg) hc)
    subst hw
    exact ⟨rfl, (Option.some.inj (hself.symm.trans hg)).symm⟩
  constructor
  · intro u
    rcases hfacts u with ⟨hr, hl, ha⟩ | hu
    · have hacked (hu : s.Acked u) : t.Acked u := by
        obtain ⟨w, g, hg, hgu⟩ := hu
        obtain rfl := halone w g hg (Point.combines_of_acks hgu)
        obtain rfl := Option.some.inj (hf.symm.trans hg)
        exact absurd hgu ha
      have hu := h.facts u
      rw [hr, hl]
      by_cases hut : u = tid
      · subst hut
        rw [hf] at hu
        rw [hself]
        exact Frame.Facts.goto hu hfrom hto hacked
      · rw [hother hut]
        exact hu.mono hacked
    · exact hu
  · intro w g hg hc
    obtain ⟨rfl, rfl⟩ := honly hg hc
    exact hlock hc
  · intro v w g g' hg hg' hc hc'
    rw [(honly hg hc).1, (honly hg' hc').1]
  · intro w g hg hc
    obtain ⟨rfl, rfl⟩ := honly hg hc
    exact hpass hc

end UnboundedDeque.FCDeque
