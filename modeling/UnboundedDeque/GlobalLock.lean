import UnboundedDeque.Linearizability
import UnboundedDeque.SoloRun

/-!
# Objects behind one lock

Threads call operations of an object that keeps its data behind one lock word. A lock is
taken by an atomic exchange of the word; what a call does while it holds the lock goes step
by step, with the data open to interference. If what a call does alone is right, the lock
makes the object linearizable, and no call gets stuck inside.
-/
namespace GlobalLock
open StepMachine Linearizability

variable {τ W O L D R : Type*}

/-- A lock word. `set` is what an exchange of the word by a thread leaves; a thread that
fails to take the lock reads the word until it is free before the next try, or tries again
right away. -/
structure Lock (τ W : Type*) where
  free : W
  set : τ → W → W
  spins : Bool
  set_ne : ∀ p, set p free ≠ free
  keep : ∀ p w, w ≠ free → set p w = w

/-- What calls do while they hold the lock. A step reads the lock word and the data; it may
change the data, and it goes on or has the result of the call. A step that must not be
taken is `none`. -/
structure Body (τ W O L D R : Type*) where
  enter : O → L
  step : τ → W → L → D → Option (D × (L ⊕ R))

inductive Point (L R : Type*)
  | acquire
  | spin
  | inside (l : L)
  | release (r : R)
  | ret (r : R)
  deriving DecidableEq

structure Frame (O L R : Type*) where
  op : O
  point : Point L R
  deriving DecidableEq

structure State (τ W O L D R : Type*) where
  word : W
  data : D
  frames : τ → Option (Frame O L R)

variable [DecidableEq τ] [DecidableEq W]

/-- One step of a call: the word, the data and the next point, `none` at the return. -/
def next (lock : Lock τ W) (body : Body τ W O L D R) (p : τ) (f : Frame O L R) (w : W) (d : D) :
    Option (W × D × Option (Point L R)) :=
  match f.point with
  | .acquire =>
    some (lock.set p w, d, some (if w = lock.free then .inside (body.enter f.op)
      else if lock.spins then .spin else .acquire))
  | .spin => some (w, d, some (if w = lock.free then .acquire else .spin))
  | .inside l => (body.step p w l d).map fun x =>
    (w, x.1, some (match x.2 with
      | .inl l' => .inside l'
      | .inr r => .release r))
  | .release r => some (lock.free, d, some (.ret r))
  | .ret _ => some (w, d, none)

/-- One step of a thread; an idle thread makes the call of the label. -/
def step (lock : Lock τ W) (body : Body τ W O L D R) (x : τ × O) (s : State τ W O L D R) :
    Option (State τ W O L D R) :=
  match s.frames x.1 with
  | none => some { s with frames := Function.update s.frames x.1 (some ⟨x.2, .acquire⟩) }
  | some f => (next lock body x.1 f s.word s.data).map fun y =>
    ⟨y.1, y.2.1, Function.update s.frames x.1 (y.2.2.map fun pt => ⟨f.op, pt⟩)⟩

structure Init (lock : Lock τ W) (start : D) (s : State τ W O L D R) : Prop where
  word : s.word = lock.free
  data : s.data = start
  frames : ∀ p, s.frames p = none

def machine (lock : Lock τ W) (body : Body τ W O L D R) (start : D) :
    Machine (τ × O) (State τ W O L D R) where
  init := Init lock start
  step := step lock body

/-- The call or the return that a step of a thread makes. -/
def event (x : τ × O) (s t : State τ W O L D R) : Option (Event τ O R) :=
  match s.frames x.1, t.frames x.1 with
  | none, some f => some (.call x.1 f.op)
  | some f, none =>
    match f.point with
    | .ret r => some (.ret x.1 r)
    | _ => none
  | _, _ => none

def Point.holds : Point L R → Bool
  | .inside _ | .release _ => true
  | _ => false

/-- The thread is in a call and holds the lock. -/
def State.Holds (s : State τ W O L D R) (p : τ) : Prop :=
  ∃ f, s.frames p = some f ∧ f.point.holds = true

/-- The phase of a thread by its frame. -/
def framePhase : Option (Frame O L R) → Phase O R
  | none => .idle
  | some ⟨o, .release r⟩ | some ⟨o, .ret r⟩ => .done o r
  | some f => .pending f.op

def phase (s : State τ W O L D R) (p : τ) : Phase O R := framePhase (s.frames p)

/-- The steps of a call from a point inside, taken alone, end with a result and data. -/
inductive Body.Ends (body : Body τ W O L D R) (p : τ) (w : W) : L → D → R × D → Prop
  | last {l : L} {d d' : D} {r : R} (move : body.step p w l d = some (d', .inr r)) :
      body.Ends p w l d (r, d')
  | more {l l' : L} {d d' : D} {x : R × D} (move : body.step p w l d = some (d', .inl l'))
      (rest : body.Ends p w l' d' x) : body.Ends p w l d x

/-- Calls taken alone do what the object does. -/
def Correct (lock : Lock τ W) (body : Body τ W O L D R) (obj : Object O R D) : Prop :=
  ∀ p o d, body.Ends p (lock.set p lock.free) (body.enter o) d (obj.apply o d)

/-- At most one thread holds the lock, and the word tells it. A thread inside is on its way
to what the object does to the state `a`; if none is, the data is the state. -/
structure Inv (lock : Lock τ W) (body : Body τ W O L D R) (obj : Object O R D)
    (s : State τ W O L D R) (a : D) : Prop where
  alone : ∀ p q f g, s.frames p = some f → s.frames q = some g → f.point.holds → g.point.holds →
    p = q
  held : ∀ p f, s.frames p = some f → f.point.holds → s.word = lock.set p lock.free
  free : (∀ p f, s.frames p = some f → f.point.holds = false) → s.word = lock.free
  inside : ∀ p o l, s.frames p = some ⟨o, .inside l⟩ →
    body.Ends p (lock.set p lock.free) l s.data (obj.apply o a)
  outside : (∀ p o l, s.frames p ≠ some ⟨o, .inside l⟩) → s.data = a

section Steps

variable {lock : Lock τ W} {body : Body τ W O L D R} {obj : Object O R D} {start a : D}
  {s t : State τ W O L D R} {p q : τ} {f g : Frame O L R} {o : O} {l : L} {r : R} {d d' : D} {w : W}
  {pt : Point L R}

omit [DecidableEq τ] [DecidableEq W] in
theorem Body.Ends.move {x : R × D} (h : body.Ends p w l d x) :
    (∃ l' d', body.step p w l d = some (d', .inl l') ∧ body.Ends p w l' d' x) ∨
      ∃ r d', body.step p w l d = some (d', .inr r) ∧ x = (r, d') := by
  cases h with
  | last move => exact .inr ⟨_, _, move, rfl⟩
  | more move rest => exact .inl ⟨_, _, move, rest⟩

section Frames

omit [DecidableEq W]

/-- The frames after a step of a thread. -/
theorem frame_update {g : Option (Frame O L R)} (hf : Function.update s.frames p g q = some f) :
    q = p ∧ g = some f ∨ q ≠ p ∧ s.frames q = some f := by
  by_cases hq : q = p
  · subst hq
    rw [Function.update_self] at hf
    exact .inl ⟨rfl, hf⟩
  · rw [Function.update_of_ne hq] at hf
    exact .inr ⟨hq, hf⟩

/-- A thread that does not hold the lock goes to another point without it. -/
theorem Inv.goto (h : Inv lock body obj s a) {g : Option (Frame O L R)}
    (hfrom : ∀ f, s.frames p = some f → f.point.holds = false)
    (hto : ∀ f, g = some f → f.point.holds = false) :
    Inv lock body obj { s with frames := Function.update s.frames p g } a := by
  have hold {q : τ} {f : Frame O L R} (hf : Function.update s.frames p g q = some f)
      (hh : f.point.holds = true) : s.frames q = some f := by
    rcases frame_update hf with ⟨-, hg⟩ | ⟨-, hs⟩
    · rw [hto f hg] at hh
      cases hh
    · exact hs
  constructor
  · intro q r f f' hf hf' hh hh'
    exact h.alone q r f f' (hold hf hh) (hold hf' hh') hh hh'
  · intro q f hf hh
    exact h.held q f (hold hf hh) hh
  · intro hnone
    refine h.free fun q f hf => ?_
    by_cases hq : q = p
    · subst hq
      exact hfrom f hf
    · exact hnone q f ((Function.update_of_ne hq _ _).trans hf)
  · intro q o l hf
    exact h.inside q o l (hold hf rfl)
  · intro hnone
    refine h.outside fun q o l hf => ?_
    by_cases hq : q = p
    · subst hq
      cases hfrom _ hf
    · exact hnone q o l ((Function.update_of_ne hq _ _).trans hf)

omit [DecidableEq τ] in
/-- A free word means that no thread holds the lock. -/
theorem Inv.free_iff (h : Inv lock body obj s a) :
    s.word = lock.free ↔ ∀ p f, s.frames p = some f → f.point.holds = false := by
  refine ⟨fun hw p f hf => ?_, h.free⟩
  cases hh : f.point.holds with
  | false => rfl
  | true => exact absurd ((h.held p f hf hh).symm.trans hw) (lock.set_ne p)

/-- A thread takes the free lock. -/
theorem Inv.enter (h : Inv lock body obj s a) (hcorrect : Correct lock body obj)
    (hw : s.word = lock.free) :
    Inv lock body obj ⟨lock.set p s.word, s.data, Function.update s.frames p
      (some ⟨o, .inside (body.enter o)⟩)⟩ a := by
  have hnone := h.free_iff.mp hw
  have hdata : s.data = a := h.outside fun q o l hf => by cases hnone q _ hf
  have honly {q : τ} {f : Frame O L R} (hf : Function.update s.frames p
      (some ⟨o, .inside (body.enter o)⟩) q = some f) (hh : f.point.holds = true) :
      q = p ∧ f = ⟨o, .inside (body.enter o)⟩ := by
    rcases frame_update hf with ⟨rfl, hg⟩ | ⟨-, hs⟩
    · exact ⟨rfl, (Option.some.inj hg).symm⟩
    · rw [hnone q f hs] at hh
      cases hh
  constructor
  · intro q r f f' hf hf' hh hh'
    rw [(honly hf hh).1, (honly hf' hh').1]
  · intro q f hf hh
    rw [(honly hf hh).1, hw]
  · intro hnone
    cases hnone p _ (Function.update_self _ _ _)
  · intro q o' l hf
    obtain ⟨rfl, he⟩ := honly hf rfl
    cases he
    rw [← hdata]
    exact hcorrect q o s.data
  · intro hnone
    exact absurd (Function.update_self _ _ _) (hnone p o (body.enter o))

/-- A step of the thread that holds the lock. -/
theorem Inv.holder (h : Inv lock body obj s a) (hf : s.frames p = some f)
    (hh : f.point.holds = true) {b : D} {pt : Point L R} (hpt : pt.holds = true)
    (hinside : ∀ l, pt = .inside l → body.Ends p (lock.set p lock.free) l d (obj.apply f.op b))
    (houtside : (∀ l, pt ≠ .inside l) → d = b) :
    Inv lock body obj ⟨s.word, d, Function.update s.frames p (some ⟨f.op, pt⟩)⟩ b := by
  have honly {q : τ} {g : Frame O L R} (hg : Function.update s.frames p (some ⟨f.op, pt⟩) q = some g)
      (hh' : g.point.holds = true) : q = p ∧ g = ⟨f.op, pt⟩ := by
    rcases frame_update hg with ⟨rfl, he⟩ | ⟨hq, hs⟩
    · exact ⟨rfl, (Option.some.inj he).symm⟩
    · exact absurd (h.alone q p g f hs hf hh' hh) hq
  constructor
  · intro q r g g' hg hg' hh hh'
    rw [(honly hg hh).1, (honly hg' hh').1]
  · intro q g hg hh'
    rw [(honly hg hh').1]
    exact h.held p f hf hh
  · intro hnone
    have := hnone p _ (Function.update_self _ _ _)
    rw [hpt] at this
    cases this
  · intro q o l hg
    obtain ⟨rfl, he⟩ := honly hg rfl
    cases he
    exact hinside l rfl
  · intro hnone
    refine houtside fun l hl => ?_
    subst hl
    exact hnone p f.op l (Function.update_self _ _ _)

/-- The release of the lock. -/
theorem Inv.release (h : Inv lock body obj s a) (hf : s.frames p = some ⟨o, .release r⟩) :
    Inv lock body obj ⟨lock.free, s.data, Function.update s.frames p (some ⟨o, .ret r⟩)⟩ a := by
  have hnone {q : τ} {g : Frame O L R}
      (hg : Function.update s.frames p (some ⟨o, .ret r⟩) q = some g) : g.point.holds = false := by
    rcases frame_update hg with ⟨rfl, he⟩ | ⟨hq, hs⟩
    · rw [← Option.some.inj he]
      rfl
    · cases hh : g.point.holds with
      | false => rfl
      | true => exact absurd (h.alone q p g _ hs hf hh rfl) hq
  constructor
  · intro q q' g g' hg hg' hh
    rw [hnone hg] at hh
    cases hh
  · intro q g hg hh
    rw [hnone hg] at hh
    cases hh
  · intro _
    rfl
  · intro q o l hg
    cases hnone hg
  · intro _
    refine h.outside fun q o' l hl => ?_
    have hq := h.alone q p _ _ hl hf rfl rfl
    subst hq
    rw [hf] at hl
    cases hl

/-- A step moves its thread as the frames before and after it say. -/
theorem moved_of_frame {g g' : Option (Frame O L R)} {b : D} (hg : s.frames p = g)
    (ht : t.frames = Function.update s.frames p g')
    (hm : (framePhase g).Moves obj (fun _ => False) (framePhase g') a b)
    (hev : event (p, o) s t = Phase.event p (framePhase g) (framePhase g')) :
    Moved obj (event (p, o) s t) (phase s) (phase t) (fun _ _ => False) (fun _ _ => False) p a b := by
  have hself : phase t p = framePhase g' := by rw [phase, ht, Function.update_self]
  refine ⟨fun q hq => ?_, ?_, ?_, fun _ _ _ _ h => h.elim⟩
  · rw [phase, phase, ht, Function.update_of_ne hq]
  · rw [hself, phase, hg]
    exact hm
  · rw [hself, phase, hg]
    exact hev

end Frames

/-- Every step keeps the invariant and moves the thread that takes it. -/
theorem Inv.step (h : Inv lock body obj s a) (hcorrect : Correct lock body obj)
    (hs : step lock body (p, o) s = some t) :
    ∃ b, Inv lock body obj t b ∧ Moved obj (event (p, o) s t) (phase s) (phase t)
      (fun _ _ => False) (fun _ _ => False) p a b := by
  simp only [GlobalLock.step] at hs
  cases hf : s.frames p with
  | none =>
    rw [hf] at hs
    obtain rfl := Option.some.inj hs
    refine ⟨a, h.goto (fun f hf' => ?_) (fun f hf' => ?_), moved_of_frame hf rfl .call ?_⟩
    · rw [hf] at hf'
      cases hf'
    · rw [← Option.some.inj hf']
      rfl
    · simp only [event, hf, Function.update_self]
      rfl
  | some f =>
    rw [hf] at hs
    obtain ⟨⟨w, d, pt⟩, hn, rfl⟩ := Option.map_eq_some_iff.mp hs
    obtain ⟨o', pt'⟩ := f
    have hgoto {pt : Point L R} (hh : pt'.holds = false) (hto : pt.holds = false) :
        Inv lock body obj { s with frames := Function.update s.frames p (some ⟨o', pt⟩) } a := by
      refine h.goto (fun f hf' => ?_) (fun f hf' => ?_)
      · rw [hf] at hf'
        rw [← Option.some.inj hf']
        exact hh
      · rw [← Option.some.inj hf']
        exact hto
    have hinside {pt : Point L R} {t : State τ W O L D R} {b : D}
        (ht : t.frames = Function.update s.frames p (some ⟨o', pt⟩))
        (hm : (framePhase (some ⟨o', pt'⟩)).Moves obj (fun _ => False)
          (framePhase (some ⟨o', pt⟩)) a b) :
        Moved obj (event (p, o) s t) (phase s) (phase t) (fun _ _ => False) (fun _ _ => False)
          p a b := by
      refine moved_of_frame hf ht hm ?_
      simp only [event, hf, ht, Function.update_self]
      cases pt' <;> cases pt <;> rfl
    cases pt' with
    | acquire =>
      cases hn
      by_cases hw : s.word = lock.free
      · refine ⟨a, ?_, hinside rfl ?_⟩
        · simp only [hw, if_true, Option.map_some]
          have := h.enter (p := p) (o := o') hcorrect hw
          rw [hw] at this
          exact this
        · rw [if_pos hw]
          exact .stay
      · refine ⟨a, ?_, hinside rfl ?_⟩
        · simp only [hw, if_false, lock.keep p s.word hw]
          exact hgoto rfl (by split <;> rfl)
        · rw [if_neg hw]
          split <;> exact .stay
    | spin =>
      cases hn
      refine ⟨a, hgoto rfl (by split <;> rfl), hinside rfl ?_⟩
      split <;> exact .stay
    | inside l =>
      obtain ⟨⟨d', x⟩, hx, he⟩ := Option.map_eq_some_iff.mp hn
      have hword := h.held p _ hf rfl
      rw [hword] at hx
      cases he
      rcases (h.inside p o' l hf).move with ⟨l', d'', hmove, hrest⟩ | ⟨r, d'', hmove, hend⟩
      · obtain ⟨rfl, rfl⟩ := Prod.mk.inj (Option.some.inj (hmove.symm.trans hx))
        refine ⟨a, h.holder hf rfl rfl (fun l hl => ?_) fun hne => absurd rfl (hne l'),
          hinside rfl .stay⟩
        cases hl
        exact hrest
      · obtain ⟨rfl, rfl⟩ := Prod.mk.inj (Option.some.inj (hmove.symm.trans hx))
        refine ⟨d'', h.holder hf rfl rfl (fun l hl => ?_) fun _ => rfl, hinside rfl (.of_apply hend)⟩
        cases hl
    | release r =>
      cases hn
      exact ⟨a, h.release hf, hinside rfl .stay⟩
    | ret r =>
      cases hn
      refine ⟨a, h.goto (fun f hf' => ?_) (fun f hf' => by cases hf'), moved_of_frame hf rfl .ret ?_⟩
      · rw [hf] at hf'
        rw [← Option.some.inj hf']
        rfl
      · simp only [event, hf, Option.map_none, Function.update_self]
        rfl

end Steps

section Runs

variable {lock : Lock τ W} {body : Body τ W O L D R} {obj : Object O R D} {s : State τ W O L D R}

omit [DecidableEq τ] [DecidableEq W] in
theorem inv_init (h : Init lock obj.init s) : Inv lock body obj s obj.init where
  alone p q f g hf := by
    rw [h.frames] at hf
    cases hf
  held p f hf := by
    rw [h.frames] at hf
    cases hf
  free _ := h.word
  inside p o l hf := by
    rw [h.frames] at hf
    cases hf
  outside _ := h.data

theorem atomic (hcorrect : Correct lock body obj) :
    Atomic (machine lock body obj.init) (fun _ _ => True) obj (Inv lock body obj) phase
      (fun _ _ _ => False) event where
  init s hs := by
    refine ⟨inv_init hs, fun p => ?_⟩
    rw [phase, hs.frames]
    rfl
  step := by
    rintro ⟨p, o⟩ s t a - - hs h
    obtain ⟨b, hb, hm⟩ := h.step hcorrect hs
    exact ⟨b, p, hb, hm⟩

theorem run_inv (hcorrect : Correct lock body obj)
    (h : (machine lock body obj.init).Reachable s) : ∃ a, Inv lock body obj s a := by
  apply h.invariant
  · intro s hs
    exact ⟨_, inv_init hs⟩
  · rintro ⟨p, o⟩ s t _ ⟨a, ha⟩ _ hs
    obtain ⟨b, hb, -⟩ := ha.step hcorrect hs
    exact ⟨b, hb⟩

/-- The histories of calls are linearizable, and while no thread holds the lock the data is
what their operations lead to. -/
theorem linearizable (hcorrect : Correct lock body obj)
    {x : State τ W O L D R × List (Event τ O R)}
    (h : (withHistory (machine lock body obj.init) event).Reachable x) :
    ∃ a, Linearizable obj x.2 a ∧ ((∀ p, ¬x.1.Holds p) → x.1.data = a) := by
  obtain ⟨a, ha, hlin⟩ := (atomic hcorrect).linearizable h
  exact ⟨a, hlin, fun hnone => ha.outside fun p o l hf => hnone p ⟨_, hf, rfl⟩⟩

end Runs

section Progress

variable {lock : Lock τ W} {body : Body τ W O L D R} {obj : Object O R D} {start a : D}
  {s t : State τ W O L D R} {p q : τ} {f : Frame O L R} {o : O} {l : L} {r : R} {d : D} {w : W}

/-- The thread returns from its call if it runs alone. -/
def Finishes (lock : Lock τ W) (body : Body τ W O L D R) (start : D) (p : τ)
    (s : State τ W O L D R) : Prop :=
  (machine lock body start).Leads (fun x => x.1 = p) (fun t => t.frames p ≠ none)
    (fun t => t.frames p = none) s

theorem step_frames (hs : step lock body (p, o) s = some t) (hq : q ≠ p) :
    t.frames q = s.frames q := by
  simp only [step] at hs
  split at hs
  · rw [← Option.some.inj hs]
    exact Function.update_of_ne hq _ _
  · obtain ⟨y, -, rfl⟩ := Option.map_eq_some_iff.mp hs
    exact Function.update_of_ne hq _ _

/-- A call has an enabled step. -/
theorem Inv.enabled (h : Inv lock body obj s a) (hf : s.frames p = some f) (o : O) :
    ∃ t, GlobalLock.step lock body (p, o) s = some t := by
  obtain ⟨o', pt⟩ := f
  simp only [GlobalLock.step, hf]
  cases pt with
  | inside l =>
    have hw := h.held p _ hf rfl
    rcases (h.inside p o' l hf).move with ⟨l', d, hmove, -⟩ | ⟨r, d, hmove, -⟩
    · exact ⟨_, by simp only [next, hw, hmove, Option.map_some]; rfl⟩
    · exact ⟨_, by simp only [next, hw, hmove, Option.map_some]; rfl⟩
  | _ => exact ⟨_, rfl⟩

/-- One thread at most holds the lock, which is set if one does, and no step is undefined. -/
theorem safe (hcorrect : Correct lock body obj)
    (h : (machine lock body obj.init).Reachable s) :
    (∀ p q, s.Holds p → s.Holds q → p = q) ∧ (∀ p, s.Holds p → s.word = lock.set p lock.free) ∧
      ∀ x, ∃ t, (machine lock body obj.init).step x s = some t := by
  obtain ⟨a, ha⟩ := run_inv hcorrect h
  refine ⟨?_, ?_, ?_⟩
  · rintro p q ⟨f, hf, hh⟩ ⟨g, hg, hh'⟩
    exact ha.alone p q f g hf hg hh hh'
  · rintro p ⟨f, hf, hh⟩
    exact ha.held p f hf hh
  · rintro ⟨p, o⟩
    cases hf : s.frames p with
    | none => exact ⟨_, by simp only [machine, GlobalLock.step, hf]; rfl⟩
    | some f => exact ha.enabled hf o

/-- The one step of a call. -/
theorem leads_step {via P : State τ W O L D R → Prop} (hf : s.frames p = some ⟨o, pt⟩)
    {y : W × D × Option (Point L R)} (hn : next lock body p ⟨o, pt⟩ s.word s.data = some y)
    (hv : via s)
    (h : (machine lock body start).Leads (fun x => x.1 = p) via P
      ⟨y.1, y.2.1, Function.update s.frames p (y.2.2.map fun pt => ⟨o, pt⟩)⟩) :
    (machine lock body start).Leads (fun x => x.1 = p) via P s := by
  refine .forced hv ⟨(p, o), rfl⟩ (fun x hx => ?_) h
  simp only [machine, GlobalLock.step, hx, hf, hn, Option.map_some]

/-- A thread inside goes on to the result of its call and releases the lock. -/
theorem leads_release {x : R × D} (he : body.Ends p w l d x) (hw : s.word = w) (hd : s.data = d)
    (hf : s.frames p = some ⟨o, .inside l⟩) :
    (machine lock body start).Leads (fun x => x.1 = p) (State.Holds · p)
      (fun t => t = ⟨lock.free, x.2, Function.update s.frames p (some ⟨o, .ret x.1⟩)⟩) s := by
  induction he generalizing s with
  | @last l d d' r move =>
    have hn : next lock body p ⟨o, .inside l⟩ s.word s.data =
        some (s.word, d', some (.release r)) := by simp only [next, hw, hd, move, Option.map_some]
    refine leads_step hf hn ⟨_, hf, rfl⟩ (leads_step (Function.update_self _ _ _) rfl
      ⟨_, Function.update_self _ _ _, rfl⟩ (.done ?_))
    simp only [Option.map_some, Function.update_idem]
  | @more l l' d d' x move _ ih =>
    have hn : next lock body p ⟨o, .inside l⟩ s.word s.data =
        some (s.word, d', some (.inside l')) := by simp only [next, hw, hd, move, Option.map_some]
    refine leads_step hf hn ⟨_, hf, rfl⟩ ((ih ?_ ?_ ?_).mono ?_)
    · exact hw
    · rfl
    · exact Function.update_self _ _ _
    · rintro t rfl
      simp only [Option.map_some, Function.update_idem]

theorem finishes_ret (hf : s.frames p = some ⟨o, .ret r⟩) : Finishes lock body start p s :=
  leads_step hf rfl (by simp [hf]) (.done (Function.update_self _ _ _))

theorem finishes_inside {x : R × D} (hf : s.frames p = some ⟨o, .inside l⟩)
    (he : body.Ends p s.word l s.data x) : Finishes lock body start p s := by
  refine ((leads_release he rfl rfl hf).through fun t ht => ?_).trans ?_
  · obtain ⟨f, hf, -⟩ := ht
    simp [hf]
  · rintro t rfl
    exact finishes_ret (Function.update_self _ _ _)

theorem finishes_acquire (hcorrect : Correct lock body obj)
    (hf : s.frames p = some ⟨o, .acquire⟩) (hw : s.word = lock.free) :
    Finishes lock body start p s := by
  refine leads_step hf rfl (by simp [hf]) ?_
  rw [if_pos hw]
  have he := hcorrect p o s.data
  rw [← hw] at he
  exact finishes_inside (Function.update_self _ _ _) he

/-- A thread that no other thread keeps out of the lock finishes its call. -/
theorem Inv.finishes (h : Inv lock body obj s a) (hcorrect : Correct lock body obj)
    (hf : s.frames p ≠ none) (hp : ∀ q, s.Holds q → q = p) : Finishes lock body start p s := by
  obtain ⟨⟨o, pt⟩, hf⟩ := Option.ne_none_iff_exists'.mp hf
  have hvia : s.frames p ≠ none := by simp [hf]
  have hword (hh : pt.holds = false) : s.word = lock.free := by
    refine h.free fun q g hg => ?_
    cases hq : g.point.holds with
    | false => rfl
    | true =>
      obtain rfl := hp q ⟨g, hg, hq⟩
      rw [hf] at hg
      rw [← hq, ← Option.some.inj hg, hh]
  cases pt with
  | acquire => exact finishes_acquire hcorrect hf (hword rfl)
  | spin =>
    refine leads_step hf rfl hvia ?_
    rw [if_pos (hword rfl)]
    exact finishes_acquire hcorrect (Function.update_self _ _ _) (hword rfl)
  | inside l =>
    have he := h.inside p o l hf
    rw [← h.held p _ hf rfl] at he
    exact finishes_inside hf he
  | release r =>
    refine leads_step hf rfl hvia ?_
    exact finishes_ret (Function.update_self _ _ _)
  | ret r => exact finishes_ret hf

/-- A thread that holds the lock gives it away if it runs alone. -/
theorem Inv.leads_free (h : Inv lock body obj s a) (hp : s.Holds p) :
    (machine lock body start).Leads (fun x => x.1 = p) (State.Holds · p)
      (fun t => t.word = lock.free) s := by
  obtain ⟨⟨o, pt⟩, hf, hh⟩ := hp
  cases pt with
  | inside l =>
    refine (leads_release (h.inside p o l hf) (h.held p _ hf hh) rfl hf).mono ?_
    rintro t rfl
    rfl
  | release r => exact leads_step hf rfl ⟨_, hf, hh⟩ (.done rfl)
  | _ => cases hh

/-- No call waits for ever: it returns if its thread runs alone, unless another thread holds
the lock, and if that one runs first it gives the lock away. -/
theorem deadlock_free (hcorrect : Correct lock body obj)
    (h : (machine lock body obj.init).Reachable s) (hf : s.frames p ≠ none) :
    Finishes lock body obj.init p s ∨ ∃ q, q ≠ p ∧ s.Holds q ∧
      (machine lock body obj.init).Leads (fun x => x.1 = q) (State.Holds · q)
        (fun t => t.frames p = s.frames p ∧ Finishes lock body obj.init p t) s := by
  obtain ⟨a, ha⟩ := run_inv hcorrect h
  by_cases hp : ∀ q, s.Holds q → q = p
  · exact .inl (ha.finishes hcorrect hf hp)
  · push Not at hp
    obtain ⟨q, hq, hne⟩ := hp
    have hkeep : ∀ x s' t, x.1 = q → ((∃ b, Inv lock body obj s' b) ∧ s'.frames p = s.frames p) →
        (machine lock body obj.init).step x s' = some t →
        (∃ b, Inv lock body obj t b) ∧ t.frames p = s.frames p := by
      rintro ⟨_, o⟩ s' t rfl ⟨⟨b, hb⟩, hs'⟩ ht
      obtain ⟨c, hc, -⟩ := hb.step hcorrect ht
      exact ⟨⟨c, hc⟩, (step_frames ht (Ne.symm hne)).trans hs'⟩
    refine .inr ⟨q, hne, hq, ((ha.leads_free hq).keep ⟨⟨a, ha⟩, rfl⟩ hkeep).mono ?_⟩
    rintro t ⟨hw, ⟨b, hb⟩, ht⟩
    refine ⟨ht, hb.finishes hcorrect (ht ▸ hf) fun u hu => ?_⟩
    obtain ⟨f, hf', hh⟩ := hu
    rw [hb.free_iff.mp hw u f hf'] at hh
    cases hh

end Progress

end GlobalLock
