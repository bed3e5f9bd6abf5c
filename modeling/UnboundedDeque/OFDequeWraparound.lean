import UnboundedDeque.OFDequeVersionSteps

/-!
# Slot versions that come around

Calls in the interior of a buffer can be repeated any number of times while another
thread is paused. After `2 ^ 30` rounds of a push and a pop a slot has its old contents.
-/
namespace UnboundedDeque.OFDeque
open StepMachine

section Cut

variable {τ : Type*} {m : Memory τ} {x : Slot} {b : Address} {i : ℤ}

@[simp] theorem Slot.wrap_wrap (x : Slot) : x.wrap.wrap = x.wrap := by
  simp only [Slot.wrap, Nat.mod_mod]

theorem Memory.wrap_wrap (m : Memory τ) : m.wrap.wrap = m.wrap := by
  simp only [Memory.wrap, Slot.wrap, Hint.wrap, Nat.mod_mod]

theorem Memory.slot_wrap (m : Memory τ) (b : Address) (i : ℤ) :
    m.wrap.slot b i = (m.slot b i).wrap := rfl

/-- The counts of a memory have their bits. -/
def Memory.Cut (m : Memory τ) : Prop := m.wrap = m

theorem Memory.Cut.slot (h : m.Cut) (b : Address) (i : ℤ) : (m.slot b i).wrap = m.slot b i :=
  congrFun (congrFun (congrArg Memory.slot h) b) i

theorem Memory.Cut.hint (h : m.Cut) (S : Side) : (m.hint S).wrap = m.hint S :=
  congrFun (congrArg Memory.hint h) S

end Cut

section Rounds

variable {τ : Type*}

section Solo

variable [DecidableEq τ] [BufferSize]
variable {m : Memory τ} {k : Notes τ} {fr : τ → Option Frame} {tid : τ} {S : Side}
  {call : Call Word} {p q : Point} {c : Choice} {a : Action} {v : View} {b : Address} {i : ℤ}

/-- A run comes to a memory and an account with a thread at a point and the others at theirs,
where all counts have their bits. -/
structure Comes (fr : τ → Option Frame) (tid : τ) (S : Side) (call : Call Word) (m : Memory τ)
    (k : Notes τ) (p : Point) : Prop where
  run : (versioned τ).Reachable (⟨m, Function.update fr tid (some ⟨S, call, p⟩)⟩, k)
  cut : m.Cut
  frames : ∀ q, (fr q).map Frame.wrap = fr q

omit [BufferSize] in
theorem wrap_update (hfr : ∀ q, (fr q).map Frame.wrap = fr q) (x : Option Frame) :
    State.wrap ⟨m, Function.update fr tid x⟩ =
      ⟨m.wrap, Function.update fr tid (x.map Frame.wrap)⟩ := by
  have hframes : (fun q => (Function.update fr tid x q).map Frame.wrap) =
      Function.update fr tid (x.map Frame.wrap) := by
    funext q
    by_cases hq : q = tid
    · rw [hq, Function.update_self, Function.update_self]
    · rw [Function.update_of_ne hq, Function.update_of_ne hq, hfr]
  rw [State.wrap, hframes]

theorem Comes.step (h : Comes fr tid S call m k p)
    (hn : next m c tid S call p = some (a, some q)) :
    Comes fr tid S call (m.act tid a).wrap (k.after m tid S p) q.wrap := by
  refine ⟨h.run.step (a := (tid, c)) trivial ?_, Memory.wrap_wrap _, h.frames⟩
  refine Machine.account_step.mpr ⟨?_, ?_⟩
  · simp only [wrapped, OFDeque.step, Function.update_self, hn, Option.map_some,
      Function.update_idem, wrap_update h.frames]
    rfl
  · simp only [noteSlots, Function.update_self]

/-- A step without effect on the memory. -/
theorem Comes.skip {q' : Point} (h : Comes fr tid S call m k p)
    (hn : next m ⟨(S, call), 0, 0, 0⟩ tid S call p = some (.skip, some q)) (hq : q.wrap = q') :
    Comes fr tid S call m (k.after m tid S p) q' := by
  have hstep : Comes fr tid S call m.wrap (k.after m tid S p) q.wrap := h.step hn
  rwa [h.cut, hq] at hstep

/-- A step without effect on the memory and the account. -/
theorem Comes.quiet {q' : Point} (h : Comes fr tid S call m k p)
    (hn : next m ⟨(S, call), 0, 0, 0⟩ tid S call p = some (.skip, some q)) (hq : q.wrap = q')
    (ha : p.attempts S = none) (hl : p.loading S = none) : Comes fr tid S call m k q' := by
  have hstep : Comes fr tid S call m (k.after m tid S p) q' := h.skip hn hq
  rwa [Notes.after_quiet ha hl] at hstep

theorem Comes.start (h : (versioned τ).Reachable (⟨m, fr⟩, k)) (hm : m.Cut)
    (hfr : ∀ q, (fr q).map Frame.wrap = fr q) (hidle : fr tid = none) :
    Comes fr tid S call m k .hintLoad := by
  refine ⟨h.step (a := (tid, ⟨(S, call), 0, 0, 0⟩)) trivial ?_, hm, hfr⟩
  refine Machine.account_step.mpr ⟨?_, ?_⟩
  · simp only [wrapped, OFDeque.step, hidle, Option.map_some, wrap_update hfr]
    rw [hm]
    rfl
  · simp only [noteSlots, hidle]

/-- The account after both slots of an edge have been loaded. -/
def Notes.loaded (k : Notes τ) (m : Memory τ) (tid : τ) (S : Side) (v : View) : Notes τ :=
  (k.after m tid S (.near v.hint v.buffer v.index)).after m tid S
    (.far v.hint v.buffer v.index v.near)

/-- The edge in a buffer as its slots are. -/
def Memory.view (m : Memory τ) (S : Side) (b : Address) (i : ℤ) : View :=
  ⟨m.hint S, b, i, m.slot b i, m.slot b (i + farDirection S)⟩

/-- A buffer is hinted at, and the slot its local hint names is an interior edge. -/
structure Memory.Interior (m : Memory τ) (S : Side) (b : Address) (i : ℤ) : Prop where
  hint : (m.hint S).buffer = b
  localHint : clamp (m.localHint S b) = i
  nearLink : i ≠ nearLink S
  farLink : i ≠ farLink S
  farValue : i ≠ farValue S
  notFar : (m.slot b i).type ≠ farType S
  notSealed : (m.slot b i).type ≠ .sealed
  far : (m.slot b (i + farDirection S)).type = farType S

omit [DecidableEq τ] [BufferSize] in
theorem Memory.Cut.view (hm : m.Cut) : (m.view S b i).wrap = m.view S b i := by
  simp only [Memory.view, View.wrap, hm.slot]

omit [DecidableEq τ] in
theorem findSwitch_interior (hi : m.Interior S b i) {f : Find} :
    findSwitch S f i (m.slot b i) = .findPeek f i := by
  rw [findSwitch, if_neg hi.farLink, if_neg hi.nearLink, if_neg hi.notFar, if_neg hi.notSealed]

omit [DecidableEq τ] in
theorem checkEdge_push (hi : m.Interior S b i) {w : Word} {cache : Option Address} :
    checkEdge S (.push w) cache (m.view S b i) = .safe (m.view S b i) .interiorPush := by
  have hnear : ¬((m.view S b i).near.type = farType S ∨
      (m.view S b i).near.type = .sealed ∧ (m.view S b i).index ≠ OFDeque.farValue S) :=
    not_or.mpr ⟨hi.notFar, fun h => hi.notSealed h.1⟩
  rw [checkEdge, if_neg hnear, if_neg fun h => h.2 hi.far, if_neg fun h => hi.nearLink h.1]
  exact if_pos hi.farValue

omit [DecidableEq τ] in
theorem checkEdge_pop (hi : m.Interior S b i) (hv : (m.slot b i).type ≠ nearType S)
    {cache : Option Address} :
    checkEdge S .pop cache (m.view S b i) = .safe (m.view S b i) .interiorPop := by
  have hnear : ¬((m.view S b i).near.type = farType S ∨
      (m.view S b i).near.type = .sealed ∧ (m.view S b i).index ≠ OFDeque.farValue S) :=
    not_or.mpr ⟨hi.notFar, fun h => hi.notSealed h.1⟩
  rw [checkEdge, if_neg hnear, if_neg fun h => h.2 hi.far, if_neg fun h => hi.nearLink h.1]
  exact (if_pos hi.farValue).trans (if_neg hv)

/-- From the start of a call to the edge. -/
theorem Comes.edge (h : Comes fr tid S call m k .hintLoad) (hi : m.Interior S b i) :
    Comes fr tid S call m (k.loaded m tid S (m.view S b i))
      (checkEdge S call (m.cache S tid) (m.view S b i)).wrap := by
  have hcheck : Comes fr tid S call m k (.hintCheck (m.hint S)) :=
    (h.quiet rfl rfl rfl rfl).quiet rfl rfl rfl rfl
  have hlocal : Comes fr tid S call m k (.findLocal ⟨m.hint S, true, b⟩) := by
    refine hcheck.quiet (q := .findLocal ⟨m.hint S, true, b⟩) ?_ rfl rfl rfl
    rw [next, if_pos rfl, hi.hint]
  have hslot : Comes fr tid S call m k (.findSlot ⟨m.hint S, true, b⟩ i) := by
    refine hlocal.quiet (q := .findSlot ⟨m.hint S, true, b⟩ i) ?_ rfl rfl rfl
    rw [next, hi.localHint]
  have hpeek : Comes fr tid S call m k (.findPeek ⟨m.hint S, true, b⟩ i) := by
    refine hslot.quiet (q := .findPeek ⟨m.hint S, true, b⟩ i) ?_ rfl rfl rfl
    rw [next, findSwitch_interior hi]
  have hnear : Comes fr tid S call m k (.near (m.hint S) b i) := by
    refine hpeek.quiet (q := .near (m.hint S) b i) ?_ rfl rfl rfl
    rw [next]
    exact congrArg (fun p => some (Action.skip, some p)) (if_pos hi.far)
  have hfar : Comes fr tid S call m (k.after m tid S (.near (m.hint S) b i))
      (.far (m.hint S) b i (m.slot b i)) := by
    refine hnear.skip rfl ?_
    rw [Point.wrap, h.cut.slot]
  exact hfar.skip rfl rfl

omit [DecidableEq τ] [BufferSize] in
/-- Counts may be cut before they are counted on. -/
theorem Memory.wrap_cas_wrap (m : Memory τ) (b : Address) (i : ℤ) (w : Word) (t : SlotType) :
    (m.wrap.cas b i w t).wrap = (m.cas b i w t).wrap := by
  have hslot : (m.wrap.cas b i w t).wrap.slot = (m.cas b i w t).wrap.slot := by
    funext c j
    by_cases hplace : c = b ∧ j = i
    · obtain ⟨rfl, rfl⟩ := hplace
      rw [Memory.slot_wrap, Memory.slot_wrap, Memory.slot_cas, Memory.slot_cas]
      simp only [Memory.slot_wrap, Slot.wrap, Nat.mod_add_mod]
    · have hne : c ≠ b ∨ j ≠ i := not_and_or.mp hplace
      rw [Memory.slot_wrap, Memory.slot_wrap, Memory.slot_cas_ne _ _ _ _ _ _ _ hne,
        Memory.slot_cas_ne _ _ _ _ _ _ _ hne, Memory.slot_wrap, Slot.wrap_wrap]
  have hhint : (m.wrap.cas b i w t).wrap.hint = (m.cas b i w t).wrap.hint := by
    simp only [Memory.wrap, Memory.cas, Memory.set, Hint.wrap, Nat.mod_mod]
  exact congrArg₂ (fun x y => { (m.cas b i w t).wrap with slot := x, hint := y }) hslot hhint

/-- The memory after an interior call. -/
def Memory.stepped (m : Memory τ) (S : Side) (b : Address) (i j : ℤ) (w : Word) (t : SlotType)
    (d : ℤ) : Memory τ :=
  let m' := (m.cas b i (m.slot b i).word (m.slot b i).type).cas b j w t
  { m' with localHint :=
      Function.update m.localHint S (Function.update (m.localHint S) b (m.localHint S b + d)) }

theorem Memory.wrap_setLocalHint (m : Memory τ) (x : ℤ) :
    (m.wrap.act tid (.setLocalHint S b x)).wrap = (m.act tid (.setLocalHint S b x)).wrap := by
  simp only [Memory.wrap, Memory.act, Slot.wrap, Hint.wrap, Nat.mod_mod]

theorem Comes.return {r : Result Word} (h : Comes fr tid S call m k (.clearSecond r))
    (hidle : fr tid = none) : (versioned τ).Reachable (⟨m, fr⟩, k) := by
  refine h.run.step (a := (tid, ⟨(S, call), 0, 0, 0⟩)) trivial ?_
  refine Machine.account_step.mpr ⟨?_, ?_⟩
  · have hn : next m ⟨(S, call), 0, 0, 0⟩ tid S call (.clearSecond r) = some (.skip, none) := rfl
    simp only [wrapped, OFDeque.step, Function.update_self, hn, Option.map_some,
      Function.update_idem, wrap_update h.frames]
    rw [Option.map_none, Option.map_none, ← hidle, Function.update_eq_self]
    exact congrArg (fun m => some (State.mk m fr)) h.cut
  · simp only [noteSlots, Function.update_self]
    rw [Notes.after_quiet rfl rfl]

/-- From the edge to the return of an interior call. -/
theorem Comes.finish {d : Attempt} {i j : ℤ} {w : Word} {t : SlotType} {δ : ℤ}
    {r : Result Word} (h : Comes fr tid S call m k (.safe v d)) (hidle : fr tid = none)
    (hv : v.wrap = v) (hd : d.wrap = d) (hsafe : d.safe S v = (b, i, m.slot b i))
    (htarget : d.target S v = (b, j, m.slot b j)) (hne : j ≠ i)
    (hact : ∀ m : Memory τ, m.act tid (d.action S call v 0) = m.cas b j w t)
    (hdone : d.doneNext S v = .addLocal b δ r) :
    ∃ k', (versioned τ).Reachable (⟨(m.stepped S b i j w t δ).wrap, fr⟩, k') ∧
      k'.changes = (tid, b, j) :: (tid, b, i) :: k.changes ∧ k'.loads = k.loads := by
  have hfirst : (Point.safe v d).attempts S = some ⟨d.safeLocal, b, i, m.slot b i⟩ := by
    rw [Point.attempts, hsafe]
  have hsecond : (Point.effect v d).attempts S = some ⟨d.targetLocal, b, j, m.slot b j⟩ := by
    rw [Point.attempts, htarget]
  -- `casSafe`
  have heffect : Comes fr tid S call (m.act tid (.casSafe b i)).wrap
      (k.after m tid S (.safe v d)) (.effect v d) := by
    have hn : next m ⟨(S, call), 0, 0, 0⟩ tid S call (.safe v d) =
        some (.casSafe b i, some (.effect v d)) := by
      rw [next, hsafe]
      exact if_pos rfl
    have hstep := h.step hn
    rwa [Point.wrap, hv, hd] at hstep
  have hslot : (m.act tid (.casSafe b i)).wrap.slot b j = m.slot b j := by
    rw [Memory.slot_wrap, Memory.act, Memory.slot_cas_ne _ _ _ _ _ _ _ (.inr hne), h.cut.slot]
  -- the second compare-exchange
  have hlocal : Comes fr tid S call
      ((m.cas b i (m.slot b i).word (m.slot b i).type).cas b j w t).wrap
      ((k.after m tid S (.safe v d)).after (m.act tid (.casSafe b i)).wrap tid S (.effect v d))
      (.addLocal b δ r) := by
    have hn : next (m.act tid (.casSafe b i)).wrap ⟨(S, call), 0, 0, 0⟩ tid S call
        (.effect v d) = some (d.action S call v 0, some (.addLocal b δ r)) := by
      rw [next, htarget, hdone]
      exact if_pos hslot
    have hstep := heffect.step hn
    rwa [hact, Memory.act, Memory.wrap_cas_wrap] at hstep
  -- the local hint
  have hclear : Comes fr tid S call (m.stepped S b i j w t δ).wrap
      ((k.after m tid S (.safe v d)).after (m.act tid (.casSafe b i)).wrap tid S (.effect v d))
      (.clearFirst r) := by
    have hstep := hlocal.step (c := ⟨(S, call), 0, 0, 0⟩) rfl
    rwa [Notes.after_quiet rfl rfl, Memory.wrap_setLocalHint] at hstep
  have hlast := hclear.quiet (q := .clearSecond r) rfl rfl rfl rfl
  refine ⟨_, hlast.return hidle, ?_, ?_⟩
  · rw [Notes.changes_success hsecond hslot, Notes.changes_success hfirst rfl]
  · rw [Notes.loads_attempt hsecond, Notes.loads_attempt hfirst]

theorem Notes.loads_loaded {q : τ} (hq : q ≠ tid) : (k.loaded m tid S v).loads q = k.loads q := by
  rw [Notes.loaded, Notes.loads_other hq, Notes.loads_other hq]

/-- A buffer in which the calls at one end swing between two interior edges. -/
structure Memory.SwingsAt (m : Memory τ) (S : Side) (b : Address) (i : ℤ) : Prop where
  hint : (m.hint S).buffer = b
  localHint : m.localHint S b = i
  inner : Inner i
  next : Inner (i + farDirection S)
  nextFar : i + farDirection S ≠ farValue S
  notFar : (m.slot b i).type ≠ farType S
  notSealed : (m.slot b i).type ≠ .sealed
  far : (m.slot b (i + farDirection S)).type = farType S
  beyond : (m.slot b (i + farDirection S + farDirection S)).type = farType S

instance : Decidable (Inner i) := inferInstanceAs (Decidable (_ ∧ _))

instance : Decidable (m.SwingsAt S b i) :=
  decidable_of_iff ((m.hint S).buffer = b ∧ m.localHint S b = i ∧ Inner i ∧
    Inner (i + farDirection S) ∧ i + farDirection S ≠ farValue S ∧
    (m.slot b i).type ≠ farType S ∧ (m.slot b i).type ≠ .sealed ∧
    (m.slot b (i + farDirection S)).type = farType S ∧
    (m.slot b (i + farDirection S + farDirection S)).type = farType S)
    ⟨fun ⟨h₀, h₁, h₂, h₃, h₄, h₅, h₆, h₇, h₈⟩ => ⟨h₀, h₁, h₂, h₃, h₄, h₅, h₆, h₇, h₈⟩,
      fun h => ⟨h.hint, h.localHint, h.inner, h.next, h.nextFar, h.notFar, h.notSealed, h.far,
        h.beyond⟩⟩

structure Memory.Swings (m : Memory τ) (S : Side) (b : Address) (i : ℤ) : Prop extends
    m.SwingsAt S b i where
  cut : m.Cut

omit [DecidableEq τ] in
theorem Memory.Swings.interior (h : m.Swings S b i) : m.Interior S b i where
  hint := h.hint
  localHint := by
    obtain ⟨h₀, h₁⟩ := h.inner
    rw [h.localHint, clamp, if_neg (by omega), if_neg (by omega)]
  nearLink := h.inner.ne_nearLink S
  farLink := h.inner.ne_farLink S
  farValue hi := by
    have hnext : Inner (i + farDirection S) := h.next
    rw [hi, farValue_add] at hnext
    exact farLink_not_inner S hnext
  notFar := h.notFar
  notSealed := h.notSealed
  far := h.far

/-- The memory after the push of a round. -/
def Memory.pushed (m : Memory τ) (S : Side) (b : Address) (i : ℤ) (w : Word) : Memory τ :=
  (m.stepped S b i (i + farDirection S) w .value (farDirection S)).wrap

/-- The memory after the push and the pop of a round. -/
def Memory.swung (m : Memory τ) (S : Side) (b : Address) (i : ℤ) (w : Word) : Memory τ :=
  ((m.pushed S b i w).stepped S b (i + farDirection S + farDirection S) (i + farDirection S) 0
    (farType S) (-farDirection S)).wrap

section Stepped

omit [DecidableEq τ] [BufferSize]

variable {i j l : ℤ} {w : Word} {t : SlotType} {δ : ℤ}

theorem Memory.stepped_slot_first (hne : j ≠ i) : (m.stepped S b i j w t δ).wrap.slot b i =
    ⟨(m.slot b i).word, ((m.slot b i).count + 1) % countBound, (m.slot b i).type⟩ := by
  have hslot : (m.stepped S b i j w t δ).slot b i =
      ⟨(m.slot b i).word, (m.slot b i).count + 1, (m.slot b i).type⟩ := by
    refine (Memory.slot_cas_ne _ b b j i w t (.inr hne.symm)).trans ?_
    exact m.slot_cas b i _ _
  rw [Memory.slot_wrap, hslot, Slot.wrap]

theorem Memory.stepped_type_second : ((m.stepped S b i j w t δ).wrap.slot b j).type = t :=
  congrArg Slot.type (Memory.slot_cas _ b j w t)

theorem Memory.stepped_slot_other (hm : m.Cut) (hi : l ≠ i) (hj : l ≠ j) :
    (m.stepped S b i j w t δ).wrap.slot b l = m.slot b l := by
  have hslot : (m.stepped S b i j w t δ).slot b l = m.slot b l := by
    refine (Memory.slot_cas_ne _ b b j l w t (.inr hj)).trans ?_
    exact m.slot_cas_ne b b i l _ _ (.inr hi)
  rw [Memory.slot_wrap, hslot, hm.slot]

theorem Memory.stepped_localHint :
    (m.stepped S b i j w t δ).wrap.localHint S b = m.localHint S b + δ := by
  simp only [Memory.wrap, Memory.stepped, Function.update_self]

theorem Memory.stepped_hint (hm : m.Cut) : (m.stepped S b i j w t δ).wrap.hint S = m.hint S :=
  hm.hint S

end Stepped

omit [DecidableEq τ] in
theorem Memory.Swings.interior_pushed (h : m.Swings S b i) (w : Word) :
    (m.pushed S b i w).Interior S b (i + farDirection S) where
  hint := by
    rw [Memory.pushed, Memory.stepped_hint h.cut]
    exact h.hint
  localHint := by
    obtain ⟨h₀, h₁⟩ := h.next
    rw [Memory.pushed, Memory.stepped_localHint, h.localHint, clamp, if_neg (by omega),
      if_neg (by omega)]
  nearLink := h.next.ne_nearLink S
  farLink := h.next.ne_farLink S
  farValue := h.nextFar
  notFar := by
    rw [Memory.pushed, Memory.stepped_type_second]
    exact (farType_ne_value S).symm
  notSealed := by
    rw [Memory.pushed, Memory.stepped_type_second]
    decide
  far := by
    have hfirst : i + farDirection S + farDirection S ≠ i := by
      cases S <;> simp only [farDirection] <;> omega
    rw [Memory.pushed, Memory.stepped_slot_other h.cut hfirst (index_ne_far S _).symm]
    exact h.beyond

omit [DecidableEq τ] [BufferSize] in
theorem Memory.cut_wrap (m : Memory τ) : m.wrap.Cut := m.wrap_wrap

omit [DecidableEq τ] in
/-- A round of a push and a pop brings the buffer back, with one change of the slot it has
pushed beside. -/
theorem Memory.Swings.swung (h : m.Swings S b i) (w : Word) :
    (m.swung S b i w).Swings S b i ∧ (m.swung S b i w).slot b i =
      ⟨(m.slot b i).word, ((m.slot b i).count + 1) % countBound, (m.slot b i).type⟩ := by
  have hcut : (m.pushed S b i w).Cut := Memory.cut_wrap _
  have hfar : i + farDirection S ≠ i := (index_ne_far S i).symm
  have hbeyond : i + farDirection S + farDirection S ≠ i + farDirection S :=
    (index_ne_far S _).symm
  have htwice : i + farDirection S + farDirection S ≠ i := by
    cases S <;> simp only [farDirection] <;> omega
  have hslot : (m.swung S b i w).slot b i =
      ⟨(m.slot b i).word, ((m.slot b i).count + 1) % countBound, (m.slot b i).type⟩ := by
    rw [Memory.swung, Memory.stepped_slot_other hcut htwice.symm hfar.symm, Memory.pushed,
      Memory.stepped_slot_first hfar]
  refine ⟨⟨⟨?_, ?_, h.inner, h.next, h.nextFar, ?_, ?_, ?_, ?_⟩, Memory.cut_wrap _⟩, hslot⟩
  · rw [Memory.swung, Memory.stepped_hint hcut, Memory.pushed, Memory.stepped_hint h.cut]
    exact h.hint
  · rw [Memory.swung, Memory.stepped_localHint, Memory.pushed, Memory.stepped_localHint,
      h.localHint]
    omega
  · rw [hslot]
    exact h.notFar
  · rw [hslot]
    exact h.notSealed
  · rw [Memory.swung, Memory.stepped_type_second]
  · rw [Memory.swung, Memory.stepped_slot_first hbeyond.symm, Memory.pushed,
      Memory.stepped_slot_other h.cut htwice hbeyond]
    exact h.beyond

/-- A thread at the edge with a push, its two slots loaded. -/
theorem Comes.push (h : (versioned τ).Reachable (⟨m, fr⟩, k)) (hi : m.Interior S b i)
    (hm : m.Cut) (hfr : ∀ q, (fr q).map Frame.wrap = fr q) (hidle : fr tid = none) (w : Word) :
    Comes fr tid S (.push w) m (k.loaded m tid S (m.view S b i))
      (.safe (m.view S b i) .interiorPush) := by
  have hstart : Comes fr tid S (.push w) m k .hintLoad := Comes.start h hm hfr hidle
  have hedge := hstart.edge hi
  rwa [checkEdge_push hi, Point.wrap, hm.view, Attempt.wrap] at hedge
  all_goals nofun

theorem Comes.pop (h : (versioned τ).Reachable (⟨m, fr⟩, k)) (hi : m.Interior S b i)
    (hm : m.Cut) (hfr : ∀ q, (fr q).map Frame.wrap = fr q) (hidle : fr tid = none)
    (hv : (m.slot b i).type ≠ nearType S) :
    Comes fr tid S .pop m (k.loaded m tid S (m.view S b i))
      (.safe (m.view S b i) .interiorPop) := by
  have hstart : Comes fr tid S .pop m k .hintLoad := Comes.start h hm hfr hidle
  have hedge := hstart.edge hi
  rwa [checkEdge_pop hi hv, Point.wrap, hm.view, Attempt.wrap] at hedge
  all_goals nofun

/-- A round of one thread. -/
theorem Memory.Swings.round (h : m.Swings S b i) (hrun : (versioned τ).Reachable (⟨m, fr⟩, k))
    (hfr : ∀ q, (fr q).map Frame.wrap = fr q) (hidle : fr tid = none) (w : Word) :
    ∃ k', (versioned τ).Reachable (⟨m.swung S b i w, fr⟩, k') ∧
      k'.changes = (tid, b, i + farDirection S) :: (tid, b, i + farDirection S + farDirection S) ::
        (tid, b, i + farDirection S) :: (tid, b, i) :: k.changes ∧
      ∀ q, q ≠ tid → k'.loads q = k.loads q := by
  have hcut : (m.pushed S b i w).Cut := Memory.cut_wrap _
  have hpush : ∃ k₁, (versioned τ).Reachable (⟨m.pushed S b i w, fr⟩, k₁) ∧
      k₁.changes = (tid, b, i + farDirection S) :: (tid, b, i) :: k.changes ∧
      k₁.loads = (k.loaded m tid S (m.view S b i)).loads :=
    (Comes.push hrun h.interior h.cut hfr hidle w).finish hidle h.cut.view rfl rfl rfl
      (index_ne_far S i).symm (fun _ => rfl) rfl
  obtain ⟨k₁, hrun₁, hchanges₁, hloads₁⟩ := hpush
  have hvalue : ((m.pushed S b i w).slot b (i + farDirection S)).type ≠ nearType S := by
    rw [Memory.pushed, Memory.stepped_type_second]
    exact (nearType_ne_value S).symm
  have hpop : ∃ k₂, (versioned τ).Reachable (⟨m.swung S b i w, fr⟩, k₂) ∧
      k₂.changes = (tid, b, i + farDirection S) ::
        (tid, b, i + farDirection S + farDirection S) :: k₁.changes ∧
      k₂.loads = (k₁.loaded (m.pushed S b i w) tid S
        ((m.pushed S b i w).view S b (i + farDirection S))).loads :=
    (Comes.pop hrun₁ (h.interior_pushed w) hcut hfr hidle hvalue).finish hidle hcut.view rfl rfl
      rfl (index_ne_far S _) (fun _ => rfl) rfl
  obtain ⟨k₂, hrun₂, hchanges₂, hloads₂⟩ := hpop
  refine ⟨k₂, hrun₂, ?_, fun q hq => ?_⟩
  · rw [hchanges₂, hchanges₁]
  · rw [hloads₂, Notes.loads_loaded hq, hloads₁, Notes.loads_loaded hq]

omit [BufferSize] in
/-- Of the four changes of a round one is a change of the first slot. -/
theorem countSince_round {q : τ} {time : ℕ} {l : List (τ × Address × ℤ)}
    (ht : time ≤ l.length) (hq : q ≠ tid) :
    countSince (fun c => c.1 ≠ q ∧ c.2 = (b, i)) ((tid, b, i + farDirection S) ::
      (tid, b, i + farDirection S + farDirection S) :: (tid, b, i + farDirection S) ::
      (tid, b, i) :: l) time = countSince (fun c => c.1 ≠ q ∧ c.2 = (b, i)) l time + 1 := by
  have hother {j : ℤ} (hj : j ≠ i) :
      decide ((tid, b, j).1 ≠ q ∧ (tid, b, j).2 = (b, i)) = false :=
    decide_eq_false fun h => hj (Prod.mk.inj h.2).2
  have hself : decide ((tid, b, i).1 ≠ q ∧ (tid, b, i).2 = (b, i)) = true :=
    decide_eq_true ⟨hq.symm, rfl⟩
  have hnext : i + farDirection S ≠ i := (index_ne_far S i).symm
  have htwice : i + farDirection S + farDirection S ≠ i := by
    cases S <;> simp only [farDirection] <;> omega
  have hlength : l.length ≤ ((tid, b, i) :: l).length := by simp
  rw [countSince_cons _ (by simp only [List.length_cons]; omega), hother hnext,
    countSince_cons _ (by simp only [List.length_cons]; omega), hother htwice,
    countSince_cons _ (by simp only [List.length_cons]; omega), hother hnext,
    countSince_cons _ ht, hself]
  rfl

/-- Any number of rounds of one thread, all of whose changes are foreign to another one. -/
theorem Memory.Swings.rounds (h : m.Swings S b i)
    (hrun : (versioned τ).Reachable (⟨m, fr⟩, k)) (hfr : ∀ q, (fr q).map Frame.wrap = fr q)
    (hidle : fr tid = none) {q : τ} (hq : q ≠ tid) {time : ℕ} (ht : time ≤ k.changes.length)
    (n : ℕ) : ∃ m' k', (versioned τ).Reachable (⟨m', fr⟩, k') ∧ m'.Swings S b i ∧
      m'.slot b i = ⟨(m.slot b i).word, ((m.slot b i).count + n) % countBound,
        (m.slot b i).type⟩ ∧
      time ≤ k'.changes.length ∧ k'.loads q = k.loads q ∧
      k'.foreign time q b i = k.foreign time q b i + n := by
  induction n with
  | zero =>
    refine ⟨m, k, hrun, h, ?_, ht, rfl, rfl⟩
    have hslot : (m.slot b i).wrap = m.slot b i := h.cut.slot b i
    exact hslot.symm
  | succ n ih =>
    obtain ⟨m', k', hrun', hs', hslot', ht', hloads', hforeign'⟩ := ih
    obtain ⟨k₂, hrun₂, hchanges, hloads⟩ := hs'.round hrun' hfr hidle 0
    obtain ⟨hs₂, hslot₂⟩ := hs'.swung 0
    refine ⟨m'.swung S b i 0, k₂, hrun₂, hs₂, ?_, ?_, ?_, ?_⟩
    · rw [hslot₂, hslot', Nat.mod_add_mod, Nat.add_assoc]
    · rw [hchanges]
      simp only [List.length_cons]
      omega
    · rw [hloads q hq, hloads']
    · rw [Notes.foreign, hchanges, countSince_round ht' hq, ← Notes.foreign, hforeign',
        Nat.add_assoc]

end Solo

variable [BufferSize]

/-- A compare-exchange of a thread that comes next succeeds. What it expects of the slot
was loaded while the buffer was published. -/
structure Succeeding (x : State τ × Notes τ) (tid : τ) (e : Expected) (l : Load) : Prop where
  attempts : ∃ f, x.1.frames tid = some f ∧ f.point.attempts f.side = some e
  succeeds : x.1.mem.Succeeds e
  load : x.2.loads tid e.loc = some l

variable [DecidableEq τ]

/-- When a compare-exchange on a slot succeeds, the changes that other threads have made to
it since it was loaded are a multiple of `2 ^ 30`, and the thread's own ones are in the count
it expects. -/
theorem changes_since_load {x : State τ × Notes τ} {tid : τ} {e : Expected} {l : Load}
    (h : (versioned τ).Reachable x) (he : Succeeding x tid e l) :
    l.buffer = e.buffer ∧ l.index = e.index ∧
      countBound ∣ x.2.foreign l.time tid e.buffer e.index ∧
      e.slot.count ≡ l.slot.count + x.2.own l.time tid e.buffer e.index [MOD countBound] := by
  have hv : Versions x.1 x.2 := versions_of_reachable h
  obtain ⟨f, hf, ha⟩ := he.attempts
  obtain ⟨hb, hi, hcount⟩ := (hv.tracks tid f hf).attempts ha l he.load
  refine ⟨hb, hi, ?_, hcount⟩
  have hmem : (x.1.mem.slot l.buffer l.index).count ≡
      l.slot.count + x.2.all l.time l.buffer l.index [MOD countBound] :=
    (hv.loads tid e.loc l he.load).count
  rw [hb, hi, he.succeeds, Notes.all_eq x.2 l.time tid, ← Nat.add_assoc] at hmem
  have hzero : l.slot.count + x.2.own l.time tid e.buffer e.index + 0 ≡
      l.slot.count + x.2.own l.time tid e.buffer e.index +
        x.2.foreign l.time tid e.buffer e.index [MOD countBound] := hcount.symm.trans hmem
  exact (Nat.modEq_zero_iff_dvd).mp (Nat.ModEq.add_left_cancel' _ hzero).symm

end Rounds

@[reducible] def five : BufferSize := ⟨5, by decide⟩

attribute [local instance] five

/-- The machine at its start. -/
def unversioned : State Bool × Notes Bool := (constructed Bool, ⟨[], fun _ _ => none⟩)

theorem init_unversioned : (versioned Bool).Reachable unversioned := by
  refine .start ⟨⟨init_constructed, fun b i => ?_⟩, rfl⟩
  exact Nat.two_pow_pos 30

/-- Three pushes of a thread, the pop of the last value, and a second pop up to the removal
of the emptied buffer, which it has sealed. -/
def removingCalls : List (Bool × Choice) :=
  List.replicate 14 (false, ⟨(.right, .push 1), 0, 0, 0⟩) ++
    List.replicate 14 (false, ⟨(.right, .push 2), 0, 0, 0⟩) ++
    List.replicate 25 (false, ⟨(.right, .push 3), 1, 0, 0⟩) ++
    List.replicate 30 (false, ⟨(.right, .pop), 0, 0, 0⟩)

def removing : State Bool × Notes Bool :=
  ((versioned Bool).exec (fun _ _ => True) removingCalls unversioned).getD unversioned

theorem reachable_removing : (versioned Bool).Reachable removing :=
  Machine.Run.exec_getD removingCalls init_unversioned

theorem succeeding_removing :
    Succeeding removing false ⟨.near, 0, 3, ⟨2, 3, .value⟩⟩ ⟨0, 3, ⟨2, 2, .value⟩, 8⟩ := by
  have hattempts : (removing.1.frames false).bind (fun f => f.point.attempts f.side) =
      some ⟨.near, 0, 3, ⟨2, 3, .value⟩⟩ := by decide +kernel
  refine ⟨?_, by decide +kernel, by decide +kernel⟩
  exact Option.bind_eq_some_iff.mp hattempts

/-- After the seal the pop expects the near slot with its own change counted. -/
theorem changes_removing :
    removing.2.own 8 false 0 3 = 1 ∧ countBound ∣ removing.2.foreign 8 false 0 3 := by
  have h := changes_since_load reachable_removing succeeding_removing
  exact ⟨by decide +kernel, h.2.2.1⟩

/-- The constructed deque lets the calls at its right end swing. -/
theorem swings_constructed : (constructed Bool).mem.Swings .right 0 1 where
  cut := rfl
  hint := rfl
  localHint := rfl
  inner := ⟨by decide, by decide⟩
  next := ⟨by decide, by decide⟩
  nextFar := by decide
  notFar := by decide
  notSealed := by decide
  far := rfl
  beyond := rfl

/-- A push of a thread that stops before its `casSafe`. -/
def pausedFrames : Bool → Option Frame :=
  Function.update (fun _ => none) false (some ⟨.right, .push 7,
    .safe ((constructed Bool).mem.view .right 0 1) .interiorPush⟩)

theorem wrap_pausedFrames (q : Bool) : (pausedFrames q).map Frame.wrap = pausedFrames q := by
  cases q with
  | false =>
    have hview : ((constructed Bool).mem.view .right 0 1).wrap =
        (constructed Bool).mem.view .right 0 1 := swings_constructed.cut.view
    simp only [pausedFrames, Function.update_self, Option.map_some, Frame.wrap, Point.wrap, hview,
      Attempt.wrap]
  | true => rfl

/-- A compare-exchange succeeds on a slot that the thread itself has changed since it loaded it,
and one on a slot that another thread has changed `2 ^ 30` times in the meantime. -/
theorem slot_changed_since_load :
    (∃ x : State Bool × Notes Bool, (versioned Bool).Reachable x ∧
      ∃ e l, Succeeding x false e l ∧ x.2.own l.time false e.buffer e.index = 1) ∧
    ∃ x : State Bool × Notes Bool, (versioned Bool).Reachable x ∧
      ∃ e l, Succeeding x false e l ∧
        x.2.foreign l.time false e.buffer e.index = countBound := by
  refine ⟨⟨removing, reachable_removing, _, _, succeeding_removing, by decide +kernel⟩, ?_⟩
  let m : Memory Bool := (constructed Bool).mem
  let k : Notes Bool := Notes.loaded ⟨[], fun _ _ => none⟩ m false .right (m.view .right 0 1)
  have hpaused : (versioned Bool).Reachable (⟨m, pausedFrames⟩, k) :=
    (Comes.push init_unversioned swings_constructed.interior swings_constructed.cut
      (fun _ => rfl) rfl 7).run
  have hidle : pausedFrames true = none := rfl
  have hother : false ≠ true := nofun
  have htime : 0 ≤ k.changes.length := Nat.zero_le _
  obtain ⟨m', k', hrun, -, hslot, -, hloads, hforeign⟩ :=
    swings_constructed.rounds hpaused wrap_pausedFrames hidle hother htime countBound
  have hload : k.loads false .near = some ⟨0, 1, m.slot 0 1, 0⟩ := rfl
  refine ⟨(⟨m', pausedFrames⟩, k'), hrun, ⟨.near, 0, 1, m.slot 0 1⟩, ⟨0, 1, m.slot 0 1, 0⟩,
    ⟨⟨_, rfl, rfl⟩, ?_, ?_⟩, ?_⟩
  · rw [Nat.add_mod_right] at hslot
    exact hslot.trans (swings_constructed.cut.slot 0 1)
  · exact (congrFun hloads .near).trans hload
  · exact hforeign.trans (Nat.zero_add _)

end UnboundedDeque.OFDeque
