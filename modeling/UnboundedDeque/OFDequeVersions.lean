import UnboundedDeque.OFDequeRuns

/-!
# Slot versions of 30 bits

`m_count` of a slot has 30 bits. The machine of the operations is taken with counts
that wrap around, and an account keeps all successful compare-exchanges on slots and the
loads that fill the locals of `doPush` and `doPop`. A compare-exchange succeeds only if
the changes that other threads have made since the load are a multiple of `2 ^ 30`.
-/
namespace UnboundedDeque.OFDeque
open StepMachine

/-- The number of values of `m_count`. -/
def countBound : ℕ := 2 ^ 30

def Slot.wrap (x : Slot) : Slot := { x with count := x.count % countBound }

/-- The count of a `GlobalHint` is a `uint32_t`. -/
def Hint.wrap (h : Hint) : Hint := { h with count := h.count % 2 ^ 32 }

def View.wrap (v : View) : View := { v with near := v.near.wrap, far := v.far.wrap }

def Attempt.wrap : Attempt → Attempt
  | .straddle n reach => .straddle n reach.wrap
  | .seal n reach => .seal n reach.wrap
  | k => k

def Point.wrap : Point → Point
  | .far h b i x => .far h b i x.wrap
  | .alloc v => .alloc v.wrap
  | .initLeft v n => .initLeft v.wrap n
  | .initRight v n => .initRight v.wrap n
  | .fill v n i => .fill v.wrap n i
  | .insertLink v n => .insertLink v.wrap n
  | .insertValue v n => .insertValue v.wrap n
  | .reach v => .reach v.wrap
  | .back v r => .back v.wrap r.wrap
  | .recheck v k => .recheck v.wrap k.wrap
  | .safe v k => .safe v.wrap k.wrap
  | .effect v k => .effect v.wrap k.wrap
  | .updThreshold v n R => .updThreshold v.wrap n R
  | .updLoad v n R threshold => .updLoad v.wrap n R threshold
  | .updFirst v n u => .updFirst v.wrap n u
  | .updSecond v n u n0 => .updSecond v.wrap n u n0.wrap
  | .updThird v n u n0 n1 => .updThird v.wrap n u n0.wrap n1.wrap
  | .updLink v n u i => .updLink v.wrap n u i
  | .updReserve v n u p => .updReserve v.wrap n u p
  | .updValidate v n u p => .updValidate v.wrap n u p
  | .updCas v n u => .updCas v.wrap n u
  | .retire v n => .retire v.wrap n
  | p => p

/-- The memory with its counts cut to their bits. -/
def Memory.wrap {τ : Type*} (m : Memory τ) : Memory τ :=
  { m with slot := fun b i => (m.slot b i).wrap, hint := fun S => (m.hint S).wrap }

def Frame.wrap (f : Frame) : Frame := { f with point := f.point.wrap }

def State.wrap {τ : Type*} (s : State τ) : State τ :=
  ⟨s.mem.wrap, fun tid => (s.frames tid).map Frame.wrap⟩

/-- The three locals of a round that hold a slot. -/
inductive Local
  | near | far | reach
  deriving DecidableEq

/-- A local with the place of its slot, as a later compare-exchange expects it. -/
structure Expected where
  loc : Local
  buffer : Address
  index : ℤ
  slot : Slot
  deriving DecidableEq

/-- A load of a slot of a published buffer. `time` is the number of changes before it. -/
structure Load where
  buffer : Address
  index : ℤ
  slot : Slot
  time : ℕ
  deriving DecidableEq

/-- The account: the successful compare-exchanges on slots, the latest one first, and
the loads of each thread. -/
@[ext] structure Notes (τ : Type*) where
  changes : List (τ × Address × ℤ)
  loads : τ → Local → Option Load

variable {τ : Type*}

def Attempt.safeLocal : Attempt → Local
  | .interiorPop | .boundaryPop => .far
  | _ => .near

def Attempt.targetLocal : Attempt → Local
  | .interiorPush | .append _ | .remove _ => .far
  | .straddle _ _ | .seal _ _ => .reach
  | .interiorPop | .boundaryPop => .near

variable [BufferSize]

/-- The compare-exchange on a slot that comes next. -/
def Point.attempts (S : Side) : Point → Option Expected
  | .safe v k =>
    let (b, i, x) := k.safe S v
    some ⟨k.safeLocal, b, i, x⟩
  | .effect v k =>
    let (b, i, x) := k.target S v
    some ⟨k.targetLocal, b, i, x⟩
  | _ => none

/-- The load of one of the three locals that comes next. -/
def Point.loading (S : Side) : Point → Option (Local × Address × ℤ)
  | .near _ b i => some (.near, b, i)
  | .far _ b i _ => some (.far, b, i + farDirection S)
  | .reach v => some (.reach, v.far.word, nearValue S)
  | _ => none

/-- The compare-exchange succeeds. -/
def Memory.Succeeds (m : Memory τ) (e : Expected) : Prop := m.slot e.buffer e.index = e.slot

instance (m : Memory τ) (e : Expected) : Decidable (m.Succeeds e) :=
  inferInstanceAs (Decidable (_ = _))

/-- The changes after a step of a thread at a point. -/
def noteChange (m : Memory τ) (tid : τ) (S : Side) (p : Point)
    (changes : List (τ × Address × ℤ)) : List (τ × Address × ℤ) :=
  match p.attempts S with
  | some e => if m.Succeeds e then (tid, e.buffer, e.index) :: changes else changes
  | none => changes

variable [DecidableEq τ]

/-- The loads of a thread after its step. -/
def noteLoad (m : Memory τ) (time : ℕ) (S : Side) (p : Point) (loads : Local → Option Load) :
    Local → Option Load :=
  match p.loading S with
  | some (loc, b, i) => Function.update loads loc
    (if m.owner b = .published then some ⟨b, i, m.slot b i, time⟩ else none)
  | none => loads

/-- The account after a step of a thread at a point. -/
def Notes.after (k : Notes τ) (m : Memory τ) (tid : τ) (S : Side) (p : Point) : Notes τ where
  changes := noteChange m tid S p k.changes
  loads := Function.update k.loads tid (noteLoad m k.changes.length S p (k.loads tid))

def noteSlots (a : τ × Choice) (s _t : State τ) (k : Notes τ) : Notes τ :=
  match s.frames a.1 with
  | none => k
  | some f => k.after s.mem a.1 f.side f.point

/-- The machine with counts of their bits. -/
def wrapped (τ : Type*) [DecidableEq τ] : Machine (τ × Choice) (State τ) where
  init s := Init s ∧ ∀ b i, (s.mem.slot b i).count < countBound
  step a s := (step a s).map State.wrap

/-- The machine together with the account. -/
def versioned (τ : Type*) [DecidableEq τ] : Machine (τ × Choice) (State τ × Notes τ) :=
  (wrapped τ).account ⟨[], fun _ _ => none⟩ noteSlots

/-- The changes since a time of those that are singled out. -/
def countSince {α : Type*} (p : α → Bool) (changes : List α) (time : ℕ) : ℕ :=
  (changes.take (changes.length - time)).countP p

/-- The changes a thread has made to a slot since a time. -/
def Notes.own (k : Notes τ) (time : ℕ) (tid : τ) (b : Address) (i : ℤ) : ℕ :=
  countSince (fun c => c = (tid, b, i)) k.changes time

/-- The changes other threads have made to a slot since a time. -/
def Notes.foreign (k : Notes τ) (time : ℕ) (tid : τ) (b : Address) (i : ℤ) : ℕ :=
  countSince (fun c => c.1 ≠ tid ∧ c.2 = (b, i)) k.changes time

/-- All changes of a slot since a time. -/
def Notes.all (k : Notes τ) (time : ℕ) (b : Address) (i : ℤ) : ℕ :=
  countSince (fun c => c.2 = (b, i)) k.changes time

section Counts

omit [BufferSize]

variable {α : Type*} {p : α → Bool} {l : List α} {time : ℕ}

omit [DecidableEq τ] in
theorem countSince_cons (c : α) (h : time ≤ l.length) :
    countSince p (c :: l) time = countSince p l time + if p c then 1 else 0 := by
  have hsub : (c :: l).length - time = l.length - time + 1 := by
    rw [List.length_cons]
    omega
  rw [countSince, hsub, List.take_succ_cons, List.countP_cons, countSince]

omit [DecidableEq τ] in
theorem countSince_length : countSince p l l.length = 0 := by
  rw [countSince, Nat.sub_self, List.take_zero, List.countP_nil]

/-- A change of a slot is one's own or another thread's. -/
theorem Notes.all_eq (k : Notes τ) (time : ℕ) (tid : τ) (b : Address) (i : ℤ) :
    k.all time b i = k.own time tid b i + k.foreign time tid b i := by
  unfold Notes.all Notes.own Notes.foreign countSince
  induction k.changes.take (k.changes.length - time) with
  | nil => rfl
  | cons c l ih =>
    obtain ⟨q, x⟩ := c
    rw [List.countP_cons, List.countP_cons, List.countP_cons, ih]
    by_cases hx : x = (b, i)
    · by_cases hq : q = tid
      · simp [hx, hq]
        omega
      · simp [hx, hq]
        omega
    · simp [hx]

end Counts

section Account

variable {m : Memory τ} {k : Notes τ} {tid q : τ} {S : Side} {p : Point} {e : Expected}
  {l : Load} {loc : Local} {b : Address} {i : ℤ}

/-- What a thread expects of a slot is what it has loaded, with its own changes counted. -/
def Notes.Expects (k : Notes τ) (tid : τ) (e : Expected) : Prop :=
  ∀ l, k.loads tid e.loc = some l → l.buffer = e.buffer ∧ l.index = e.index ∧
    e.slot.count ≡ l.slot.count + k.own l.time tid e.buffer e.index [MOD countBound]

/-- The count of a slot goes with its changes since a load. -/
structure Load.Ok (m : Memory τ) (k : Notes τ) (l : Load) : Prop where
  published : m.owner l.buffer = .published
  time : l.time ≤ k.changes.length
  count : (m.slot l.buffer l.index).count ≡
    l.slot.count + k.all l.time l.buffer l.index [MOD countBound]

theorem Notes.after_quiet (ha : p.attempts S = none) (hl : p.loading S = none) :
    k.after m tid S p = k := by
  rw [Notes.after, noteChange, ha, noteLoad, hl]
  exact congrArg _ (Function.update_eq_self _ _)

theorem Notes.loads_attempt (ha : p.attempts S = some e) :
    (k.after m tid S p).loads = k.loads := by
  have hl : p.loading S = none := by
    cases p with
    | near | far | reach => cases ha
    | _ => rfl
  rw [Notes.after, noteLoad, hl]
  exact Function.update_eq_self _ _

theorem Notes.after_missed (ha : p.attempts S = some e) (hs : ¬m.Succeeds e) :
    k.after m tid S p = k := by
  refine Notes.ext ?_ (Notes.loads_attempt ha)
  rw [Notes.after, noteChange, ha]
  exact if_neg hs

theorem Notes.changes_success (ha : p.attempts S = some e) (hs : m.Succeeds e) :
    (k.after m tid S p).changes = (tid, e.buffer, e.index) :: k.changes := by
  rw [Notes.after, noteChange, ha]
  exact if_pos hs

/-- The account grows by one change at most. -/
theorem Notes.changes_cases : (k.after m tid S p).changes = k.changes ∨
    ∃ e, p.attempts S = some e ∧ m.Succeeds e ∧
      (k.after m tid S p).changes = (tid, e.buffer, e.index) :: k.changes := by
  cases ha : p.attempts S with
  | none => exact .inl (by rw [Notes.after, noteChange, ha])
  | some e =>
    by_cases hs : m.Succeeds e
    · exact .inr ⟨e, rfl, hs, Notes.changes_success ha hs⟩
    · refine .inl ?_
      rw [Notes.after, noteChange, ha]
      exact if_neg hs

theorem Notes.loads_other (hq : q ≠ tid) : (k.after m tid S p).loads q = k.loads q :=
  Function.update_of_ne hq _ _

/-- A load is an earlier one or the one of this step. -/
theorem Notes.loads_cases (h : (k.after m tid S p).loads q loc = some l) :
    k.loads q loc = some l ∨ q = tid ∧ p.loading S = some (loc, l.buffer, l.index) ∧
      m.owner l.buffer = .published ∧ l.slot = m.slot l.buffer l.index ∧
        l.time = k.changes.length := by
  by_cases hq : q = tid
  · subst hq
    simp only [Notes.after, Function.update_self, noteLoad] at h
    cases hl : p.loading S with
    | none =>
      rw [hl] at h
      exact .inl h
    | some x =>
      obtain ⟨loc', b, i⟩ := x
      rw [hl] at h
      dsimp only at h
      by_cases hloc : loc = loc'
      · subst hloc
        rw [Function.update_self] at h
        split_ifs at h with ho
        cases h
        exact .inr ⟨rfl, rfl, ho, rfl, rfl⟩
      · rw [Function.update_of_ne hloc] at h
        exact .inl h
  · exact .inl (Notes.loads_other hq ▸ h)

/-- The own changes of a thread are kept by the steps of the others. -/
theorem Notes.own_other (hq : q ≠ tid) {time : ℕ} (ht : time ≤ k.changes.length) :
    (k.after m tid S p).own time q b i = k.own time q b i := by
  have hcases : (k.after m tid S p).changes = k.changes ∨ ∃ e, p.attempts S = some e ∧
      m.Succeeds e ∧ (k.after m tid S p).changes = (tid, e.buffer, e.index) :: k.changes :=
    Notes.changes_cases
  rcases hcases with h | ⟨e, -, -, h⟩
  · rw [Notes.own, h, Notes.own]
  · have hne : ¬(tid, e.buffer, e.index) = (q, b, i) := fun he => hq (Prod.mk.inj he).1.symm
    rw [Notes.own, h, countSince_cons _ ht, decide_eq_false hne, Notes.own]
    simp

end Account

section Expectations

variable {m : Memory τ} {k : Notes τ} {tid q : τ} {S : Side} {p : Point} {e e' : Expected}
  {loc : Local} {b : Address} {i : ℤ} {x : Slot}

/-- No load of a thread is later than the account. -/
def Notes.Timely (k : Notes τ) (tid : τ) : Prop :=
  ∀ loc l, k.loads tid loc = some l → l.time ≤ k.changes.length

theorem Notes.expects_load (ha : p.attempts S = none) (hl : p.loading S = some (loc, b, i)) :
    (k.after m tid S p).Expects tid ⟨loc, b, i, m.slot b i⟩ := by
  intro l h
  have hchanges : (k.after m tid S p).changes = k.changes := by
    rw [Notes.after, noteChange, ha]
  simp only [Notes.after, Function.update_self, noteLoad, hl] at h
  split_ifs at h
  cases h
  refine ⟨rfl, rfl, ?_⟩
  rw [Notes.own, hchanges, countSince_length]
  rfl

/-- A load leaves the other locals as they are. -/
theorem Notes.Expects.load_other (h : k.Expects tid e) (ha : p.attempts S = none)
    (hl : p.loading S = some (loc, b, i)) (hne : e.loc ≠ loc) :
    (k.after m tid S p).Expects tid e := by
  intro l h'
  have hchanges : (k.after m tid S p).changes = k.changes := by
    rw [Notes.after, noteChange, ha]
  simp only [Notes.after, Function.update_self, noteLoad, hl, Function.update_of_ne hne] at h'
  rw [Notes.own, hchanges]
  exact h l h'

/-- A change of another slot. -/
theorem Notes.Expects.change (h : k.Expects tid e) (ht : k.Timely tid)
    (ha : p.attempts S = some e') (hs : m.Succeeds e')
    (hne : e'.buffer ≠ e.buffer ∨ e'.index ≠ e.index) : (k.after m tid S p).Expects tid e := by
  intro l hl
  rw [Notes.loads_attempt ha] at hl
  have hplace : ¬(tid, e'.buffer, e'.index) = (tid, e.buffer, e.index) := by
    intro he
    simp only [Prod.mk.injEq, true_and] at he
    exact hne.elim (fun h => h he.1) fun h => h he.2
  rw [Notes.own, Notes.changes_success ha hs, countSince_cons _ (ht _ l hl),
    decide_eq_false hplace]
  exact h l hl

/-- A change of the slot itself is counted. -/
theorem Notes.Expects.count (h : k.Expects tid e) (ht : k.Timely tid)
    (ha : p.attempts S = some e') (hs : m.Succeeds e')
    (hplace : e'.buffer = e.buffer ∧ e'.index = e.index) (hx : x.count = e.slot.count + 1) :
    (k.after m tid S p).Expects tid { e with slot := x } := by
  intro l hl
  rw [Notes.loads_attempt ha] at hl
  obtain ⟨hb, hi, hcount⟩ := h l hl
  refine ⟨hb, hi, ?_⟩
  rw [Notes.own, Notes.changes_success ha hs, countSince_cons _ (ht _ l hl), hplace.1, hplace.2,
    decide_eq_true rfl, hx]
  exact hcount.add_right 1

/-- The steps of the other threads keep what a thread expects. -/
theorem Notes.Expects.other (h : k.Expects q e) (ht : k.Timely q) (hq : q ≠ tid) :
    (k.after m tid S p).Expects q e := by
  intro l hl
  rw [Notes.loads_other hq] at hl
  rw [Notes.own_other hq (ht _ l hl)]
  exact h l hl

omit [BufferSize] in
theorem Notes.Expects.congr (h : k.Expects tid e) (hx : x.count ≡ e.slot.count [MOD countBound]) :
    k.Expects tid { e with slot := x } := by
  intro l hl
  obtain ⟨hb, hi, hcount⟩ := h l hl
  exact ⟨hb, hi, hx.trans hcount⟩

omit [BufferSize] in
theorem Notes.Expects.wrap (h : k.Expects tid e) :
    k.Expects tid { e with slot := e.slot.wrap } :=
  h.congr (Nat.mod_modEq _ _)

end Expectations

end UnboundedDeque.OFDeque
