import UnboundedDeque.StepMachine
import UnboundedDeque.ElimTableMachine
import UnboundedDeque.UIDGenerator

/-!
# The hot potato of `PotatoTest`

The loop of `executeQueue` over a container with atomic operations. The potato is a
negative value or the flag `hot` of a thread. Ids are made as unsigned values and kept as
signed ones, so from `2 ^ 31` on the sign of an id is wrong.
-/
namespace UnboundedDeque.PotatoTest
open StepMachine UIDGenerator

/-- `EMPTY` of `RContainer.hpp`. -/
def EMPTY : Int32 := 0

inductive Point
  | loop
  | act
  | final
  | done
  deriving DecidableEq, Repr

/-- The locals of `executeQueue`; `rand` is `r`. -/
structure Local where
  rand : UInt32
  hot : Bool
  inserting : Int32
  point : Point
  deriving DecidableEq

structure State (n : ℕ) where
  container : List Int32
  locals : Fin n → Local

/-- What a step leaves open: whether the time is up, and the place of the value that
`remove` takes. -/
structure Choice where
  timeUp : Bool
  place : ℕ

variable {n : ℕ}

def State.put (s : State n) (tid : Fin n) (e : Local) : State n :=
  { s with locals := Function.update s.locals tid e }

/-- `inserting = ug->next(inserting,tid)` -/
def nextId (n : ℕ) (inserting : Int32) : Int32 := (next n inserting.toUInt32).toInt32

/-- The value an insert at this point puts into the container. -/
def Local.inserted (e : Local) : Int32 := if e.hot then -1 * e.inserting else e.inserting

/-- The thread is about to insert. -/
def Local.Inserts (e : Local) : Prop := e.hot = true ∨ e.rand % 2 = 0

instance (e : Local) : Decidable e.Inserts := inferInstanceAs (Decidable (_ ∨ _))

/-- One round up to the access of the container. -/
def Local.draw (n : ℕ) (e : Local) : Local :=
  let rand := ElimTable.nextRand e.rand
  if e.hot ∨ rand % 2 = 0 then
    let inserting := nextId n e.inserting
    { e with rand, inserting, point := if inserting = 0 then .final else .act }
  else { e with rand, point := .act }

/-- `remove` has returned this value. -/
def Local.take (e : Local) (j : Int32) : Local :=
  if j = EMPTY then e else { e with hot := e.hot || decide (j < 0), point := .loop }

/-- One step of a thread. -/
def step : Fin n × Choice → State n → Option (State n)
  | (tid, c), s =>
    let e := s.locals tid
    match e.point with
    | .loop => some (s.put tid (if c.timeUp then { e with point := .final } else e.draw n))
    | .act =>
      if e.Inserts then
        some ({ s with container := e.inserted :: s.container }.put tid
          { e with hot := false, point := .loop })
      else if s.container = [] then some (s.put tid (e.take EMPTY))
      else
        s.container[c.place]?.map fun j =>
          { s with container := s.container.eraseIdx c.place }.put tid (e.take j)
    | .final =>
      let inserting := nextId n e.inserting
      some ({ s with container := inserting :: s.container }.put tid
        { e with inserting, point := .done })
    | .done => none

/-- The start with any seeds. -/
structure Init (s : State n) : Prop where
  container : s.container = []
  hot : ∀ tid, (s.locals tid).hot = decide (tid.val = 0)
  inserting : ∀ tid : Fin n, (s.locals tid).inserting = (initial n tid).toInt32
  point : ∀ tid, (s.locals tid).point = .loop

def machine (n : ℕ) : Machine (Fin n × Choice) (State n) where
  init := Init
  step := step

def Local.InLoop (e : Local) : Prop := e.point = .loop ∨ e.point = .act

/-- The threads whose flag is set and the negative values. -/
def State.potatoes (s : State n) : ℕ :=
  (Finset.univ.filter fun tid => (s.locals tid).hot = true).card + s.container.countP (· < 0)

/-- An id that is about to be inserted is below `2 ^ 31`, or `2 ^ 31` itself when the
thread is hot. -/
def IdFits (a : Fin n × Choice) (s : State n) : Prop :=
  let e := s.locals a.1
  e.point = .act → e.Inserts → e.inserting.toUInt32.toNat < 2 ^ 31 ∨
    e.hot = true ∧ e.inserting.toUInt32.toNat = 2 ^ 31

instance (a : Fin n × Choice) (s : State n) : Decidable (IdFits a s) :=
  inferInstanceAs (Decidable (_ → _ → _ ∨ _))

variable {s t : State n} {tid : Fin n} {c : Choice} {e : Local} {x : Int32}

section Signs

theorem toNat_toUInt32 (x : Int32) :
    (x.toInt < 0 ∧ (x.toUInt32.toNat : ℤ) = x.toInt + 2 ^ 32) ∨
      (0 ≤ x.toInt ∧ (x.toUInt32.toNat : ℤ) = x.toInt) := by
  have hlt := x.toUInt32.toNat_lt
  have hval : x.toInt = (x.toUInt32.toNat : ℤ).bmod (2 ^ 32) :=
    BitVec.toInt_eq_toNat_bmod x.toUInt32.toBitVec
  rw [Int.bmod_def] at hval
  omega

theorem neg_iff (x : Int32) : x < 0 ↔ 2 ^ 31 ≤ x.toUInt32.toNat := by
  have hx := toNat_toUInt32 x
  have hlt := x.toInt_lt
  have hle := x.le_toInt
  rw [Int32.lt_iff_toInt_lt, Int32.toInt_zero]
  omega

/-- The sign of a negated id. -/
theorem neg_mul_iff (hx : x ≠ 0) : -1 * x < 0 ↔ x.toUInt32.toNat ≤ 2 ^ 31 := by
  have hcase := toNat_toUInt32 x
  have hlt := x.toInt_lt
  have hle := x.le_toInt
  have hne : x.toInt ≠ 0 := fun h => hx (Int32.toInt_inj.mp h)
  rw [Int32.lt_iff_toInt_lt, Int32.toInt_zero, Int32.toInt_mul]
  have hone : (-1 : Int32).toInt = -1 := by decide
  rw [hone, Int.bmod_def]
  omega

/-- What is inserted is negative exactly when the thread is hot, if the id fits. -/
theorem inserted_neg_iff (h0 : e.inserting ≠ 0) :
    (decide (e.inserted < 0) = e.hot) ↔ e.inserting.toUInt32.toNat < 2 ^ 31 ∨
      e.hot = true ∧ e.inserting.toUInt32.toNat = 2 ^ 31 := by
  unfold Local.inserted
  cases hh : e.hot with
  | false =>
    simp only [Bool.false_eq_true, if_false, decide_eq_false_iff_not, neg_iff, false_and, or_false,
      not_le]
  | true =>
    simp only [if_true, decide_eq_true_eq, neg_mul_iff h0, true_and]
    omega

end Signs

section Steps

/-- A thread about to insert has an id. -/
def Local.Ready (e : Local) : Prop := e.point = .act → e.Inserts → e.inserting ≠ 0

theorem ready_draw (e : Local) : (e.draw n).Ready := by
  intro hp hi
  unfold Local.draw at hp hi ⊢
  dsimp only at hp hi ⊢
  split_ifs at hp hi ⊢ with hins h0
  · exact h0
  · exact absurd hi hins

theorem hot_draw (e : Local) : (e.draw n).hot = e.hot := by
  unfold Local.draw
  dsimp only
  split_ifs <;> rfl

theorem ready_take (he : ¬e.Inserts) (j : Int32) : (e.take j).Ready := by
  intro hp hi
  unfold Local.take at hp hi
  split_ifs at hp hi
  exact absurd hi he

theorem locals_put (s : State n) (tid : Fin n) (e : Local) : (s.put tid e).locals tid = e :=
  Function.update_self _ _ _

theorem locals_put_ne (s : State n) (e : Local) {q : Fin n} (h : q ≠ tid) :
    (s.put tid e).locals q = s.locals q :=
  Function.update_of_ne h _ _

/-- The threads other than one whose flag is set. -/
def State.hotElsewhere (s : State n) (tid : Fin n) : ℕ :=
  (Finset.univ.filter fun q => q ≠ tid ∧ (s.locals q).hot = true).card

theorem potatoes_eq (s : State n) (tid : Fin n) : s.potatoes =
    s.hotElsewhere tid + (s.locals tid).hot.toNat + s.container.countP (· < 0) := by
  have hcard : (Finset.univ.filter fun q => (s.locals q).hot = true).card =
      s.hotElsewhere tid + (s.locals tid).hot.toNat := by
    cases hh : (s.locals tid).hot with
    | false =>
      rw [State.hotElsewhere, Bool.toNat_false, add_zero]
      congr 1
      ext q
      simp only [Finset.mem_filter, Finset.mem_univ, true_and]
      refine ⟨fun hq => ⟨fun he => ?_, hq⟩, And.right⟩
      rw [he, hh] at hq
      cases hq
    | true =>
      have hinsert : (Finset.univ.filter fun q => (s.locals q).hot = true) =
          insert tid (Finset.univ.filter fun q => q ≠ tid ∧ (s.locals q).hot = true) := by
        ext q
        by_cases hq : q = tid
        · simp [hq, hh]
        · simp [hq]
      rw [hinsert, Finset.card_insert_of_notMem (by simp), State.hotElsewhere, Bool.toNat_true]
  rw [State.potatoes, hcard]

theorem hotElsewhere_put (s : State n) (tid : Fin n) (e : Local) (l : List Int32) :
    ({ s with container := l }.put tid e).hotElsewhere tid = s.hotElsewhere tid := by
  unfold State.hotElsewhere
  congr 1
  ext q
  simp only [Finset.mem_filter, Finset.mem_univ, true_and]
  exact and_congr_right fun hq => by rw [locals_put_ne _ _ hq]

/-- What a step of a thread does to the potatoes. -/
theorem potatoes_put (s : State n) (tid : Fin n) (e : Local) (l : List Int32) :
    ({ s with container := l }.put tid e).potatoes =
      s.hotElsewhere tid + e.hot.toNat + l.countP (· < 0) := by
  rw [potatoes_eq _ tid, hotElsewhere_put, locals_put]
  rfl

theorem countP_eraseIdx {l : List Int32} {i : ℕ} {j : Int32} (h : l[i]? = some j) :
    (l.eraseIdx i).countP (· < 0) + (decide (j < 0)).toNat = l.countP (· < 0) := by
  obtain ⟨hi, hj⟩ := List.getElem?_eq_some_iff.mp h
  have hperm := List.getElem_cons_eraseIdx_perm hi
  rw [← hperm.countP_eq, List.countP_cons, hj]
  by_cases hneg : j < 0
  · simp [hneg]
  · simp [hneg]

/-- A value that has been taken makes the thread hot if it is negative. -/
theorem hot_take (hh : e.hot = false) (j : Int32) : (e.take j).hot = decide (j < 0) := by
  unfold Local.take
  split_ifs with h0
  · subst h0
    exact hh
  · rw [hh, Bool.false_or]

end Steps

section Runs

/-- A step of a thread that stays in its loop: it draws, inserts or removes. -/
theorem step_cases (hs : step (tid, c) s = some t) (hin : (t.locals tid).InLoop) :
    ((s.locals tid).point = .loop ∧ ∃ e, t = s.put tid e ∧ e.Ready ∧ e.hot = (s.locals tid).hot) ∨
    ((s.locals tid).point = .act ∧ (s.locals tid).Inserts ∧
      t = { s with container := (s.locals tid).inserted :: s.container }.put tid
        { s.locals tid with hot := false, point := .loop }) ∨
    ((s.locals tid).point = .act ∧ ¬(s.locals tid).Inserts ∧
      ∃ j l, t = { s with container := l }.put tid ((s.locals tid).take j) ∧
        l.countP (· < 0) + (decide (j < 0)).toNat = s.container.countP (· < 0)) := by
  unfold step at hs
  dsimp only at hs
  cases hp : (s.locals tid).point with
  | loop =>
    rw [hp] at hs
    cases hs
    refine .inl ⟨rfl, _, rfl, ?_, ?_⟩
    · split_ifs
      · intro h
        cases h
      · exact ready_draw _
    · split_ifs
      · rfl
      · exact hot_draw _
  | act =>
    rw [hp] at hs
    dsimp only at hs
    split_ifs at hs with hi hc
    · cases hs
      exact .inr (.inl ⟨rfl, hi, rfl⟩)
    · cases hs
      refine .inr (.inr ⟨rfl, hi, EMPTY, s.container, rfl, ?_⟩)
      have hneg : decide (EMPTY < 0) = false := by decide
      rw [hneg, Bool.toNat_false, add_zero]
    · obtain ⟨j, hj, rfl⟩ := Option.map_eq_some_iff.mp hs
      exact .inr (.inr ⟨rfl, hi, j, _, rfl, countP_eraseIdx hj⟩)
  | final =>
    rw [hp] at hs
    cases hs
    rw [locals_put] at hin
    rcases hin with h | h <;> cases h
  | done =>
    rw [hp] at hs
    cases hs

/-- The potatoes stay as many as they are exactly if the id fits. -/
theorem potatoes_step (hs : step (tid, c) s = some t) (hr : (s.locals tid).Ready)
    (hin : (t.locals tid).InLoop) : t.potatoes = s.potatoes ↔ IdFits (tid, c) s := by
  have hsum := potatoes_eq s tid
  rcases step_cases hs hin with ⟨hp, e, rfl, -, hh⟩ | ⟨hp, hi, rfl⟩ | ⟨hp, hi, j, l, rfl, hl⟩
  · have hput := potatoes_put s tid e s.container
    rw [hh, ← hsum] at hput
    exact iff_of_true hput fun hact => by rw [hp] at hact; cases hact
  · have hfits : IdFits (tid, c) s ↔
        decide ((s.locals tid).inserted < 0) = (s.locals tid).hot := by
      rw [inserted_neg_iff (hr hp hi)]
      exact ⟨fun h => h hp hi, fun h _ _ => h⟩
    rw [potatoes_put, hsum, List.countP_cons, hfits]
    cases (s.locals tid).hot <;> by_cases hneg : (s.locals tid).inserted < 0 <;> simp [hneg]
    omega
  · have hhot : (s.locals tid).hot = false := by
      rw [Local.Inserts, not_or] at hi
      exact Bool.not_eq_true _ ▸ hi.1
    rw [potatoes_put, hsum, hot_take hhot, hhot, ← hl, Bool.toNat_false]
    exact iff_of_true (by omega) fun _ h => absurd h hi

/-- A step of another thread leaves the locals. -/
theorem locals_step {q : Fin n} (hs : step (tid, c) s = some t) (hq : q ≠ tid) :
    t.locals q = s.locals q := by
  unfold step at hs
  dsimp only at hs
  cases hp : (s.locals tid).point with
  | loop =>
    rw [hp] at hs
    cases hs
    exact locals_put_ne _ _ hq
  | act =>
    rw [hp] at hs
    dsimp only at hs
    split_ifs at hs
    · cases hs
      exact locals_put_ne _ _ hq
    · cases hs
      exact locals_put_ne _ _ hq
    · obtain ⟨j, -, rfl⟩ := Option.map_eq_some_iff.mp hs
      exact locals_put_ne _ _ hq
  | final =>
    rw [hp] at hs
    cases hs
    exact locals_put_ne _ _ hq
  | done =>
    rw [hp] at hs
    cases hs

/-- A thread that has left its loop does not come back. -/
theorem inLoop_of_step (hs : step (tid, c) s = some t) (hin : ∀ q, (t.locals q).InLoop) :
    ∀ q, (s.locals q).InLoop := by
  intro q
  by_cases hq : q = tid
  · subst hq
    rcases step_cases hs (hin q) with ⟨hp, -⟩ | ⟨hp, -⟩ | ⟨hp, -⟩
    · exact .inl hp
    · exact .inr hp
    · exact .inr hp
  · rw [← locals_step hs hq]
    exact hin q

theorem ready_step (hs : step (tid, c) s = some t) (hr : ∀ q, (s.locals q).Ready)
    (hin : ∀ q, (t.locals q).InLoop) : ∀ q, (t.locals q).Ready := by
  intro q
  by_cases hq : q = tid
  · subst hq
    rcases step_cases hs (hin q) with ⟨-, e, rfl, he, -⟩ | ⟨-, -, rfl⟩ | ⟨-, hi, j, l, rfl, -⟩
    · rw [locals_put]
      exact he
    · rw [locals_put]
      intro h
      cases h
    · rw [locals_put]
      exact ready_take hi j
  · rw [locals_step hs hq]
    exact hr q

theorem potatoes_init (hn : 0 < n) (h : Init s) : s.potatoes = 1 := by
  have hone : (Finset.univ.filter fun tid => (s.locals tid).hot = true) = {⟨0, hn⟩} := by
    ext tid
    simp only [h.hot, Finset.mem_filter, Finset.mem_univ, true_and, decide_eq_true_eq,
      Finset.mem_singleton, Fin.ext_iff]
  rw [State.potatoes, hone, h.container, Finset.card_singleton]
  rfl

/-- As long as no thread has left its loop and all ids that have been inserted fit, there
is one hot potato; an id that does not fit changes the number. -/
theorem one_hot_potato (hn : 0 < n) (h : (machine n).Run IdFits s)
    (hin : ∀ q, (s.locals q).InLoop) : s.potatoes = 1 ∧
      ∀ a t, (machine n).step a s = some t → (∀ q, (t.locals q).InLoop) → ¬IdFits a s →
        t.potatoes ≠ 1 := by
  have hinv : (∀ q, (s.locals q).InLoop) → s.potatoes = 1 ∧ ∀ q, (s.locals q).Ready := by
    refine h.invariant (P := fun s => (∀ q, (s.locals q).InLoop) → s.potatoes = 1 ∧
      ∀ q, (s.locals q).Ready) (fun s hs _ => ⟨potatoes_init hn hs, fun q hp => ?_⟩) ?_
    · rw [hs.point] at hp
      cases hp
    · rintro ⟨tid, c⟩ s t - ih hok hs ht
      obtain ⟨hone, hr⟩ := ih (inLoop_of_step hs ht)
      exact ⟨((potatoes_step hs (hr tid) (ht tid)).mpr hok).trans hone, ready_step hs hr ht⟩
  obtain ⟨hone, hr⟩ := hinv hin
  refine ⟨hone, ?_⟩
  rintro ⟨tid, c⟩ t hs ht hfit he
  exact hfit ((potatoes_step hs (hr tid) (ht tid)).mp (he.trans hone.symm))

instance [Fintype (Fin n)] (s : State n) : Decidable (∀ q, (s.locals q).InLoop) :=
  inferInstanceAs (Decidable (∀ _, _ ∨ _))

/-- The start with one seed for all threads. -/
def start (n : ℕ) (seed : UInt32) : State n where
  container := []
  locals tid := ⟨seed, decide (tid.val = 0), (initial n tid).toInt32, .loop⟩

theorem init_start (n : ℕ) (seed : UInt32) : Init (start n seed) where
  container := rfl
  hot _ := rfl
  inserting _ := rfl
  point _ := rfl

/-- The first thread inserts the potato and the second one takes it. -/
def handedOver : State 2 :=
  ((machine 2).exec IdFits
    ((List.finRange 2).flatMap fun tid => List.replicate 2 (tid, ⟨false, 0⟩))
    (start 2 3)).getD (start 2 3)

theorem handedOver_potatoes : handedOver.potatoes = 1 ∧ (handedOver.locals 1).hot = true := by
  have hrun : (machine 2).Run IdFits handedOver := Machine.Run.exec_getD _ (.start (init_start 2 3))
  exact ⟨(one_hot_potato (by decide) hrun (by decide)).1, by decide⟩

/-- The locals of a thread other than the first one after its first draw. -/
def drawn (n tid : ℕ) (seed : UInt32) : Local :=
  Local.draw n ⟨seed, false, (initial n tid).toInt32, .loop⟩

theorem step_draw (hp : (s.locals tid).point = .loop) :
    step (tid, ⟨false, 0⟩) s = some (s.put tid ((s.locals tid).draw n)) := by
  simp only [step, hp, Bool.false_eq_true, if_false]

theorem step_insert (hp : (s.locals tid).point = .act) (hi : (s.locals tid).Inserts) :
    step (tid, c) s = some ({ s with container := (s.locals tid).inserted :: s.container }.put tid
      { s.locals tid with hot := false, point := .loop }) := by
  simp only [step, hp, if_pos hi]

/-- An insert of an id that does not fit makes a second potato or loses the only one. -/
theorem reachable_not_one (h : (machine n).Reachable s) (hone : s.potatoes = 1)
    (hin : ∀ q, (s.locals q).InLoop) (hp : (s.locals tid).point = .act)
    (hi : (s.locals tid).Inserts) (h0 : (s.locals tid).inserting ≠ 0)
    (hfit : ¬IdFits (tid, ⟨false, 0⟩) s) :
    ∃ t, (machine n).Reachable t ∧ (∀ q, (t.locals q).InLoop) ∧ t.potatoes ≠ 1 := by
  have hs := step_insert (c := ⟨false, 0⟩) hp hi
  have hloop : ∀ q, (({ s with container := (s.locals tid).inserted :: s.container }.put tid
      { s.locals tid with hot := false, point := .loop }).locals q).InLoop := by
    intro q
    by_cases hq : q = tid
    · subst hq
      rw [locals_put]
      exact .inl rfl
    · rw [locals_put_ne _ _ hq]
      exact hin q
  refine ⟨_, .step (a := (tid, ⟨false, 0⟩)) h trivial hs, hloop, fun he => hfit ?_⟩
  exact (potatoes_step hs (fun _ _ => h0) (hloop tid)).mp (he.trans hone.symm)

/-- The state after the first draw of a thread other than the first one. -/
theorem reachable_drawn (tid : Fin n) (h0 : tid.val ≠ 0) (seed : UInt32)
    (hp : (drawn n tid seed).point = .act) : ∃ s, (machine n).Reachable s ∧ s.potatoes = 1 ∧
      (∀ q, (s.locals q).InLoop) ∧ s.locals tid = drawn n tid seed := by
  have hinit := init_start n seed
  have hlocal : (start n seed).locals tid = ⟨seed, false, (initial n tid).toInt32, .loop⟩ := by
    simp only [start, h0, decide_false]
  have hloop : ((start n seed).locals tid).point = .loop := by rw [hlocal]
  have hs := step_draw hloop
  rw [hlocal] at hs
  have hin : ∀ q, (((start n seed).put tid (drawn n tid seed)).locals q).InLoop := by
    intro q
    by_cases hq : q = tid
    · subst hq
      rw [locals_put]
      exact .inr hp
    · rw [locals_put_ne _ _ hq]
      exact .inl (hinit.point q)
  refine ⟨_, .step (a := (tid, ⟨false, 0⟩)) (.start hinit) trivial hs, ?_, hin, locals_put _ _ _⟩
  have hready : ((start n seed).locals tid).Ready := fun h => by
    rw [hloop] at h
    cases h
  rw [(potatoes_step hs hready (hin tid)).mpr, potatoes_init tid.pos hinit]
  intro h
  rw [hloop] at h
  cases h

theorem drawn_second (hinc : inc n = 1073741824) :
    drawn n 1 0 = ⟨0, false, -2147483647, .act⟩ := by
  simp only [drawn, Local.draw, nextId, next, initial, hinc]
  decide

/-- With `2 ^ 29` threads the first id of the second thread is a negative value. -/
theorem two_potatoes : ¬∀ n < 2 ^ 30, 0 < n → ∀ s : State n, (machine n).Reachable s →
    (∀ q, (s.locals q).InLoop) → s.potatoes = 1 := by
  intro hall
  obtain ⟨n, hn, hlt⟩ : ∃ n, n = 2 ^ 29 ∧ n < 2 ^ 30 := ⟨2 ^ 29, rfl, by norm_num⟩
  have hone : 1 < n := by omega
  have hinc : inc n = 1073741824 := by
    rw [← UInt32.toNat_inj, toNat_inc hlt, hn, tidBits_two_pow]
    decide
  have hsecond := drawn_second hinc
  obtain ⟨s, hs, hpot, hin, hlocal⟩ :=
    reachable_drawn (n := n) ⟨1, hone⟩ Nat.one_ne_zero 0 (by rw [hsecond])
  rw [hsecond] at hlocal
  have hunfit : ¬IdFits (⟨1, hone⟩, ⟨false, 0⟩) s := by
    rw [IdFits, hlocal]
    decide
  obtain ⟨t, ht, hloop, hne⟩ := reachable_not_one hs hpot hin (by rw [hlocal])
    (by rw [hlocal]; decide) (by rw [hlocal]; decide) hunfit
  exact hne (hall n hlt (by omega) t ht hloop)

end Runs

end UnboundedDeque.PotatoTest
