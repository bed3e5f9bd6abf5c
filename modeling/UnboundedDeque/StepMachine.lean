import Mathlib

/-!
# Labelled step machines and their runs

A machine gives its start states and, for each label, a partial step function.
A label names the actor that moves together with everything the actor's step
leaves open, so a list of labels determines a run and can be executed. Runs are
taken relative to a condition on the label and on the state before each step.
-/
namespace StepMachine

structure Machine (ι σ : Type*) where
  init : σ → Prop
  step : ι → σ → Option σ

variable {ι σ : Type*}

/-- States ending a run all of whose steps meet `ok`. -/
inductive Machine.Run (M : Machine ι σ) (ok : ι → σ → Prop) : σ → Prop
  | start {s : σ} (init : M.init s) : M.Run ok s
  | step {s t : σ} {a : ι} (prior : M.Run ok s) (cond : ok a s)
      (move : M.step a s = some t) : M.Run ok t

/-- States ending an arbitrary run. -/
def Machine.Reachable (M : Machine ι σ) (s : σ) : Prop := M.Run (fun _ _ => True) s

/-- Execution of a list of labels; `none` if some label is not enabled or does
not meet the condition. -/
def Machine.exec (M : Machine ι σ) (ok : ι → σ → Prop) [∀ a s, Decidable (ok a s)] :
    List ι → σ → Option σ
  | [], s => some s
  | a :: as, s => if ok a s then (M.step a s).bind (M.exec ok as) else none

variable {κ : Type*} {M : Machine ι σ} {ok ok' : ι → σ → Prop}

/-- What holds at the start and is kept by every step that meets the condition
holds after every run. -/
theorem Machine.Run.invariant {P : σ → Prop} (base : ∀ s, M.init s → P s)
    (keep : ∀ a s t, M.Run ok s → P s → ok a s → M.step a s = some t → P t)
    {s : σ} (h : M.Run ok s) : P s := by
  induction h with
  | start init => exact base _ init
  | step prior cond move ih => exact keep _ _ _ prior ih cond move

theorem Machine.Run.mono (weaker : ∀ a s, ok a s → ok' a s) {s : σ} (h : M.Run ok s) :
    M.Run ok' s := by
  induction h with
  | start init => exact .start init
  | step _ cond move ih => exact .step ih (weaker _ _ cond) move

theorem Machine.Run.reachable {s : σ} (h : M.Run ok s) : M.Reachable s :=
  h.mono fun _ _ _ => trivial

/-- An executed list of labels with a stronger condition continues a run. -/
theorem Machine.Run.exec_stronger [∀ a s, Decidable (ok' a s)]
    (stronger : ∀ a s, ok' a s → ok a s) {as : List ι} {s t : σ} (h : M.Run ok s)
    (he : M.exec ok' as s = some t) : M.Run ok t := by
  induction as generalizing s with
  | nil =>
    rw [Machine.exec, Option.some.injEq] at he
    exact he ▸ h
  | cons a as ih =>
    rw [Machine.exec] at he
    split_ifs at he with hok
    obtain ⟨u, hu, ht⟩ := Option.bind_eq_some_iff.mp he
    exact ih (.step h (stronger a s hok) hu) ht

theorem Machine.Run.exec [∀ a s, Decidable (ok a s)] {as : List ι} {s t : σ} (h : M.Run ok s)
    (he : M.exec ok as s = some t) : M.Run ok t :=
  h.exec_stronger (fun _ _ hok => hok) he

/-- What is kept by every step of a run holds after an executed list of labels
if it holds before. -/
theorem Machine.Run.exec_invariant [∀ a s, Decidable (ok a s)] {P : σ → Prop}
    (keep : ∀ a s t, M.Run ok s → P s → ok a s → M.step a s = some t → P t)
    {as : List ι} {s t : σ} (h : M.Run ok s) (hp : P s) (he : M.exec ok as s = some t) : P t := by
  induction as generalizing s with
  | nil =>
    rw [Machine.exec, Option.some.injEq] at he
    exact he ▸ hp
  | cons a as ih =>
    rw [Machine.exec] at he
    split_ifs at he with hok
    obtain ⟨u, hu, ht⟩ := Option.bind_eq_some_iff.mp he
    exact ih (.step h hok hu) (keep a s u h hp hok hu) ht

/-- The state after an executed list of labels, or the same state. -/
theorem Machine.Run.exec_getD [∀ a s, Decidable (ok a s)] (as : List ι) {s : σ} (h : M.Run ok s) :
    M.Run ok ((M.exec ok as s).getD s) := by
  cases he : M.exec ok as s with
  | none => exact h
  | some t => exact h.exec he

/-- The machine together with an account of its steps, which is kept from the
label and the states before and after a step and does not influence them. -/
def Machine.account (M : Machine ι σ) (begin : κ) (note : ι → σ → σ → κ → κ) :
    Machine ι (σ × κ) where
  init s := M.init s.1 ∧ s.2 = begin
  step a s := (M.step a s.1).map fun t => (t, note a s.1 t s.2)

theorem Machine.account_step {begin : κ} {note : ι → σ → σ → κ → κ} {a : ι} {s t : σ × κ} :
    (M.account begin note).step a s = some t ↔
      M.step a s.1 = some t.1 ∧ t.2 = note a s.1 t.1 s.2 := by
  obtain ⟨t, k⟩ := t
  simp only [Machine.account, Option.map_eq_some_iff, Prod.mk.injEq]
  constructor
  · rintro ⟨u, hu, rfl, rfl⟩
    exact ⟨hu, rfl⟩
  · rintro ⟨ht, rfl⟩
    exact ⟨t, ht, rfl, rfl⟩

/-- A run with an account is a run of the machine. -/
theorem Machine.Run.reachable_of_account {begin : κ} {note : ι → σ → σ → κ → κ}
    {ok : ι → σ × κ → Prop} {s : σ × κ} (h : (M.account begin note).Run ok s) :
    M.Reachable s.1 := by
  apply h.invariant
  · intro s hs
    exact .start hs.1
  · intro a s t _ hr _ hs
    exact .step hr trivial (account_step.mp hs).1

/-- The same where the condition is about the machine alone. -/
theorem Machine.Run.of_account {begin : κ} {note : ι → σ → σ → κ → κ} {s : σ × κ}
    (h : (M.account begin note).Run (fun a u => ok a u.1) s) : M.Run ok s.1 := by
  apply h.invariant
  · intro s hs
    exact .start hs.1
  · intro a s t _ hr hok hs
    exact .step hr hok (account_step.mp hs).1

/-- A run with an account is also a run with another account. -/
theorem Machine.Run.add_account {μ : Type*} {begin : κ} {note : ι → σ → σ → κ → κ} {x : σ × κ}
    (ok : ι → σ → Prop) (begin' : μ) (note' : ι → σ → σ → μ → μ)
    (h : (M.account begin note).Run (fun a x => ok a x.1) x) :
    ∃ y, ((M.account begin' note').account begin fun a u v => note a u.1 v.1).Run
      (fun a x => ok a x.1.1) ((x.1, y), x.2) := by
  apply h.invariant
  · intro x hx
    exact ⟨begin', .start ⟨⟨hx.1, rfl⟩, hx.2⟩⟩
  · intro a x x' _ ⟨y, hy⟩ hok hs
    obtain ⟨hst, hk⟩ := account_step.mp hs
    exact ⟨note' a x.1 x'.1 y, .step hy hok (account_step.mpr ⟨account_step.mpr ⟨hst, rfl⟩, hk⟩)⟩

end StepMachine
