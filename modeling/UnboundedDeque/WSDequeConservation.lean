import UnboundedDeque.WSDequeSteps

/-!
# No value of the work-stealing deque is lost or returned twice

`deque_t::pop` leaves `bottom` below `top` when its compare-exchange fails, and
a push that starts in that state stores a value no later call can reach. In all
other runs the deque is the atomic deque of its log.
-/
namespace UnboundedDeque.WSDeque
open StepMachine

variable {T τ : Type*}

section Machine
variable [DecidableEq τ] [Fintype τ]

theorem run_inv {logsize : ℕ} {s : State T τ} (h : (machine logsize T τ).Run Restored s) :
    ∃ r, Inv s r := by
  refine h.invariant (fun _ => Inv.init) fun l s s' _ ih ok hs => ?_
  obtain ⟨r, hr⟩ := ih
  cases l with
  | owner c => exact hr.ownerStep ok hs
  | thief k spurious => exact ⟨r, hr.thiefStep hs⟩
  | free a =>
    simp only [machine, step] at hs
    split_ifs at hs with hfree
    exact ⟨r, hr.freeStep hfree hs⟩

/-- In every run in which `push` never starts below `top`, each value pushed is
taken at most once, and whenever the owner is between operations the values
pushed and not taken are the entries of the active ring, in push order. -/
theorem entries_are_pushed_not_taken {logsize : ℕ} {s : State T τ}
    (h : (machine logsize T τ).Run Restored s) :
    ∃ q, Replays s.log q ∧ (taken s.log ++ q).Perm (pushed s.log) ∧
      (s.owner = .idle → q = s.entries) := by
  obtain ⟨r, hr⟩ := run_inv h
  refine ⟨_, hr.contents, hr.contents.perm, fun hidle => ?_⟩
  simp only [State.entries, hr.active, State.limit, hidle]

end Machine

/-- `deque_t(10, haz)`, with ring cells of value 0. -/
def start (T τ : Type*) [Zero T] : State T τ where
  top := 0
  bottom := 0
  activeArray := 0
  rings := Function.update (fun _ => none) 0 (some ⟨10, fun _ => 0⟩)
  retired := []
  hazard := fun _ => none
  owner := .idle
  thief := fun _ => .idle
  log := []

theorem start_init [Zero T] : Init 10 (start T τ) :=
  have unused : ∀ a, a ≠ 0 → (start T τ).rings a = none := fun a ha => by simp [start, ha]
  ⟨rfl, rfl, ⟨_, rfl⟩, unused, rfl, rfl, fun _ => rfl, rfl⟩

/-- The owner's next `k` steps; an idle owner makes the call `call`. -/
def ownerRun (call : Option ℕ) (k : ℕ) : List (Label ℕ (Fin 1)) :=
  List.replicate k (.owner ⟨call, 1, fun _ => 0, false⟩)

def thiefRun (k : ℕ) : List (Label ℕ (Fin 1)) := List.replicate k (.thief 0 false)

/-- A condition that can be decided and implies `Restored`. -/
def Careful (l : Label T τ) (s : State T τ) : Prop :=
  match l with
  | .owner c => c.spurious = false ∧ (c.call.isSome = true → s.top ≤ s.bottom)
  | _ => True

instance (l : Label T τ) (s : State T τ) : Decidable (Careful l s) :=
  match l with
  | .owner _ => inferInstanceAs (Decidable (_ ∧ _))
  | .thief _ _ => .isTrue trivial
  | .free _ => .isTrue trivial

theorem restored_of_careful {l : Label T τ} {s : State T τ} (h : Careful l s) : Restored l s := by
  cases l with
  | owner c =>
    unfold Restored
    cases s.owner with
    | idle => exact h.2
    | popCas t o => exact fun _ => h.1
    | _ => trivial
  | _ => trivial

/-- `deque_t(1, haz)`, whose ring grows at the second push. -/
def smallStart : State ℕ (Fin 1) :=
  { start ℕ (Fin 1) with rings := fun a => if a = 0 then some ⟨1, fun _ => 0⟩ else none }

theorem init_smallStart : Init 1 smallStart :=
  ⟨rfl, rfl, ⟨_, rfl⟩, fun _ ha => if_neg ha, rfl, rfl, fun _ => rfl, rfl⟩

/-- The ring grows after a thief has read its address; the thief starts again and steals the
first value, and then the owner pops the last one. -/
theorem entries_after_growth :
    ∃ s, (machine 1 ℕ (Fin 1)).Run Restored s ∧ pushed s.log = [3, 2, 1] ∧
      taken s.log = [3, 1] ∧ s.owner = .idle ∧ s.entries = [2] ∧
      ∃ q, Replays s.log q ∧ (taken s.log ++ q).Perm (pushed s.log) ∧
        (s.owner = .idle → q = s.entries) := by
  have hexec : ∃ s, (machine 1 ℕ (Fin 1)).exec Careful (ownerRun (some 1) 6 ++ thiefRun 5 ++
      ownerRun (some 2) 11 ++ ownerRun (some 3) 6 ++ thiefRun 8 ++ ownerRun none 6)
      smallStart = some s ∧ pushed s.log = [3, 2, 1] ∧ taken s.log = [3, 1] ∧
      s.owner = .idle ∧ s.entries = [2] := ⟨_, rfl, rfl, rfl, rfl, rfl⟩
  obtain ⟨s, hs, hpush, htake, hidle, hentries⟩ := hexec
  have hcareful : (machine 1 ℕ (Fin 1)).Run Careful s :=
    Machine.Run.exec (.start init_smallStart) hs
  have hrun : (machine 1 ℕ (Fin 1)).Run Restored s :=
    hcareful.mono fun _ _ => restored_of_careful
  exact ⟨s, hrun, hpush, htake, hidle, hentries, entries_are_pushed_not_taken hrun⟩

/-- A thief wins the race for the last value; the push after it is lost. -/
theorem push_after_lost_race_vanishes :
    ∃ s, (machine 10 ℕ (Fin 1)).Reachable s ∧ s.owner = .idle ∧ pushed s.log = [2, 1] ∧
      taken s.log = [1] ∧ s.entries = [] ∧ ¬ Replays s.log s.entries := by
  have hexec : ∃ s, (machine 10 ℕ (Fin 1)).exec (fun _ _ => True) (ownerRun (some 1) 6 ++ thiefRun 7 ++
      ownerRun none 6 ++ thiefRun 2 ++ ownerRun none 1 ++ ownerRun (some 2) 6)
      (start ℕ (Fin 1)) = some s ∧ s.owner = .idle ∧ pushed s.log = [2, 1] ∧
      taken s.log = [1] ∧ s.entries = [] := ⟨_, rfl, rfl, rfl, rfl, rfl⟩
  obtain ⟨s, hs, hidle, hpush, htake, hempty⟩ := hexec
  refine ⟨s, Machine.Run.exec (.start start_init) hs, hidle, hpush, htake, hempty, fun h => ?_⟩
  have hlen := h.perm.length_eq
  simp [hpush, htake, hempty] at hlen

end UnboundedDeque.WSDeque
