import UnboundedDeque.LockFreedom
import UnboundedDeque.BlockPoolConservation

/-!
# The block pool is lock-free

A compare-exchange of the global pool fails only when another one has succeeded since the
load, and a call whose compare-exchange has succeeded does not try again.
-/
namespace UnboundedDeque.BlockPool
open StepMachine

variable {τ : Type*} [DecidableEq τ] {s t : State τ} {tid : τ} {c : Choice}

/-- How far the call of a thread has come. -/
def Point.stage : Point → ℕ
  | .idle => 2
  | .allocTake _ | .freeCut => 0
  | _ => 1

/-- The steps up to the next compare-exchange that succeeds, if the global pool stays. -/
def Point.rank (globalPool : CountedPtr) : Point → ℕ
  | .allocLoad | .freeLoad _ => 3
  | .allocGroup oldp _ | .freeStore _ oldp _ => if oldp = globalPool then 2 else 5
  | .allocCas oldp _ _ | .freeCas _ oldp _ => if oldp = globalPool then 1 else 4
  | _ => 0

theorem lowers_of_points {pt : Point} (hp : t.points = Function.update s.points tid pt)
    (hown : pt.stage < (s.points tid).stage ∨ pt.stage = (s.points tid).stage ∧
      t.globalPool = s.globalPool ∧ pt.rank s.globalPool < (s.points tid).rank s.globalPool) :
    Lowers (fun s q => (s.points q).stage) (fun s q => (s.points q).rank s.globalPool)
      (fun _ => 0) tid s t := by
  have hself : t.points tid = pt := by rw [hp, Function.update_self]
  have hother (q : τ) (hq : q ≠ tid) : t.points q = s.points q := by
    rw [hp, Function.update_of_ne hq]
  refine ⟨fun q hq => by rw [hother q hq], ?_⟩
  rw [hself]
  rcases hown with hstage | ⟨hstage, hpool, hrank⟩
  · exact .inl hstage
  · refine .inr ⟨hstage, .inr ⟨rfl, fun q hq => ?_, ?_⟩⟩
    · rw [hother q hq, hpool]
    · rw [hpool]
      exact hrank

/-- A step returns from its call, or less is left to be done. -/
theorem returns_or_lowers (hs : step (tid, c) s = some t) :
    t.points tid = .idle ∨
      Lowers (fun s q => (s.points q).stage) (fun s q => (s.points q).rank s.globalPool)
        (fun _ => 0) tid s t := by
  have hself {pt : Point} : Function.update s.points tid pt tid = pt := Function.update_self _ _ _
  simp only [step] at hs
  cases hpt : s.points tid with
  | idle =>
    rw [hpt] at hs
    cases hc : c.call with
    | alloc =>
      rw [hc] at hs
      dsimp only at hs
      split_ifs at hs <;> cases hs
      · exact .inl hself
      · exact .inr (lowers_of_points rfl (.inl (by rw [hpt]; decide)))
    | free b =>
      rw [hc] at hs
      dsimp only at hs
      split_ifs at hs <;> cases hs
      · exact .inr (lowers_of_points rfl (.inl (by rw [hpt]; exact Nat.one_lt_two)))
      · exact .inl hpt
  | allocLoad =>
    rw [hpt] at hs
    dsimp only at hs
    split_ifs at hs <;> cases hs
    · refine .inr (lowers_of_points rfl (.inr ⟨by rw [hpt]; rfl, rfl, ?_⟩))
      rw [hpt, Point.rank, Point.rank, if_pos rfl]
      decide
    · exact .inl (Function.update_self _ _ _)
  | allocGroup oldp stamp =>
    rw [hpt] at hs
    cases hs
    refine .inr (lowers_of_points rfl (.inr ⟨by rw [hpt]; rfl, rfl, ?_⟩))
    rw [hpt, Point.rank, Point.rank]
    split_ifs <;> decide
  | allocCas oldp group stamp =>
    rw [hpt] at hs
    dsimp only at hs
    split_ifs at hs with hp <;> cases hs
    · exact .inr (lowers_of_points rfl (.inl (by rw [hpt]; exact Nat.zero_lt_one)))
    · refine .inr (lowers_of_points rfl (.inr ⟨by rw [hpt]; rfl, rfl, ?_⟩))
      rw [hpt, Point.rank, Point.rank, if_neg (Ne.symm hp)]
      decide
  | allocTake b =>
    rw [hpt] at hs
    cases hs
    exact .inl (Function.update_self _ _ _)
  | freeLoad ng =>
    rw [hpt] at hs
    cases hs
    refine .inr (lowers_of_points rfl (.inr ⟨by rw [hpt]; rfl, rfl, ?_⟩))
    rw [hpt, Point.rank, Point.rank, if_pos rfl]
    decide
  | freeStore ng oldp stamp =>
    rw [hpt] at hs
    cases hs
    refine .inr (lowers_of_points rfl (.inr ⟨by rw [hpt]; rfl, rfl, ?_⟩))
    rw [hpt, Point.rank, Point.rank]
    split_ifs <;> decide
  | freeCas ng oldp stamp =>
    rw [hpt] at hs
    dsimp only at hs
    split_ifs at hs with hp <;> cases hs
    · exact .inr (lowers_of_points rfl (.inl (by rw [hpt]; exact Nat.zero_lt_one)))
    · refine .inr (lowers_of_points rfl (.inr ⟨by rw [hpt]; rfl, rfl, ?_⟩))
      rw [hpt, Point.rank, Point.rank, if_neg (Ne.symm hp)]
      decide
  | freeCut =>
    rw [hpt] at hs
    cases hs
    exact .inl (Function.update_self _ _ _)

/-- However the threads are scheduled, calls of `alloc` and `free` return again and again. -/
theorem calls_return_again [Fintype τ] {a : ℕ → τ × Choice} {s : ℕ → State τ}
    (h : (machine τ).Forever (fun _ _ => True) a s) (i : ℕ) :
    ∃ j, i ≤ j ∧ (s (j + 1)).points (a j).1 = .idle := by
  have hlow : ∀ (a : τ × Choice) (s t : State τ), (machine τ).Reachable s → True →
      (machine τ).step a s = some t →
        (∃ t, step a s = some t ∧ t.points a.1 = .idle) ∨
          Lowers (fun s q => (s.points q).stage) (fun s q => (s.points q).rank s.globalPool)
            (fun _ => 0) a.1 s t := by
    rintro ⟨tid, c⟩ s t - - hs
    exact (returns_or_lowers hs).imp_left fun ht => ⟨t, hs, ht⟩
  obtain ⟨j, hj, t, ht, hidle⟩ := h.lowers hlow i
  refine ⟨j, hj, ?_⟩
  rw [Option.some.inj ((h.move j).symm.trans ht)]
  exact hidle

section Churn

/-- The thread frees its block and allocates it again. -/
def churnCall (tid : τ) (i : ℕ) : τ × Choice := (tid, ⟨if i % 2 = 0 then .free 1 else .alloc, 1⟩)

structure Churned (tid : τ) (i : ℕ) (s : State τ) : Prop where
  idle : s.points tid = .idle
  even : i % 2 = 0 → s.place 1 = .held ∧ (s.headNodes tid).count = 7
  odd : i % 2 = 1 → (s.headNodes tid).top = 1 ∧ (s.headNodes tid).count = 8

theorem Churned.step {i : ℕ} (h : Churned tid i s) :
    ∃ t, BlockPool.step (churnCall tid i) s = some t ∧ Churned tid (i + 1) t := by
  have hidle := h.idle
  rcases Nat.mod_two_eq_zero_or_one i with hi | hi
  · obtain ⟨hheld, hcount⟩ := h.even hi
    refine ⟨s.push tid 1, ?_, hidle, fun hodd => by omega, fun _ => ?_⟩
    · simp [BlockPool.step, churnCall, hi, hidle, hheld, hcount, groupSize]
    · rw [State.push_headNodes, Function.update_self, hcount]
      exact ⟨rfl, rfl⟩
  · obtain ⟨htop, hcount⟩ := h.odd hi
    refine ⟨s.takeTop tid, ?_, Function.update_self _ _ _, fun _ => ?_, fun heven => by omega⟩
    · simp [BlockPool.step, churnCall, hi, hidle, htop]
    · rw [State.takeTop_headNodes, State.takeTop_place, Function.update_self, htop, hcount]
      exact ⟨Function.update_self _ _ _, rfl⟩

/-- A pool of one thread that holds the first block of its first group. -/
def firstBlock : State (Fin 1) :=
  ((machine (Fin 1)).exec (fun _ _ => True) (List.replicate 2 (Fin.last 0, ⟨.alloc, 1⟩))
    (constructed (Fin 1))).getD (constructed (Fin 1))

def churn : ℕ → State (Fin 1)
  | 0 => firstBlock
  | i + 1 => (step (churnCall (Fin.last 0) i) (churn i)).getD (churn i)

theorem churned (i : ℕ) : Churned (Fin.last 0) i (churn i) := by
  induction i with
  | zero => exact ⟨by decide +kernel, fun _ => by decide +kernel, nofun⟩
  | succ i ih =>
    obtain ⟨t, ht, hc⟩ := ih.step
    rw [churn, ht]
    exact hc

theorem churn_forever :
    (machine (Fin 1)).Forever (fun _ _ => True) (churnCall (Fin.last 0)) churn where
  start := by
    have hrun : (machine (Fin 1)).Reachable firstBlock :=
      Machine.Run.exec_getD _ (.start (init_constructed (Fin 1)))
    exact hrun
  cond _ := trivial
  move i := by
    obtain ⟨t, ht, -⟩ := (churned i).step
    rw [churn, ht]
    exact ht

theorem churn_returns :
    ∃ j, 5 ≤ j ∧ (churn (j + 1)).points (churnCall (Fin.last 0) j).1 = .idle :=
  calls_return_again churn_forever 5

end Churn

end UnboundedDeque.BlockPool
