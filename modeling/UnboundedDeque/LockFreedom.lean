import UnboundedDeque.StepMachine

/-!
# What happens infinitely often

Runs that go on for ever, and a rule for machines of threads that help each other. Such a
machine has a stage for each thread, which no step of another thread changes, the work that
is left to be done for all, and a rank for each thread, which no step of another thread
raises while the work stays the same. If every other step lowers the stage of its thread, or
the work, or the rank of its thread, the remaining steps are taken again and again.
-/
namespace StepMachine

variable {ι σ τ : Type*} {M : Machine ι σ} {ok : ι → σ → Prop} {P : ι → σ → Prop} {l : ℕ → ι}
  {s : ℕ → σ}

/-- A run without an end, with a condition on its steps. -/
structure Machine.Forever (M : Machine ι σ) (ok : ι → σ → Prop) (l : ℕ → ι) (s : ℕ → σ) :
    Prop where
  start : M.Reachable (s 0)
  cond : ∀ i, ok (l i) (s i)
  move : ∀ i, M.step (l i) (s i) = some (s (i + 1))

theorem Machine.Forever.reachable (h : M.Forever ok l s) (i : ℕ) : M.Reachable (s i) := by
  induction i with
  | zero => exact h.start
  | succ i ih => exact .step ih trivial (h.move i)

/-- What every step does that does not lower a rank happens again and again. -/
theorem Machine.Forever.infinitely_often {α : Type*} [Preorder α] [WellFoundedLT α] (rank : σ → α)
    (h : M.Forever ok l s)
    (hrank : ∀ a s t, M.Reachable s → ok a s → M.step a s = some t → P a s ∨ rank t < rank s)
    (i : ℕ) : ∃ j, i ≤ j ∧ P (l j) (s j) := by
  obtain ⟨j, hj⟩ := WellFounded.not_rel_apply_succ (r := (· < ·)) fun j => rank (s (i + j))
  refine ⟨i + j, Nat.le_add_right i j, ?_⟩
  exact (hrank _ _ _ (h.reachable _) (h.cond _) (h.move _)).resolve_right hj

/-- A machine that always has a step it may take has a run without an end. -/
theorem Machine.exists_forever {P : σ → Prop} {u : σ} (hu : P u)
    (reachable : ∀ s, P s → M.Reachable s)
    (next : ∀ s, P s → ∃ a t, ok a s ∧ M.step a s = some t ∧ P t) :
    ∃ l s, M.Forever ok l s := by
  choose a t hok hmove hP using fun s : {s // P s} => next s.1 s.2
  let run (i : ℕ) : {s // P s} := (fun s => ⟨t s, hP s⟩)^[i] ⟨u, hu⟩
  refine ⟨fun i => a (run i), fun i => (run i).1, reachable _ (run 0).2, fun i => hok (run i),
    fun i => ?_⟩
  rw [hmove (run i)]
  simp only [run, Function.iterate_succ_apply']

section Threads

variable [Fintype τ] {thread : ι → τ} {stage rank : σ → τ → ℕ} {work : σ → ℕ} {p : τ} {t u : σ}

/-- How a step of a thread lowers what is left to be done. -/
structure Lowers (stage rank : σ → τ → ℕ) (work : σ → ℕ) (p : τ) (u t : σ) : Prop where
  others : ∀ q, q ≠ p → stage t q = stage u q
  own : stage t p < stage u p ∨ stage t p = stage u p ∧ (work t < work u ∨ work t = work u ∧
    (∀ q, q ≠ p → rank t q ≤ rank u q) ∧ rank t p < rank u p)

/-- All that is left to be done. -/
def remaining (stage rank : σ → τ → ℕ) (work : σ → ℕ) (u : σ) : ℕ ×ₗ ℕ ×ₗ ℕ :=
  toLex (∑ q, stage u q, toLex (work u, ∑ q, rank u q))

theorem sum_lt_of_thread {f g : τ → ℕ} (hother : ∀ q, q ≠ p → f q ≤ g q) (hp : f p < g p) :
    ∑ q, f q < ∑ q, g q := by
  refine Finset.sum_lt_sum (fun q _ => ?_) ⟨p, Finset.mem_univ p, hp⟩
  by_cases hq : q = p
  · rw [hq]
    exact hp.le
  · exact hother q hq

theorem Lowers.remaining_lt (h : Lowers stage rank work p u t) :
    remaining stage rank work t < remaining stage rank work u := by
  rw [remaining, remaining, Prod.Lex.toLex_lt_toLex]
  rcases h.own with hstage | ⟨hstage, hown⟩
  · exact .inl (sum_lt_of_thread (fun q hq => (h.others q hq).le) hstage)
  · refine .inr ⟨Finset.sum_congr rfl fun q _ => ?_, Prod.Lex.toLex_lt_toLex.mpr ?_⟩
    · by_cases hq : q = p
      · rw [hq, hstage]
      · exact h.others q hq
    · rcases hown with hwork | ⟨hwork, hothers, hrank⟩
      · exact .inl hwork
      · exact .inr ⟨hwork, sum_lt_of_thread hothers hrank⟩

/-- Steps that do not lower what is left are taken again and again. -/
theorem Machine.Forever.lowers (h : M.Forever ok l s) (hlow : ∀ a s t, M.Reachable s → ok a s →
      M.step a s = some t → P a s ∨ Lowers stage rank work (thread a) s t) (i : ℕ) :
    ∃ j, i ≤ j ∧ P (l j) (s j) := by
  refine h.infinitely_often (remaining stage rank work) (fun a s t hr ha hs => ?_) i
  exact (hlow a s t hr ha hs).imp_right Lowers.remaining_lt

end Threads

end StepMachine
