import UnboundedDeque.StepMachine

/-!
# Machines with components

Every step of a machine is a step of at most one of its components. Each component then
ends a run of its own, and an equation between two sums over the components holds after a
step if the step keeps the balance of the component that moves.
-/
namespace StepMachine

variable {ι σ κ τ γ : Type*} {M : Machine ι σ} {ok : ι → σ → Prop} {N : Machine κ τ}
  {okN : κ → τ → Prop} {view : σ → γ → τ} {s : σ}

/-- A step leaves every component as it is, or it is a step of one of them. -/
def MovesOne (N : Machine κ τ) (okN : κ → τ → Prop) (u v : γ → τ) : Prop :=
  v = u ∨ ∃ c b, okN b (u c) ∧ N.step b (u c) = some (v c) ∧ ∀ d, d ≠ c → v d = u d

theorem MovesOne.update [DecidableEq γ] {u v : γ → τ} {c : γ} {b : κ} {x : τ} (hok : okN b (u c))
    (hs : N.step b (u c) = some x) (hv : v = Function.update u c x) : MovesOne N okN u v := by
  refine .inr ⟨c, b, hok, ?_, fun d hd => ?_⟩
  · rw [hv, Function.update_self]
    exact hs
  · rw [hv, Function.update_of_ne hd]

theorem Machine.Run.component (h : M.Run ok s) (init : ∀ s, M.init s → ∀ c, N.init (view s c))
    (moves : ∀ a s t, M.Run ok s → ok a s → M.step a s = some t →
      MovesOne N okN (view s) (view t)) (c : γ) :
    N.Run okN (view s c) := by
  induction h with
  | start hs => exact .start (init _ hs c)
  | step prior cond move ih =>
    rcases moves _ _ _ prior cond move with hv | ⟨d, b, hok, hstep, hother⟩
    · rw [hv]
      exact ih
    · by_cases hc : c = d
      · subst hc
        exact .step ih hok hstep
      · rw [hother c hc]
        exact ih

section Sums

variable [Fintype γ] [DecidableEq γ] {A : Type*} {f f' g g' : γ → A} {x x' : A} {c : γ}

theorem sum_of_component [AddCommMonoid A] (h : ∀ d, d ≠ c → f' d = f d) :
    ∑ d, f' d + f c = ∑ d, f d + f' c := by
  rw [← Finset.add_sum_erase _ f' (Finset.mem_univ c), ← Finset.add_sum_erase _ f (Finset.mem_univ c),
    Finset.sum_congr rfl fun d hd => h d (Finset.ne_of_mem_erase hd)]
  abel

/-- A step of one component that keeps its balance keeps the balance of the sums. -/
theorem balance_of_component [AddCancelCommMonoid A] (hf : ∀ d, d ≠ c → f' d = f d)
    (hg : ∀ d, d ≠ c → g' d = g d) (hc : x' + f' c + g c = x + f c + g' c)
    (h : x + ∑ d, f d = ∑ d, g d) : x' + ∑ d, f' d = ∑ d, g' d := by
  refine add_right_cancel (b := f c + g c) ?_
  calc x' + ∑ d, f' d + (f c + g c)
      = x' + (∑ d, f' d + f c) + g c := by abel
    _ = x' + f' c + g c + ∑ d, f d := by
      rw [sum_of_component hf]
      abel
    _ = x + ∑ d, f d + f c + g' c := by
      rw [hc]
      abel
    _ = ∑ d, g d + g' c + f c := by
      rw [h]
      abel
    _ = ∑ d, g' d + (f c + g c) := by
      rw [← sum_of_component hg]
      abel

theorem total_of_component [AddCancelCommMonoid A] (hg : ∀ d, d ≠ c → g' d = g d)
    (hc : x' + g c = x + g' c) (h : x = ∑ d, g d) : x' = ∑ d, g' d := by
  have := balance_of_component (f := fun _ => 0) (fun _ _ => rfl) hg (by simpa using hc)
    (by simpa using h)
  simpa using this

end Sums

end StepMachine
