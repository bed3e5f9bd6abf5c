import UnboundedDeque.StepMachine

/-!
# Runs that must reach a state

A condition on the labels singles out the steps of one party. That its steps lead to
a state means that they can be taken until such a state is reached, that it is reached
however they are chosen, and that all states before it meet a second condition.
-/
namespace StepMachine

variable {ι κ σ ρ : Type*}

/-- The steps with labels in `who` go on through states with `via` until they reach a
state with `P`, and they do reach one. -/
inductive Machine.Leads (M : Machine ι σ) (who : ι → Prop) (via P : σ → Prop) : σ → Prop
  | done {s : σ} (reached : P s) : M.Leads who via P s
  | step {s : σ} (through : via s) (enabled : ∃ a t, who a ∧ M.step a s = some t)
      (next : ∀ a t, who a → M.step a s = some t → M.Leads who via P t) : M.Leads who via P s

variable {M : Machine ι σ} {who : ι → Prop} {via P Q : σ → Prop} {s t : σ} {a : ι}

theorem Machine.Leads.trans (h : M.Leads who via P s) (hq : ∀ t, P t → M.Leads who via Q t) :
    M.Leads who via Q s := by
  induction h with
  | done reached => exact hq _ reached
  | step through enabled _ ih => exact .step through enabled ih

theorem Machine.Leads.mono (h : M.Leads who via P s) (hq : ∀ t, P t → Q t) :
    M.Leads who via Q s :=
  h.trans fun t ht => .done (hq t ht)

theorem Machine.Leads.through {via' : σ → Prop} (h : M.Leads who via P s)
    (hv : ∀ t, via t → via' t) : M.Leads who via' P s := by
  induction h with
  | done reached => exact .done reached
  | step through enabled _ ih => exact .step (hv _ through) enabled ih

/-- What the party's steps keep holds where they lead to. -/
theorem Machine.Leads.keep {I : σ → Prop} (h : M.Leads who via P s) (hi : I s)
    (keep : ∀ a s t, who a → I s → M.step a s = some t → I t) :
    M.Leads who via (fun t => P t ∧ I t) s := by
  induction h with
  | done reached => exact .done ⟨reached, hi⟩
  | step through enabled _ ih =>
    exact .step through enabled fun a t ha ht => ih a t ha ht (keep a _ t ha hi ht)

/-- A step of the party on its way is a step closer. -/
theorem Machine.Leads.next (h : M.Leads who via P s) (hp : ¬P s) (ha : who a)
    (ht : M.step a s = some t) : M.Leads who via P t := by
  cases h with
  | done reached => exact absurd reached hp
  | step _ _ next => exact next a t ha ht

/-- The party does not pass a state that fails both conditions. -/
theorem Machine.Leads.not_stuck (h : M.Leads who via P s) (hv : ¬via s) : P s := by
  cases h with
  | done reached => exact reached
  | step through _ _ => exact absurd through hv

/-- A party that always comes back to where it has been does not get to a state it does not
pass. -/
theorem Machine.Leads.not_of_back {B : σ → Prop}
    (hb : ∀ t, B t → ¬P t ∧ ∀ a u, who a → M.step a t = some u →
      M.Leads who (fun v => ¬P v) B u)
    (h : M.Leads who (fun v => ¬P v) B s) : ¬M.Leads who via P s := by
  intro hp
  induction hp with
  | done reached =>
    cases h with
    | done back => exact (hb _ back).1 reached
    | step through _ _ => exact through reached
  | step _ enabled _ ih =>
    obtain ⟨a, t, ha, ht⟩ := enabled
    cases h with
    | done back => exact ih a t ha ht ((hb _ back).2 a t ha ht)
    | step _ _ next => exact ih a t ha ht (next a t ha ht)

/-- A run of the party that has not come there yet leads there. -/
theorem Machine.Leads.along {ok : ι → σ → Prop} [∀ a s, Decidable (ok a s)]
    (h : M.Leads who via P s) (hok : ∀ a s, ok a s → who a ∧ ¬P s) {l : List ι}
    (he : M.exec ok l s = some t) : M.Leads who via P t := by
  induction l generalizing s with
  | nil =>
    rw [Machine.exec, Option.some.injEq] at he
    exact he ▸ h
  | cons a l ih =>
    rw [Machine.exec] at he
    split_ifs at he with ha
    obtain ⟨u, hu, ht⟩ := Option.bind_eq_some_iff.mp he
    exact ih (h.next (hok a s ha).2 (hok a s ha).1 hu) ht

/-- What the party comes to, unless one of its runs comes to the second condition. -/
theorem Machine.Leads.unless {ok : ι → σ → Prop} [∀ a s, Decidable (ok a s)]
    (h : M.Leads who via (fun t => P t ∨ Q t) s) (hok : ∀ a s, who a → ¬P s → ok a s)
    (hq : ∀ l t, M.exec ok l s = some t → ¬Q t) : M.Leads who via P s := by
  induction h with
  | done reached => exact .done (reached.resolve_right (hq [] _ rfl))
  | @step s through enabled _ ih =>
    by_cases hp : P s
    · exact .done hp
    · refine .step through enabled fun a t ha ht => ih a t ha ht fun l u hu => hq (a :: l) u ?_
      rw [Machine.exec, if_pos (hok a s ha hp), ht]
      exact hu

/-- Some list of the party's labels leads there. -/
theorem Machine.Leads.exists_exec (h : M.Leads who via P s) :
    ∃ l t, (∀ a ∈ l, who a) ∧ M.exec (fun _ _ => True) l s = some t ∧ P t := by
  induction h with
  | done reached => exact ⟨[], _, by simp, rfl, reached⟩
  | step _ enabled _ ih =>
    obtain ⟨a, t, ha, ht⟩ := enabled
    obtain ⟨l, u, hl, hu, hp⟩ := ih a t ha ht
    refine ⟨a :: l, u, ?_, ?_, hp⟩
    · simpa [ha] using hl
    · simp [exec, ht, hu]

/-- A machine that takes the party's steps in another form. -/
theorem Machine.Leads.map {N : Machine κ ρ} {whom : κ → Prop} {via' P' : ρ → Prop}
    {R : σ → ρ → Prop} (done : ∀ s r, R s r → P s → P' r)
    (through : ∀ s r, R s r → via s → via' r)
    (forth : ∀ s r a t, R s r → who a → M.step a s = some t → ∃ b r', whom b ∧ N.step b r = some r')
    (back : ∀ s r b r', R s r → (∃ a t, who a ∧ M.step a s = some t) → whom b →
      N.step b r = some r' → ∃ a t, who a ∧ M.step a s = some t ∧ R t r')
    (h : M.Leads who via P s) {r : ρ} (hr : R s r) : N.Leads whom via' P' r := by
  induction h generalizing r with
  | done reached => exact .done (done _ _ hr reached)
  | step hv enabled _ ih =>
    refine .step (through _ _ hr hv) ?_ fun b r' hb hr' => ?_
    · obtain ⟨a, t, ha, ht⟩ := enabled
      exact forth _ _ a t hr ha ht
    · obtain ⟨a, t, ha, ht, hrt⟩ := back _ _ b r' hr enabled hb hr'
      exact ih a t ha ht hrt

/-- The party's only step. -/
theorem Machine.Leads.forced (hv : via s) (ha : ∃ a, who a)
    (hs : ∀ a, who a → M.step a s = some t) (h : M.Leads who via P t) : M.Leads who via P s := by
  refine .step hv ?_ fun a u hwho hu => ?_
  · obtain ⟨a, ha⟩ := ha
    exact ⟨a, t, ha, hs a ha⟩
  · obtain rfl := Option.some.inj ((hs a hwho).symm.trans hu)
    exact h

section Account

variable {begin : κ} {note : ι → σ → σ → κ → κ} {k : κ}

/-- An account that the party's steps on the way do not change. -/
theorem Machine.Leads.account (h : M.Leads who via P s)
    (hnote : ∀ a s t, who a → M.step a s = some t → via t ∨ P t → note a s t k = k) :
    (M.account begin note).Leads who (fun u => via u.1 ∧ u.2 = k) (fun u => P u.1 ∧ u.2 = k)
      (s, k) := by
  induction h with
  | done reached => exact .done ⟨reached, rfl⟩
  | step through enabled next ih =>
    refine .step ⟨through, rfl⟩ ?_ fun a u ha hu => ?_
    · obtain ⟨a, t, ha, ht⟩ := enabled
      exact ⟨a, (t, note a _ t k), ha, account_step.mpr ⟨ht, rfl⟩⟩
    · obtain ⟨hst, hk⟩ := account_step.mp hu
      have hthere : via u.1 ∨ P u.1 := by
        cases next a u.1 ha hst with
        | done reached => exact .inr reached
        | step through _ _ => exact .inl through
      have hu' : u = (u.1, k) := Prod.ext rfl (hk.trans (hnote a _ u.1 ha hst hthere))
      rw [hu']
      exact ih a u.1 ha hst

/-- What the party comes to with an account it comes to without. -/
theorem Machine.Leads.of_account {via' P' : σ → Prop} {via P : σ × κ → Prop} {u : σ × κ}
    (hv : ∀ u, via u → via' u.1) (hp : ∀ u, P u → P' u.1)
    (h : (M.account begin note).Leads who via P u) : M.Leads who via' P' u.1 := by
  refine h.map (R := fun u s => s = u.1) ?_ ?_ ?_ ?_ rfl
  · rintro u s rfl hu
    exact hp u hu
  · rintro u s rfl hu
    exact hv u hu
  · rintro u s a u' rfl ha hu
    exact ⟨a, u'.1, ha, (account_step.mp hu).1⟩
  · rintro u s a t rfl - ha ht
    exact ⟨a, (t, note a u.1 t u.2), ha, account_step.mpr ⟨ht, rfl⟩, rfl⟩

end Account

section Rank

variable {α : Type*} {f : α → Option α} {I : α → Prop} {rank : α → ℕ} {x : α}

/-- Where a partial function lowers a rank, following it visits nothing twice and ends. -/
theorem exists_path (keep : ∀ x y, I x → f x = some y → I y ∧ rank y < rank x) (hx : I x) :
    ∃ l y, (x :: l).IsChain (fun x y => f x = some y) ∧ (x :: l).Nodup ∧
      (x :: l).getLast? = some y ∧ I y ∧ f y = none := by
  have hpath : ∃ l y, (x :: l).IsChain (fun x y => f x = some y) ∧
      (x :: l).IsChain (fun x y => rank y < rank x) ∧ (x :: l).getLast? = some y ∧ I y ∧
      f y = none := by
    induction hn : rank x using Nat.strong_induction_on generalizing x with
    | _ n ih =>
      cases hf : f x with
      | none => exact ⟨[], x, by simp, by simp, rfl, hx, hf⟩
      | some z =>
        obtain ⟨hz, hr⟩ := keep x z hx hf
        obtain ⟨l, y, hl, hrl, hlast, hy⟩ := ih (rank z) (hn ▸ hr) hz rfl
        refine ⟨z :: l, y, ?_, ?_, ?_, hy⟩
        · exact List.isChain_cons_cons.mpr ⟨hf, hl⟩
        · exact List.isChain_cons_cons.mpr ⟨hr, hrl⟩
        · rw [List.getLast?_cons_cons, hlast]
  obtain ⟨l, y, hl, hr, hlast, hy⟩ := hpath
  refine ⟨l, y, hl, ?_, hlast, hy⟩
  have : Trans (fun x y : α => rank y < rank x) (fun x y => rank y < rank x)
      (fun x y => rank y < rank x) := ⟨fun h h' => h'.trans h⟩
  apply (List.isChain_iff_pairwise.mp hr).imp
  rintro a b hab rfl
  exact lt_irrefl _ hab

end Rank

end StepMachine
