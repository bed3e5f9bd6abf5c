import UnboundedDeque.SoloRun
import UnboundedDeque.WSDequePoolConservation

/-!
# The calls of the work-stealing deques go on

No thread reads a ring that has been freed, and so none is ever stuck. A thread that runs
alone returns: it tries to steal ten times at most, and each time it loads the ring anew at
most once.
-/
namespace UnboundedDeque.WSDequePool
open StepMachine WSDeque

variable {T : Type*} {n : ℕ} {s t : State T n} {d d' : WSDeque.State T (Fin n)} {q : WSDeque.Ring T}
  {c : Choice T} {tid k : Fin n}

/-- `new` gives a push that grows its ring an address that is not in use. -/
def Fresh (c : Choice T) (d : WSDeque.State T (Fin n)) : Prop :=
  ∀ o b t old, d.owner = .pushNew o b t old → d.rings c.address = none

/-- The owner finds every ring it reads. -/
theorem owner_enabled (h : WSDeque.Inv d q) (hc : Fresh c d) : ∃ d', ownerStep c d = some d' := by
  have own := h.owner
  have hactive := h.active
  unfold OwnerOk at own
  unfold ownerStep
  cases pc : d.owner with
  | idle => cases c.call <;> exact ⟨_, rfl⟩
  | pushRing o b t =>
    dsimp only
    rw [hactive]
    exact ⟨_, rfl⟩
  | pushNew o b t old =>
    rw [pc] at own
    obtain ⟨-, -, -, -, -, rfl⟩ := own
    have hfresh := hc o b t _ pc
    dsimp only
    rw [hfresh, hactive]
    exact ⟨_, rfl⟩
  | pushGrow o b old ring i =>
    rw [pc] at own
    obtain ⟨-, -, rfl, -, -, a, t, ha, -⟩ := own
    dsimp only
    rw [ha, hactive]
    dsimp only
    split_ifs <;> exact ⟨_, rfl⟩
  | pushPut o b ring =>
    rw [pc] at own
    obtain ⟨-, -, rfl, -⟩ := own
    dsimp only
    rw [hactive]
    exact ⟨_, rfl⟩
  | popGet b t ring =>
    rw [pc] at own
    obtain ⟨-, rfl, -⟩ := own
    dsimp only
    rw [hactive]
    exact ⟨_, rfl⟩
  | popTop | popCas =>
    dsimp only
    split_ifs <;> exact ⟨_, rfl⟩
  | _ => exact ⟨_, rfl⟩

/-- A thief finds the ring its hazard slot names. -/
theorem thief_enabled (h : WSDeque.Inv d q) (spurious : Bool) :
    ∃ d', thiefStep k spurious d = some d' := by
  have hk := h.thief k
  unfold ThiefOk at hk
  unfold thiefStep
  cases pc : d.thief k with
  | get t ring =>
    rw [pc] at hk
    obtain ⟨-, -, -, -, a, ha, -⟩ := hk
    dsimp only
    rw [ha]
    exact ⟨_, rfl⟩
  | recheck | cas =>
    dsimp only
    split_ifs <;> exact ⟨_, rfl⟩
  | _ => exact ⟨_, rfl⟩

theorem step_enabled (hdeque : ∀ i, ∃ q, WSDeque.Inv (s.pDeques i) q)
    (hc : Fresh c (s.pDeques tid)) (r : Fin n) : ∃ t, step (.thread tid c r) s = some t := by
  have hown : ∃ d, ownerStep c (s.pDeques tid) = some d := by
    obtain ⟨q, hq⟩ := hdeque tid
    exact owner_enabled hq hc
  rw [step]
  cases s.point tid with
  | idle | push | pop =>
    obtain ⟨d, hd⟩ := hown
    dsimp only
    rw [hd]
    exact ⟨_, rfl⟩
  | loop i =>
    dsimp only
    split_ifs <;> exact ⟨_, rfl⟩
  | steal i v =>
    obtain ⟨q, hq⟩ := hdeque v
    obtain ⟨d, hd⟩ := thief_enabled hq c.spurious
    dsimp only
    rw [hd]
    exact ⟨_, rfl⟩

/-- In every run in which no push starts below `top`, every thread has a next step: the rings
that `push`, `pop` and `steal` read have not been freed. -/
theorem never_stuck (h : (machine T n).Run PushesRestored s) (hc : Fresh c (s.pDeques tid))
    (r : Fin n) : ∃ t, step (.thread tid c r) s = some t :=
  step_enabled (fun i => run_inv (pDeques_run h i)) hc r

theorem never_stuck_steal :
    stealing (((stealRun 7).pDeques ⟨0, Nat.two_pos⟩).thief (Fin.last 1)) = true ∧
      ∃ t, step (.thread (Fin.last 1) ⟨none, 1, fun _ => 0, false⟩ (Fin.last 1)) (stealRun 7) =
        some t := by
  have hidle : (doing ((stealRun 7).pDeques (Fin.last 1)).owner).isNone = true := by
    decide +kernel
  have hfresh : Fresh ⟨none, 1, fun _ => 0, false⟩ ((stealRun 7).pDeques (Fin.last 1)) := by
    intro o b t old hpc
    rw [hpc] at hidle
    cases hidle
  exact ⟨by decide +kernel, never_stuck (stealRun_restored 7) hfresh (Fin.last 1)⟩

/-- What is left of the call of an owner. -/
def ownerLeft (d : WSDeque.State T (Fin n)) : ℕ :=
  match d.owner with
  | .idle => 0
  | .pushBottom _ => 9 + (d.bottom - d.top).toNat
  | .pushTop _ b => 8 + (b - d.top).toNat
  | .pushRing _ b t => 7 + (b - t).toNat
  | .pushNew _ b t _ => 6 + (b - t).toNat
  | .pushGrow _ b _ _ i => 5 + (b - i).toNat
  | .pushPublish _ _ _ _ => 4
  | .pushRetire _ _ _ _ => 3
  | .pushPut _ _ _ => 2
  | .pushSetBottom _ _ => 1
  | .popBottom => 7
  | .popRing _ => 6
  | .popSetBottom _ _ => 5
  | .popTop _ _ => 4
  | .popGet _ _ _ => 3
  | .popCas _ _ => 2
  | .popRestore _ => 1
  | .popSetBottomTop _ _ => 1

/-- What is left of a steal, if no ring is published meanwhile. -/
def thiefLeft (activeArray : Address) : ThiefPc T → ℕ
  | .idle => 9
  | .top => 8
  | .bottom _ => 7
  | .ring _ _ => 6
  | .reserve _ _ ring => if ring = activeArray then 5 else 10
  | .recheck _ _ ring => if ring = activeArray then 4 else 9
  | .get _ _ => 3
  | .cas _ _ => 2
  | .clear _ _ => 1

/-- What is left of the call of a thread that runs alone. -/
def left (pDeques : Fin n → WSDeque.State T (Fin n)) (tid : Fin n) : Point T n → ℕ
  | .idle => 0
  | .push _ => ownerLeft (pDeques tid)
  | .pop => 200 + ownerLeft (pDeques tid)
  | .loop i => 20 * (10 - i)
  | .steal i v => 20 * (9 - i) + thiefLeft (pDeques v).activeArray ((pDeques v).thief tid)

theorem ownerLeft_lt (hd : doing d.owner ≠ none) (hs : ownerStep c d = some d') :
    ownerLeft d' < ownerLeft d := by
  unfold ownerStep at hs
  unfold ownerLeft
  cases pc : d.owner
  all_goals rw [pc] at hs hd
  all_goals dsimp only at hs
  all_goals try split at hs
  all_goals try
    rw [Option.map_eq_some_iff] at hs
    obtain ⟨r, -, hs⟩ := hs
  all_goals try split_ifs at hs
  all_goals cases hs
  all_goals first
    | exact absurd rfl hd
    | (dsimp only; omega)

theorem thiefLeft_pos {a : Address} {p : ThiefPc T} : 0 < thiefLeft a p := by
  unfold thiefLeft
  split <;> (try split_ifs) <;> omega

theorem thiefLeft_le {a : Address} {p : ThiefPc T} : thiefLeft a p ≤ 10 := by
  unfold thiefLeft
  split <;> (try split_ifs) <;> omega

theorem thiefLeft_lt {spurious : Bool} (hs : thiefStep k spurious d = some d')
    (hd : stealing (d'.thief k) = true) :
    thiefLeft d'.activeArray (d'.thief k) < thiefLeft d.activeArray (d.thief k) := by
  have hself {p : ThiefPc T} : Function.update d.thief k p k = p := Function.update_self _ _ _
  unfold thiefStep at hs
  dsimp only at hs
  cases pc : d.thief k with
  | idle | top | bottom =>
    rw [pc] at hs
    cases hs
    dsimp only
    rw [hself]
    exact Nat.lt_succ_self _
  | ring t b =>
    rw [pc] at hs
    cases hs
    dsimp only
    rw [hself, thiefLeft, thiefLeft, if_pos rfl]
    omega
  | reserve t b ring =>
    rw [pc] at hs
    cases hs
    dsimp only
    rw [hself, thiefLeft, thiefLeft]
    split_ifs <;> omega
  | recheck t b ring =>
    rw [pc] at hs
    dsimp only at hs
    split_ifs at hs with hring
    all_goals
      cases hs
      dsimp only
      rw [hself, thiefLeft, thiefLeft]
    · rw [if_neg hring]
      omega
    all_goals split_ifs <;> omega
  | get t ring =>
    rw [pc] at hs
    obtain ⟨r, -, hs⟩ := Option.map_eq_some_iff.mp hs
    cases hs
    dsimp only
    rw [hself]
    exact Nat.lt_succ_self _
  | cas t o =>
    rw [pc] at hs
    dsimp only at hs
    split_ifs at hs
    all_goals
      cases hs
      dsimp only
      rw [hself]
      exact Nat.lt_succ_self _
  | clear flag out =>
    rw [pc] at hs
    cases hs
    dsimp only at hd
    rw [hself] at hd
    cases hd

/-- A step of a call returns or leaves less to do. -/
theorem left_lt (h : Inv s) (hbusy : s.point tid ≠ .idle) {r : Fin n}
    (hs : step (.thread tid c r) s = some t) :
    t.point tid = .idle ∨
      left t.pDeques tid (t.point tid) < left s.pDeques tid (s.point tid) := by
  have hcall := h.owner tid
  have hgoto {i : Fin n} {d : WSDeque.State T (Fin n)} {p : Point T n} :
      (s.goto tid i d p).point tid = p := Function.update_self _ _ _
  have hret {i : Fin n} {d : WSDeque.State T (Fin n)} {a : Call T n} :
      (s.ret tid i d a).point tid = .idle := Function.update_self _ _ _
  have hdeque {i : Fin n} {d : WSDeque.State T (Fin n)} {p : Point T n} :
      (s.goto tid i d p).pDeques i = d := Function.update_self _ _ _
  rw [step] at hs
  cases hpt : s.point tid with
  | idle => exact absurd hpt hbusy
  | push o =>
    rw [hpt] at hs hcall
    obtain ⟨d, hd, rfl⟩ := Option.map_eq_some_iff.mp hs
    have hlt := ownerLeft_lt (by rw [hcall]; exact Option.some_ne_none _) hd
    split_ifs
    · exact .inl hret
    · right
      rw [hgoto, left, left, hdeque]
      exact hlt
  | pop =>
    rw [hpt] at hs hcall
    obtain ⟨d, hd, rfl⟩ := Option.map_eq_some_iff.mp hs
    have hlt := ownerLeft_lt (by rw [hcall]; exact Option.some_ne_none _) hd
    split_ifs
    · cases popped (s.pDeques tid) with
      | some out => exact .inl hret
      | none =>
        right
        rw [hgoto, left, left]
        omega
    · right
      rw [hgoto, left, left, hdeque]
      exact Nat.add_lt_add_left hlt 200
  | loop i =>
    rw [hpt] at hs
    dsimp only at hs
    split_ifs at hs with hi hr
    · cases hs
      right
      rw [hgoto, left, left]
      omega
    · cases hs
      right
      rw [hgoto, left, left]
      have hle {a : Address} {p : ThiefPc T} : 20 * (9 - i) + thiefLeft a p < 20 * (10 - i) := by
        have := thiefLeft_le (a := a) (p := p)
        omega
      exact hle
    · cases hs
      exact .inl hret
  | steal i v =>
    rw [hpt] at hs
    obtain ⟨d, hd, rfl⟩ := Option.map_eq_some_iff.mp hs
    split_ifs with hsteal
    · right
      rw [hgoto, left, left, hdeque]
      exact Nat.add_lt_add_left (thiefLeft_lt hd hsteal) _
    · cases stolen (s.pDeques v) tid with
      | some out => exact .inl hret
      | none =>
        right
        rw [hgoto, left, left]
        have := thiefLeft_pos (a := (s.pDeques v).activeArray) (p := (s.pDeques v).thief tid)
        omega

/-- Finitely many addresses are in use. -/
def Bounded (d : WSDeque.State T (Fin n)) : Prop := ∃ b : ℕ, ∀ a : ℕ, b ≤ a → d.rings a = none

theorem Bounded.update (h : Bounded d) {a : ℕ} {r : Option (WSDeque.Ring T)}
    (hd : d'.rings = Function.update d.rings a r) : Bounded d' := by
  obtain ⟨b, hb⟩ := h
  refine ⟨b + a + 1, fun x hx => ?_⟩
  have hne : x ≠ a := Nat.ne_of_gt (show a < x by omega)
  rw [hd, Function.update_of_ne hne]
  exact hb x (by omega)

theorem bounded_of_reachable {logsize : ℕ}
    (h : (WSDeque.machine logsize T (Fin n)).Reachable d) : Bounded d := by
  refine h.invariant (fun d hd => ⟨d.activeArray + 1, fun a ha => hd.unused a (Nat.ne_of_gt ha)⟩)
    fun l d d' _ hb _ hs => ?_
  cases l with
  | owner c =>
    rcases (ownerStep_frame hs).rings with hr | ⟨a, r, hr⟩
    · rw [Bounded, hr]
      exact hb
    · exact hb.update hr
  | thief k spurious =>
    rw [Bounded, (thiefStep_cases hs).rings]
    exact hb
  | free a =>
    simp only [WSDeque.machine, WSDeque.step, freeStep] at hs
    split_ifs at hs
    cases hs
    exact hb.update rfl

/-- The steps of one thread, without spurious failures. -/
def Alone (tid : Fin n) (l : Label T n) : Prop :=
  ∃ c r, l = .thread tid c r ∧ c.spurious = false

theorem restored_alone (h : Inv s) (hbusy : s.point tid ≠ .idle) (hc : c.spurious = false)
    (r : Fin n) : PushesRestored (.thread tid c r) s := by
  have hown := h.owner tid
  have hr (hp : (s.point tid).call ≠ none) : Restored (.owner c) (s.pDeques tid) := by
    unfold Restored
    cases pc : (s.pDeques tid).owner with
    | idle =>
      rw [pc] at hown
      exact absurd hown.symm hp
    | popCas t o => exact fun _ => hc
    | _ => trivial
  dsimp only [PushesRestored]
  cases hpt : s.point tid with
  | idle => exact absurd hpt hbusy
  | loop i | steal i v => trivial
  | push o | pop => exact hr (by rw [hpt]; exact nofun)

/-- In every run in which no push starts below `top`, a call returns if its thread runs
alone. -/
theorem returns_alone (h : (machine T n).Run PushesRestored s) (tid : Fin n) :
    (machine T n).Leads (Alone tid) (fun t => t.point tid ≠ .idle)
      (fun t => t.point tid = .idle) s := by
  induction hl : left s.pDeques tid (s.point tid) using Nat.strong_induction_on
    generalizing s with
  | _ l ih =>
    by_cases hidle : s.point tid = .idle
    · exact .done hidle
    have hi := inv_of_reachable h.reachable
    refine .step hidle ?_ fun a t ha ht => ?_
    · obtain ⟨b, hb⟩ := bounded_of_reachable (pDeques_run h tid).reachable
      obtain ⟨q, -⟩ := run_inv (pDeques_run h tid)
      have hfresh : Fresh ⟨none, b, q.arr, false⟩ (s.pDeques tid) := fun _ _ _ _ _ => hb b le_rfl
      obtain ⟨t, ht⟩ := step_enabled (fun i => run_inv (pDeques_run h i)) hfresh tid
      exact ⟨_, t, ⟨_, _, rfl, rfl⟩, ht⟩
    · obtain ⟨c, r, rfl, hc⟩ := ha
      have hrun := h.step (restored_alone hi hidle hc r) ht
      rcases left_lt hi hidle ht with hret | hlt
      · exact .done hret
      · exact ih _ (hl ▸ hlt) hrun rfl

theorem returns_alone_steal :
    ((stealRun 7).point (Fin.last 1)).victim = some ⟨0, Nat.two_pos⟩ ∧
      (machine ℕ 2).Leads (Alone (Fin.last 1)) (fun t => t.point (Fin.last 1) ≠ .idle)
        (fun t => t.point (Fin.last 1) = .idle) (stealRun 7) :=
  ⟨by decide +kernel, returns_alone (stealRun_restored 7) (Fin.last 1)⟩

end UnboundedDeque.WSDequePool
