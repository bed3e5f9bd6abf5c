import UnboundedDeque.LockFreedom
import UnboundedDeque.WSDequePoolProgress

/-!
# The work-stealing deques are lock-free

A steal starts again only when the owner of the deque has published a larger ring, which it
does once in a push.
-/
namespace UnboundedDeque.WSDequePool
open StepMachine WSDeque

variable {T : Type*} {n : ℕ} {s t : State T n} {d d' : WSDeque.State T (Fin n)} {c : Choice T}
  {tid k i q : Fin n} {p : Point T n}

/-- How far a push has come with its ring. -/
def pushStage : OwnerPc T → ℕ
  | .pushBottom _ | .pushTop _ _ | .pushRing _ _ _ | .pushNew _ _ _ _ | .pushGrow _ _ _ _ _
  | .pushPublish _ _ _ _ => 2
  | .pushRetire _ _ _ _ => 1
  | _ => 0

def stage (pDeques : Fin n → WSDeque.State T (Fin n)) (tid : Fin n) : Point T n → ℕ
  | .idle => 3
  | .push _ => pushStage (pDeques tid).owner
  | _ => 0

/-- The rings that the tracker has still to delete. -/
def garbage (s : State T n) : ℕ := ∑ i, (s.pDeques i).retired.length

theorem pushStage_le {pc : OwnerPc T} : pushStage pc ≤ 2 := by
  cases pc <;> simp [pushStage]

/-- A step of an owner gets on with its ring, or it leaves the rings of the deque as they
are. -/
theorem ownerStep_stage (hd : doing d.owner ≠ none) (hs : ownerStep c d = some d') :
    pushStage d'.owner < pushStage d.owner ∨
      pushStage d'.owner = pushStage d.owner ∧ d'.activeArray = d.activeArray ∧
        d'.retired = d.retired := by
  unfold ownerStep at hs
  cases pc : d.owner
  all_goals rw [pc] at hs hd
  all_goals dsimp only at hs
  all_goals try split at hs
  all_goals try
    rw [Option.map_eq_some_iff] at hs
    obtain ⟨r, -, hs⟩ := hs
  all_goals try split_ifs at hs
  all_goals cases hs
  all_goals first
    | exact absurd rfl hd
    | exact .inr ⟨rfl, rfl, rfl⟩
    | exact .inl (by simp [pushStage])

/-- A thief leaves the rings and `bottom` alone and lowers nothing. -/
structure ThiefSpares (d d' : WSDeque.State T (Fin n)) : Prop where
  activeArray : d'.activeArray = d.activeArray
  retired : d'.retired = d.retired
  bottom : d'.bottom = d.bottom
  top : d.top ≤ d'.top

theorem thiefStep_spares {spurious : Bool} (hs : thiefStep k spurious d = some d') :
    ThiefSpares d d' := by
  unfold thiefStep at hs
  dsimp only at hs
  split at hs
  all_goals try
    rw [Option.map_eq_some_iff] at hs
    obtain ⟨r, -, hs⟩ := hs
  all_goals try split_ifs at hs with hcas
  all_goals cases hs
  all_goals first
    | exact ⟨rfl, rfl, rfl, le_rfl⟩
    | (refine ⟨rfl, rfl, rfl, ?_⟩
       rw [hcas.1]
       exact Int.le_add_one le_rfl)

theorem ownerLeft_mono (ho : d'.owner = d.owner) (hs : ThiefSpares d d') :
    ownerLeft d' ≤ ownerLeft d := by
  have htop := hs.top
  unfold ownerLeft
  rw [ho, hs.bottom]
  split <;> omega

/-- A step at a deque that leaves its rings alone leaves no more to do for the others. -/
theorem left_mono {pDeques : Fin n → WSDeque.State T (Fin n)} (hq : q ≠ tid)
    (hactive : d.activeArray = (pDeques i).activeArray)
    (hthief : ∀ k, k ≠ tid → d.thief k = (pDeques i).thief k)
    (howner : i = tid ∨ ownerLeft d ≤ ownerLeft (pDeques i)) :
    left (Function.update pDeques i d) q p ≤ left pDeques q p := by
  have hown : ownerLeft (Function.update pDeques i d q) ≤ ownerLeft (pDeques q) := by
    by_cases hqi : q = i
    · subst hqi
      rw [Function.update_self]
      exact howner.resolve_left hq
    · rw [Function.update_of_ne hqi]
  cases p with
  | idle | loop => exact le_rfl
  | push o => exact hown
  | pop => exact Nat.add_le_add_left hown 200
  | steal j v =>
    rw [left, left]
    by_cases hvi : v = i
    · subst hvi
      rw [Function.update_self, hactive, hthief q hq]
    · rw [Function.update_of_ne hvi]

theorem stage_other {pDeques : Fin n → WSDeque.State T (Fin n)}
    (howner : q = i → d.owner = (pDeques i).owner) :
    stage (Function.update pDeques i d) q p = stage pDeques q p := by
  cases p with
  | push o =>
    rw [stage, stage]
    by_cases hqi : q = i
    · subst hqi
      rw [Function.update_self, howner rfl]
    · rw [Function.update_of_ne hqi]
  | _ => rfl

/-- What a step of a thread changes, at the deque `i` where it takes the step. -/
structure Moves (s t : State T n) (tid i : Fin n) (d : WSDeque.State T (Fin n)) (p : Point T n) :
    Prop where
  pDeques : t.pDeques = Function.update s.pDeques i d
  point : t.point = Function.update s.point tid p
  thief : ∀ k, k ≠ tid → d.thief k = (s.pDeques i).thief k
  owner : i = tid ∨ d.owner = (s.pDeques i).owner ∧ ownerLeft d ≤ ownerLeft (s.pDeques i)

/-- What is left to be done, less than before a step. -/
def Less (tid : Fin n) (s t : State T n) : Prop :=
  Lowers (fun s q => stage s.pDeques q (s.point q)) (fun s q => left s.pDeques q (s.point q))
    garbage tid s t

theorem Moves.less (h : Moves s t tid i d p)
    (hown : stage t.pDeques tid p < stage s.pDeques tid (s.point tid) ∨
      stage t.pDeques tid p = stage s.pDeques tid (s.point tid) ∧
        d.activeArray = (s.pDeques i).activeArray ∧ d.retired = (s.pDeques i).retired ∧
        left t.pDeques tid p < left s.pDeques tid (s.point tid)) : Less tid s t := by
  have hself : t.point tid = p := by rw [h.point, Function.update_self]
  have hother {q : Fin n} (hq : q ≠ tid) : t.point q = s.point q := by
    rw [h.point, Function.update_of_ne hq]
  refine ⟨fun q hq => ?_, ?_⟩
  · have howner (hqi : q = i) : d.owner = (s.pDeques i).owner :=
      (h.owner.resolve_left fun hi => hq (hqi.trans hi)).1
    rw [hother hq, h.pDeques, stage_other howner]
  rw [hself]
  rcases hown with hstage | ⟨hstage, hactive, hretired, hleft⟩
  · exact .inl hstage
  refine .inr ⟨hstage, .inr ⟨?_, fun q hq => ?_, hleft⟩⟩
  · refine Finset.sum_congr rfl fun j _ => ?_
    by_cases hj : j = i
    · rw [hj, h.pDeques, Function.update_self, hretired]
    · rw [h.pDeques, Function.update_of_ne hj]
  · rw [hother hq, h.pDeques]
    exact left_mono hq hactive h.thief (h.owner.imp_right And.right)

theorem moves_owner (hs : ownerStep c (s.pDeques tid) = some d)
    (hd : t.pDeques = Function.update s.pDeques tid d)
    (hp : t.point = Function.update s.point tid p) : Moves s t tid tid d p :=
  ⟨hd, hp, fun k _ => by rw [(ownerStep_frame hs).thief], .inl rfl⟩

theorem moves_thief {spurious : Bool} (hs : thiefStep tid spurious (s.pDeques i) = some d)
    (hd : t.pDeques = Function.update s.pDeques i d)
    (hp : t.point = Function.update s.point tid p) : Moves s t tid i d p := by
  have hstep := thiefStep_cases hs
  exact ⟨hd, hp, hstep.thief, .inr ⟨hstep.owner, ownerLeft_mono hstep.owner (thiefStep_spares hs)⟩⟩

theorem pushStage_of_doing {pc : OwnerPc T} (h : doing pc = some none) : pushStage pc = 0 := by
  cases pc with
  | popBottom | popRing | popSetBottom | popTop | popRestore | popGet | popCas
  | popSetBottomTop => rfl
  | _ => cases h

/-- A step of a thread returns from a call, or less is left to be done. -/
theorem returns_or_less (h : Inv s) {r : Fin n} (hs : step (.thread tid c r) s = some t) :
    s.point tid ≠ .idle ∧ t.point tid = .idle ∨ Less tid s t := by
  have hcall := h.owner tid
  have hlow (hbusy : s.point tid ≠ .idle) := left_lt h hbusy hs
  have hret {i : Fin n} {d : WSDeque.State T (Fin n)} {a : Call T n} :
      (s.ret tid i d a).point tid = .idle := Function.update_self _ _ _
  have hleft {i : Fin n} {d : WSDeque.State T (Fin n)} {p : Point T n} (hp : p ≠ .idle)
      (hlow : (s.goto tid i d p).point tid = .idle ∨ left (s.goto tid i d p).pDeques tid
        ((s.goto tid i d p).point tid) < left s.pDeques tid (s.point tid)) :
      left (s.goto tid i d p).pDeques tid p < left s.pDeques tid (s.point tid) := by
    have hpoint : (s.goto tid i d p).point tid = p := Function.update_self _ _ _
    rw [hpoint] at hlow
    exact hlow.resolve_left hp
  have hdeque {d : WSDeque.State T (Fin n)} {p : Point T n} :
      (s.goto tid tid d p).pDeques tid = d := Function.update_self _ _ _
  rw [step] at hs
  cases hpt : s.point tid with
  | idle =>
    rw [hpt] at hs
    obtain ⟨d, hd, rfl⟩ := Option.map_eq_some_iff.mp hs
    refine .inr ((moves_owner hd rfl rfl).less (.inl ?_))
    rw [hpt]
    cases c.call with
    | none => exact Nat.zero_lt_succ 2
    | some o => exact Nat.lt_succ_of_le pushStage_le
  | push o =>
    have hbusy : s.point tid ≠ .idle := by rw [hpt]; simp
    have hlow := hlow hbusy
    rw [hpt] at hs hcall
    obtain ⟨d, hd, rfl⟩ := Option.map_eq_some_iff.mp hs
    have hstage := ownerStep_stage (by rw [hcall]; exact Option.some_ne_none _) hd
    split_ifs at hlow ⊢
    · exact .inl ⟨by simp, hret⟩
    · have hlt := hleft (by simp) hlow
      refine .inr ((moves_owner hd rfl rfl).less ?_)
      rw [hpt] at hlt ⊢
      rw [stage, stage, hdeque]
      rcases hstage with hstage | ⟨hstage, hactive, hretired⟩
      · exact .inl hstage
      · exact .inr ⟨hstage, hactive, hretired, hlt⟩
  | pop =>
    have hbusy : s.point tid ≠ .idle := by rw [hpt]; simp
    have hlow := hlow hbusy
    rw [hpt] at hs hcall
    obtain ⟨d, hd, rfl⟩ := Option.map_eq_some_iff.mp hs
    obtain ⟨-, hactive, hretired⟩ :=
      (ownerStep_stage (by rw [hcall]; exact Option.some_ne_none _) hd).resolve_left
        (by rw [pushStage_of_doing hcall]; exact Nat.not_lt_zero _)
    split_ifs at hlow ⊢
    · revert hlow
      cases popped (s.pDeques tid) with
      | some out => exact fun _ => .inl ⟨by simp, hret⟩
      | none =>
        intro hlow
        refine .inr ((moves_owner hd rfl rfl).less (.inr ⟨?_, hactive, hretired, ?_⟩))
        · rw [hpt]
          rfl
        · exact hleft (by simp) hlow
    · refine .inr ((moves_owner hd rfl rfl).less (.inr ⟨?_, hactive, hretired, ?_⟩))
      · rw [hpt]
        rfl
      · exact hleft (by simp) hlow
  | loop i =>
    have hbusy : s.point tid ≠ .idle := by rw [hpt]; simp
    have hlow := hlow hbusy
    have hgo {p : Point T n} (hp : stage (s.goto tid tid (s.pDeques tid) p).pDeques tid p = 0)
        (hlt : left (s.goto tid tid (s.pDeques tid) p).pDeques tid p <
          left s.pDeques tid (s.point tid)) : Less tid s (s.goto tid tid (s.pDeques tid) p) := by
      refine Moves.less ⟨rfl, rfl, fun _ _ => rfl, .inl rfl⟩ (.inr ⟨?_, rfl, rfl, hlt⟩)
      rw [hp, hpt]
      rfl
    rw [hpt] at hs
    dsimp only at hs
    split_ifs at hs
    all_goals cases hs
    · exact .inr (hgo rfl (hleft (by simp) hlow))
    · exact .inr (hgo rfl (hleft (by simp) hlow))
    · exact .inl ⟨by simp, hret⟩
  | steal i v =>
    have hbusy : s.point tid ≠ .idle := by rw [hpt]; simp
    have hlow := hlow hbusy
    rw [hpt] at hs
    obtain ⟨d, hd, rfl⟩ := Option.map_eq_some_iff.mp hs
    have hspares := thiefStep_spares hd
    have hgo {p : Point T n} (hp : stage (s.goto tid v d p).pDeques tid p = 0)
        (hlt : left (s.goto tid v d p).pDeques tid p < left s.pDeques tid (s.point tid)) :
        Less tid s (s.goto tid v d p) := by
      refine (moves_thief hd rfl rfl).less (.inr ⟨?_, hspares.activeArray, hspares.retired, hlt⟩)
      rw [hp, hpt]
      rfl
    split_ifs at hlow ⊢
    · exact .inr (hgo rfl (hleft (by simp) hlow))
    · revert hlow
      cases stolen (s.pDeques v) tid with
      | some out => exact fun _ => .inl ⟨by simp, hret⟩
      | none => exact fun hlow => .inr (hgo rfl (hleft (by simp) hlow))

theorem free_shorter {a : Address} (hs : WSDeque.step (.free a) d = some d') :
    d'.owner = d.owner ∧ d'.retired.length < d.retired.length := by
  rw [WSDeque.step] at hs
  split_ifs at hs
  rw [freeStep] at hs
  split_ifs at hs with hmem
  cases hs
  exact ⟨rfl, List.length_filter_lt_length_iff_exists.mpr ⟨a, hmem, by simp⟩⟩

/-- The tracker deletes a ring. -/
theorem free_less {a : Address} (hs : step (.free i a) s = some t) : Less i s t := by
  obtain ⟨d, hd, rfl⟩ := Option.map_eq_some_iff.mp hs
  obtain ⟨howner, hlength⟩ := free_shorter hd
  have hwork : garbage { s with pDeques := Function.update s.pDeques i d } < garbage s := by
    refine sum_lt_of_thread (p := i) (fun j hj => ?_) ?_
    · dsimp only
      rw [Function.update_of_ne hj]
    · dsimp only
      rw [Function.update_self]
      exact hlength
  exact ⟨fun q _ => stage_other fun _ => howner, .inr ⟨stage_other fun _ => howner, .inl hwork⟩⟩

/-- The thread whose deque or call a step is about. -/
def Label.thread? : Label T n → Fin n
  | .thread tid _ _ => tid
  | .free i _ => i

/-- However the threads are scheduled, calls of `enqueue` and `dequeue` return again and
again. -/
theorem calls_return_infinitely {l : ℕ → Label T n} {s : ℕ → State T n}
    (h : (machine T n).Forever (fun _ _ => True) l s) (i : ℕ) :
    ∃ j, i ≤ j ∧ ∃ tid, (s j).point tid ≠ .idle ∧ (s (j + 1)).point tid = .idle := by
  have hlow : ∀ (l : Label T n) (s t : State T n), (machine T n).Reachable s → True →
      (machine T n).step l s = some t →
        (∃ t tid, step l s = some t ∧ s.point tid ≠ .idle ∧ t.point tid = .idle) ∨
          Less l.thread? s t := by
    intro l s t hr _ hs
    cases l with
    | free i a => exact .inr (free_less hs)
    | thread tid c r =>
      exact (returns_or_less (inv_of_reachable hr) hs).imp_left fun ht => ⟨t, tid, hs, ht⟩
  obtain ⟨j, hj, t, tid, ht, hbusy, hidle⟩ := h.lowers hlow i
  refine ⟨j, hj, tid, hbusy, ?_⟩
  rw [Option.some.inj ((h.move j).symm.trans ht)]
  exact hidle

/-- A thread that dequeues for ever. -/
theorem exists_dequeues : ∃ l s, (machine ℕ 1).Forever (fun _ _ => True) l s := by
  refine Machine.exists_forever (P := (machine ℕ 1).Run PushesRestored)
    (.start init_constructed) (fun s hs => hs.reachable) fun s hs => ?_
  obtain ⟨b, hb⟩ := bounded_of_reachable (pDeques_run hs (Fin.last 0)).reachable
  have hfresh : Fresh ⟨none, b, fun _ => 0, false⟩ (s.pDeques (Fin.last 0)) :=
    fun _ _ _ _ _ => hb b le_rfl
  obtain ⟨t, ht⟩ := step_enabled (fun i => run_inv (pDeques_run hs i)) hfresh (Fin.last 0)
  have hmove : (machine ℕ 1).step (.thread (Fin.last 0) ⟨none, b, fun _ => 0, false⟩ (Fin.last 0)) s =
      some t := ht
  refine ⟨_, t, trivial, hmove, hs.step ?_ hmove⟩
  by_cases hidle : s.point (Fin.last 0) = .idle
  · have hown := (inv_of_reachable hs.reachable).owner (Fin.last 0)
    rw [hidle] at hown
    dsimp only [PushesRestored]
    rw [hidle]
    unfold Restored
    dsimp only
    cases pc : (s.pDeques (Fin.last 0)).owner with
    | idle => exact fun h => absurd h (by simp)
    | _ =>
      rw [pc] at hown
      cases hown
  · exact restored_alone (inv_of_reachable hs.reachable) hidle rfl _

theorem dequeues_return : ∃ l s, (machine ℕ 1).Forever (fun _ _ => True) l s ∧
    ∃ j, 5 ≤ j ∧ ∃ tid, (s j).point tid ≠ .idle ∧ (s (j + 1)).point tid = .idle := by
  obtain ⟨l, s, h⟩ := exists_dequeues
  exact ⟨l, s, h, calls_return_infinitely h 5⟩

end UnboundedDeque.WSDequePool
