import UnboundedDeque.WSDequePoolMachine

/-!
# No value of the work-stealing deques is lost or dequeued twice

What a call has secured at a deque it returns, and what it returns it has secured at one
deque. So the accounts of the deques add up to an account of the calls.
-/
namespace UnboundedDeque.WSDequePool
open StepMachine WSDeque

variable {T : Type*} {n : ℕ} {d d' : WSDeque.State T (Fin n)} {c : Choice T} {k tid : Fin n} {o : T}

/-- What the calls that return with a step have added to a deque and taken from it. -/
structure Accounts (d d' : WSDeque.State T (Fin n)) (enq deq : List T) : Prop where
  enqueued : (enq : Multiset T) + pushed d.log = pushed d'.log
  dequeued : (deq : Multiset T) + inHand d' + taken d.log = inHand d + taken d'.log

theorem Accounts.same (hlog : d'.log = d.log) (hand : inHand d' = inHand d) :
    Accounts d d' [] [] := by
  constructor
  · rw [hlog, Multiset.coe_nil, zero_add]
  · rw [hlog, hand, Multiset.coe_nil, zero_add]

/-- A step of the owner leaves the thieves alone and writes one ring at most. -/
structure OwnerFrame (d d' : WSDeque.State T (Fin n)) : Prop where
  thief : d'.thief = d.thief
  hazard : d'.hazard = d.hazard
  rings : d'.rings = d.rings ∨ ∃ a r, d'.rings = Function.update d.rings a r

theorem ownerStep_frame (hs : ownerStep c d = some d') : OwnerFrame d d' := by
  unfold ownerStep at hs
  split at hs
  all_goals try split at hs
  all_goals try
    rw [Option.map_eq_some_iff] at hs
    obtain ⟨r, -, hs⟩ := hs
  all_goals try split_ifs at hs
  all_goals cases hs
  all_goals first
    | exact ⟨rfl, rfl, .inl rfl⟩
    | exact ⟨rfl, rfl, .inr ⟨_, _, rfl⟩⟩

theorem inHand_of_owner (hs : ownerStep c d = some d') :
    inHand d' = ownerHas d'.owner + ∑ k, thiefHas (d.thief k) := by
  rw [inHand, (ownerStep_frame hs).thief]

theorem ownerHas_of_doing {p : OwnerPc T} (h : doing p ≠ some none) : ownerHas p = 0 := by
  cases p with
  | popSetBottomTop t o => exact absurd rfl h
  | _ => rfl

/-- A step of the owner that takes nothing and neither starts nor ends a pop. -/
theorem Accounts.of_owner {enq : List T} (hs : ownerStep c d = some d')
    (hp : (enq : Multiset T) + pushed d.log = pushed d'.log) (ht : taken d'.log = taken d.log)
    (hand : ownerHas d'.owner = ownerHas d.owner) : Accounts d d' enq [] := by
  refine ⟨hp, ?_⟩
  rw [inHand_of_owner hs, hand, ht, Multiset.coe_nil, zero_add]
  rfl

/-- An owner between calls makes the call it chooses. -/
theorem ownerStep_idle (hd : doing d.owner = none) (hs : ownerStep c d = some d') :
    doing d'.owner = some c.call ∧ Accounts d d' [] [] := by
  have hlog : d'.log = d.log ∧ doing d'.owner = some c.call ∧ ownerHas d'.owner = 0 := by
    cases pc : d.owner with
    | idle =>
      rw [ownerStep, pc] at hs
      cases hc : c.call with
      | none =>
        rw [hc] at hs
        cases hs
        exact ⟨rfl, rfl, rfl⟩
      | some o =>
        rw [hc] at hs
        cases hs
        exact ⟨rfl, rfl, rfl⟩
    | _ =>
      rw [pc] at hd
      cases hd
  have hfree : ownerHas d.owner = 0 := ownerHas_of_doing (by rw [hd]; simp)
  refine ⟨hlog.2.1, .of_owner hs ?_ (by rw [hlog.1]) (hlog.2.2.trans hfree.symm)⟩
  rw [hlog.1, Multiset.coe_nil, zero_add]

/-- A step of a push leaves the log as it is, or it is the last one. -/
theorem ownerStep_push_log (hd : doing d.owner = some (some o)) (hs : ownerStep c d = some d') :
    doing d'.owner = some (some o) ∧ d'.log = d.log ∨
      doing d'.owner = none ∧ d'.log = .push o :: d.log := by
  unfold ownerStep at hs
  cases pc : d.owner
  all_goals rw [pc] at hs hd
  all_goals cases hd
  all_goals dsimp only at hs
  all_goals try split at hs
  all_goals try
    rw [Option.map_eq_some_iff] at hs
    obtain ⟨r, -, hs⟩ := hs
  all_goals try split_ifs at hs
  all_goals cases hs
  all_goals first
    | exact .inl ⟨rfl, rfl⟩
    | exact .inr ⟨rfl, rfl⟩

theorem ownerStep_push (hd : doing d.owner = some (some o)) (hs : ownerStep c d = some d') :
    doing d'.owner = some (some o) ∧ Accounts d d' [] [] ∨
      doing d'.owner = none ∧ Accounts d d' [o] [] := by
  have hfree : ownerHas d.owner = 0 := ownerHas_of_doing (by rw [hd]; simp)
  rcases ownerStep_push_log hd hs with ⟨hd', hlog⟩ | ⟨hd', hlog⟩
  · have hfree' : ownerHas d'.owner = 0 := ownerHas_of_doing (by rw [hd']; simp)
    refine .inl ⟨hd', .of_owner hs ?_ (by rw [hlog]) (hfree'.trans hfree.symm)⟩
    rw [hlog, Multiset.coe_nil, zero_add]
  · have hfree' : ownerHas d'.owner = 0 := ownerHas_of_doing (by rw [hd']; simp)
    refine .inr ⟨hd', .of_owner hs ?_ (by rw [hlog]; rfl) (hfree'.trans hfree.symm)⟩
    rw [hlog, Multiset.coe_add]
    rfl

/-- A pop returns what it has taken. -/
theorem ownerStep_pop_log (hd : doing d.owner = some none) (hs : ownerStep c d = some d') :
    pushed d'.log = pushed d.log ∧
      (doing d'.owner = some none ∧
          ownerHas d'.owner + taken d.log = ownerHas d.owner + taken d'.log ∨
        doing d'.owner = none ∧
          ((popped d).toList : Multiset T) + taken d.log = ownerHas d.owner + taken d'.log) := by
  unfold ownerStep at hs
  cases pc : d.owner with
  | popGet b t ring =>
    rw [pc] at hs
    obtain ⟨r, hr, hs⟩ := Option.map_eq_some_iff.mp hs
    split_ifs at hs with hlt
    · cases hs
      refine ⟨rfl, .inr ⟨rfl, ?_⟩⟩
      simp only [popped, pc, if_pos hlt, hr, ownerHas]
      rfl
    · cases hs
      exact ⟨rfl, .inl ⟨rfl, rfl⟩⟩
  | popCas t o =>
    rw [pc] at hs
    dsimp only at hs
    split_ifs at hs
    · cases hs
      refine ⟨rfl, .inl ⟨rfl, ?_⟩⟩
      simp only [ownerHas, zero_add]
      rfl
    · cases hs
      refine ⟨rfl, .inr ⟨rfl, ?_⟩⟩
      simp only [popped, pc, ownerHas]
      rfl
  | popTop b ring =>
    rw [pc] at hs
    dsimp only at hs
    split_ifs at hs <;> cases hs <;> exact ⟨rfl, .inl ⟨rfl, rfl⟩⟩
  | popRestore t =>
    rw [pc] at hs
    cases hs
    refine ⟨rfl, .inr ⟨rfl, ?_⟩⟩
    simp only [popped, pc, ownerHas]
    rfl
  | popSetBottomTop t o =>
    rw [pc] at hs
    cases hs
    refine ⟨rfl, .inr ⟨rfl, ?_⟩⟩
    simp only [popped, pc, ownerHas]
    rfl
  | popBottom | popRing | popSetBottom =>
    rw [pc] at hs
    cases hs
    exact ⟨rfl, .inl ⟨rfl, rfl⟩⟩
  | _ =>
    rw [pc] at hd
    cases hd

theorem ownerStep_pop (hd : doing d.owner = some none) (hs : ownerStep c d = some d') :
    doing d'.owner = some none ∧ Accounts d d' [] [] ∨
      doing d'.owner = none ∧ Accounts d d' [] (popped d).toList := by
  obtain ⟨hp, ht⟩ := ownerStep_pop_log hd hs
  have hp' : (([] : List T) : Multiset T) + pushed d.log = pushed d'.log := by
    rw [hp, Multiset.coe_nil, zero_add]
  rcases ht with ⟨hd', ht⟩ | ⟨hd', ht⟩
  · refine .inl ⟨hd', hp', ?_⟩
    rw [inHand_of_owner hs, inHand, Multiset.coe_nil, zero_add, add_right_comm, ht, add_right_comm]
  · have hfree : ownerHas d'.owner = 0 := ownerHas_of_doing (by rw [hd']; simp)
    refine .inr ⟨hd', hp', ?_⟩
    rw [inHand_of_owner hs, inHand, hfree, zero_add, add_right_comm, ht, add_right_comm]

/-- A step of a thief leaves the owner and the other thieves alone. -/
structure ThiefFrame (k : Fin n) (d d' : WSDeque.State T (Fin n)) : Prop where
  owner : d'.owner = d.owner
  rings : d'.rings = d.rings
  thief : ∀ j, j ≠ k → d'.thief j = d.thief j
  hazard : ∀ j, j ≠ k → d'.hazard j = d.hazard j

theorem inHand_of_thief (hf : ThiefFrame k d d') :
    inHand d' + thiefHas (d.thief k) = inHand d + thiefHas (d'.thief k) := by
  have hsum : ∑ j, thiefHas (d'.thief j) + thiefHas (d.thief k) =
      ∑ j, thiefHas (d.thief j) + thiefHas (d'.thief k) :=
    sum_of_component fun j hj => congrArg thiefHas (hf.thief j hj)
  rw [inHand, inHand, hf.owner, add_assoc, hsum, add_assoc]

/-- A step of a steal goes on, or it clears the hazard slot and returns what it has stolen. -/
structure ThiefStep (k : Fin n) (d d' : WSDeque.State T (Fin n)) : Prop extends
    ThiefFrame k d d' where
  kept : pushed d'.log = pushed d.log
  moved : stealing (d'.thief k) = true ∧
      thiefHas (d'.thief k) + taken d.log = thiefHas (d.thief k) + taken d'.log ∨
    stealing (d'.thief k) = false ∧ d'.hazard k = none ∧ d'.log = d.log ∧
      thiefHas (d'.thief k) = 0 ∧ thiefHas (d.thief k) = (stolen d k).toList

theorem ThiefStep.goes {p : ThiefPc T} (howner : d'.owner = d.owner) (hrings : d'.rings = d.rings)
    (hthief : d'.thief = Function.update d.thief k p)
    (hslot : ∀ j, j ≠ k → d'.hazard j = d.hazard j) (hp : pushed d'.log = pushed d.log)
    (hs : stealing p = true)
    (ht : thiefHas p + taken d.log = thiefHas (d.thief k) + taken d'.log) : ThiefStep k d d' := by
  have hself : d'.thief k = p := by rw [hthief, Function.update_self]
  refine ⟨⟨howner, hrings, fun j hj => ?_, hslot⟩, hp, .inl ?_⟩
  · rw [hthief, Function.update_of_ne hj]
  · rw [hself]
    exact ⟨hs, ht⟩

theorem thiefStep_cases {spurious : Bool} (hs : thiefStep k spurious d = some d') :
    ThiefStep k d d' := by
  have hslot {a : Option Address} (j : Fin n) (hj : j ≠ k) :
      Function.update d.hazard k a j = d.hazard j := Function.update_of_ne hj _ _
  unfold thiefStep at hs
  dsimp only at hs
  cases pc : d.thief k with
  | idle | top | bottom | ring =>
    rw [pc] at hs
    cases hs
    exact .goes rfl rfl rfl (fun _ _ => rfl) rfl rfl (by rw [pc]; rfl)
  | reserve t b ring =>
    rw [pc] at hs
    cases hs
    exact .goes rfl rfl rfl hslot rfl rfl (by rw [pc]; rfl)
  | recheck t b ring =>
    rw [pc] at hs
    dsimp only at hs
    split_ifs at hs
    all_goals
      cases hs
      exact .goes rfl rfl rfl (fun _ _ => rfl) rfl rfl (by rw [pc]; rfl)
  | get t ring =>
    rw [pc] at hs
    obtain ⟨r, -, hs⟩ := Option.map_eq_some_iff.mp hs
    cases hs
    exact .goes rfl rfl rfl (fun _ _ => rfl) rfl rfl (by rw [pc]; rfl)
  | cas t o =>
    rw [pc] at hs
    dsimp only at hs
    split_ifs at hs
    · cases hs
      refine .goes rfl rfl rfl (fun _ _ => rfl) rfl rfl ?_
      rw [pc]
      simp only [thiefHas, zero_add]
      rfl
    · cases hs
      exact .goes rfl rfl rfl (fun _ _ => rfl) rfl rfl (by rw [pc]; rfl)
  | clear flag out =>
    rw [pc] at hs
    cases hs
    have hself : Function.update d.thief k .idle k = .idle := Function.update_self _ _ _
    refine ⟨⟨rfl, rfl, fun j hj => Function.update_of_ne hj _ _, hslot⟩, rfl, .inr ?_⟩
    refine ⟨congrArg stealing hself, Function.update_self _ _ _, rfl, congrArg thiefHas hself, ?_⟩
    rw [stolen, pc]
    cases out <;> rfl

theorem ThiefStep.accounts (h : ThiefStep k d d') :
    stealing (d'.thief k) = true ∧ Accounts d d' [] [] ∨
      stealing (d'.thief k) = false ∧ d'.hazard k = none ∧
        Accounts d d' [] (stolen d k).toList := by
  have hp : (([] : List T) : Multiset T) + pushed d.log = pushed d'.log := by
    rw [h.kept, Multiset.coe_nil, zero_add]
  have hhand := inHand_of_thief h.toThiefFrame
  rcases h.moved with ⟨hd, ht⟩ | ⟨hd, hclear, hlog, hnone, hout⟩
  · refine .inl ⟨hd, hp, add_right_cancel (b := thiefHas (d.thief k)) ?_⟩
    rw [Multiset.coe_nil, zero_add, add_right_comm, hhand, add_assoc, ht]
    abel
  · refine .inr ⟨hd, hclear, hp, ?_⟩
    rw [hnone, add_zero] at hhand
    rw [← hout, add_comm (thiefHas _), hhand, hlog]

def Point.call : Point T n → Option (Option T)
  | .push t => some (some t)
  | .pop => some none
  | _ => none

def Point.victim : Point T n → Option (Fin n)
  | .steal _ r => some r
  | _ => none

/-- An owner works for its thread's call only, a thread steals from one deque at a time, and
the accounts of the calls are those of the deques. -/
structure Inv (s : State T n) : Prop where
  owner : ∀ tid, doing (s.pDeques tid).owner = (s.point tid).call
  thief : ∀ tid i, stealing ((s.pDeques i).thief tid) = true → (s.point tid).victim = some i
  slot : ∀ tid i, stealing ((s.pDeques i).thief tid) = false → (s.pDeques i).hazard tid = none
  enqueued : (enqueued s.log : Multiset T) = ∑ i, (pushed (s.pDeques i).log : Multiset T)
  dequeued : (dequeued s.log : Multiset T) + ∑ i, inHand (s.pDeques i) =
    ∑ i, (taken (s.pDeques i).log : Multiset T)

variable {s t : State T n} {i : Fin n} {p : Point T n} {enq deq : List T}

/-- A step of a thread at a deque. -/
structure Change (s t : State T n) (tid i : Fin n) (d : WSDeque.State T (Fin n)) (p : Point T n)
    (enq deq : List T) : Prop where
  pDeques : t.pDeques = Function.update s.pDeques i d
  point : t.point = Function.update s.point tid p
  enqueued : enqueued t.log = enq ++ enqueued s.log
  dequeued : dequeued t.log = deq ++ dequeued s.log
  accounts : Accounts (s.pDeques i) d enq deq

theorem Change.self (hc : Change s t tid i d p enq deq) : t.pDeques i = d := by
  rw [hc.pDeques, Function.update_self]

theorem Change.other (hc : Change s t tid i d p enq deq) {j : Fin n} (hj : j ≠ i) :
    t.pDeques j = s.pDeques j := by
  rw [hc.pDeques, Function.update_of_ne hj]

theorem Inv.change (h : Inv s) (hc : Change s t tid i d p enq deq)
    (howner : i = tid ∧ doing d.owner = p.call ∨
      d.owner = (s.pDeques i).owner ∧ p.call = (s.point tid).call)
    (hother : ∀ k, k ≠ tid → d.thief k = (s.pDeques i).thief k ∧
      d.hazard k = (s.pDeques i).hazard k)
    (hthief : stealing (d.thief tid) = true → p.victim = some i)
    (hslot : stealing (d.thief tid) = false → d.hazard tid = none)
    (hleft : ∀ j, j ≠ i → stealing ((s.pDeques j).thief tid) = true → p.victim = some j) :
    Inv t := by
  have hpoint : t.point tid = p := by rw [hc.point, Function.update_self]
  have hpoints {k : Fin n} (hk : k ≠ tid) : t.point k = s.point k := by
    rw [hc.point, Function.update_of_ne hk]
  constructor
  · intro k
    rcases howner with ⟨rfl, hd⟩ | ⟨hd, hp⟩
    · by_cases hk : k = i
      · rw [hk, hc.self, hpoint, hd]
      · rw [hc.other hk, hpoints hk, h.owner k]
    · have hown : (t.pDeques k).owner = (s.pDeques k).owner := by
        by_cases hk : k = i
        · rw [hk, hc.self, hd]
        · rw [hc.other hk]
      rw [hown, h.owner k]
      by_cases hk : k = tid
      · rw [hk, hpoint, hp]
      · rw [hpoints hk]
  · intro k j hj
    by_cases hk : k = tid
    · rw [hk] at hj ⊢
      rw [hpoint]
      by_cases hji : j = i
      · rw [hji, hc.self] at hj
        exact hji ▸ hthief hj
      · rw [hc.other hji] at hj
        exact hleft j hji hj
    · rw [hpoints hk]
      by_cases hji : j = i
      · rw [hji, hc.self, (hother k hk).1] at hj
        exact hji ▸ h.thief k i hj
      · rw [hc.other hji] at hj
        exact h.thief k j hj
  · intro k j hj
    by_cases hji : j = i
    · rw [hji, hc.self] at hj ⊢
      by_cases hk : k = tid
      · rw [hk] at hj ⊢
        exact hslot hj
      · rw [(hother k hk).1] at hj
        rw [(hother k hk).2]
        exact h.slot k i hj
    · rw [hc.other hji] at hj ⊢
      exact h.slot k j hj
  · refine total_of_component (fun j hj => by rw [hc.other hj]) ?_ h.enqueued
    rw [hc.self, hc.enqueued, ← Multiset.coe_add, ← hc.accounts.enqueued]
    abel
  · refine balance_of_component (fun j hj => by rw [hc.other hj])
      (fun j hj => by rw [hc.other hj]) ?_ h.dequeued
    rw [hc.self, hc.dequeued, ← Multiset.coe_add]
    calc (deq : Multiset T) + WSDequePool.dequeued s.log + inHand d + taken (s.pDeques i).log
        = WSDequePool.dequeued s.log + (deq + inHand d + taken (s.pDeques i).log) := by abel
      _ = WSDequePool.dequeued s.log + inHand (s.pDeques i) + taken d.log := by
        rw [hc.accounts.dequeued, add_assoc]

/-- A thread that is in no steal is at the start of one in every deque. -/
theorem Inv.not_stealing (h : Inv s) (hv : (s.point tid).victim = none) (j : Fin n) :
    stealing ((s.pDeques j).thief tid) ≠ true := by
  intro hj
  rw [h.thief tid j hj] at hv
  cases hv

/-- A step of a thread at its own deque. -/
theorem Inv.ownerChange (h : Inv s) (hc : Change s t tid tid d p enq deq)
    (hs : ownerStep c (s.pDeques tid) = some d) (hcall : doing d.owner = p.call)
    (hv : (s.point tid).victim = none) : Inv t := by
  obtain ⟨hthief, hhazard, -⟩ := ownerStep_frame hs
  have hidle := h.not_stealing hv
  refine h.change hc (.inl ⟨rfl, hcall⟩) (fun k _ => ?_) (fun hj => ?_) (fun hj => ?_)
    fun j _ hj => absurd hj (hidle j)
  · rw [hthief, hhazard]
    exact ⟨rfl, rfl⟩
  · rw [hthief] at hj
    exact absurd hj (hidle tid)
  · rw [hthief] at hj
    rw [hhazard]
    exact h.slot tid tid hj

/-- A step of a thread at the deque it steals from. -/
theorem Inv.thiefChange (h : Inv s) (hc : Change s t tid i d p enq deq)
    (hf : ThiefFrame tid (s.pDeques i) d) (hcall : (s.point tid).call = none)
    (hp : p.call = none) (hv : (s.point tid).victim = some i)
    (hthief : stealing (d.thief tid) = true → p.victim = some i)
    (hslot : stealing (d.thief tid) = false → d.hazard tid = none) : Inv t := by
  refine h.change hc (.inr ⟨hf.owner, hp.trans hcall.symm⟩)
    (fun k hk => ⟨hf.thief k hk, hf.hazard k hk⟩) hthief hslot fun j hj hk => ?_
  rw [h.thief tid j hk] at hv
  exact absurd (Option.some.inj hv) hj

theorem Change.goto (ha : Accounts (s.pDeques i) d [] []) :
    Change s (s.goto tid i d p) tid i d p [] [] :=
  ⟨rfl, rfl, rfl, rfl, ha⟩

theorem Change.enqueue (ha : Accounts (s.pDeques i) d [o] []) :
    Change s (s.ret tid i d (.enqueue tid o)) tid i d .idle [o] [] :=
  ⟨rfl, rfl, rfl, rfl, ha⟩

theorem Change.dequeue {out : Option T} (ha : Accounts (s.pDeques i) d [] out.toList) :
    Change s (s.ret tid i d (.dequeue tid out)) tid i d .idle [] out.toList := by
  refine ⟨rfl, rfl, rfl, ?_, ha⟩
  cases out <;> rfl

theorem Inv.free {a : Address} (h : Inv s)
    (hs : WSDeque.step (.free a) (s.pDeques i) = some d) :
    Inv { s with pDeques := Function.update s.pDeques i d } := by
  rw [WSDeque.step] at hs
  split_ifs at hs
  rw [freeStep] at hs
  split_ifs at hs
  cases hs
  let d : WSDeque.State T (Fin n) := { s.pDeques i with
    rings := Function.update (s.pDeques i).rings a none
    retired := (s.pDeques i).retired.filter (· ≠ a) }
  have hc : Change s { s with pDeques := Function.update s.pDeques i d } i i d (s.point i) [] [] :=
    ⟨rfl, (Function.update_eq_self i _).symm, rfl, rfl, .same rfl rfl⟩
  exact h.change hc (.inr ⟨rfl, rfl⟩) (fun _ _ => ⟨rfl, rfl⟩) (fun hj => h.thief i i hj)
    (fun hj => h.slot i i hj) fun j _ hj => h.thief i j hj

/-- A loop of `dequeue` that draws a deque, or gives up. -/
theorem Inv.loop (h : Inv s) (hc : Change s t tid tid (s.pDeques tid) p [] [])
    (hcall : (s.point tid).call = none) (hp : p.call = none)
    (hv : (s.point tid).victim = none) : Inv t := by
  have hidle := h.not_stealing hv
  exact h.change hc (.inr ⟨rfl, hp.trans hcall.symm⟩) (fun _ _ => ⟨rfl, rfl⟩)
    (fun hj => absurd hj (hidle tid)) (fun hj => h.slot tid tid hj)
    fun j _ hj => absurd hj (hidle j)

theorem Inv.step (h : Inv s) {l : Label T n} (hs : step l s = some t) : Inv t := by
  cases l with
  | free i a =>
    obtain ⟨d, hd, rfl⟩ := Option.map_eq_some_iff.mp hs
    exact h.free hd
  | thread tid c r =>
    have hcall := h.owner tid
    rw [WSDequePool.step] at hs
    cases hpt : s.point tid with
    | idle =>
      rw [hpt] at hs hcall
      obtain ⟨d, hd, rfl⟩ := Option.map_eq_some_iff.mp hs
      obtain ⟨hdoing, ha⟩ := ownerStep_idle hcall hd
      refine h.ownerChange (.goto ha) hd ?_ (by rw [hpt]; rfl)
      rw [hdoing]
      cases c.call <;> rfl
    | push o =>
      rw [hpt] at hs hcall
      obtain ⟨d, hd, rfl⟩ := Option.map_eq_some_iff.mp hs
      rcases ownerStep_push hcall hd with ⟨hdoing, ha⟩ | ⟨hdoing, ha⟩
      · rw [hdoing]
        exact h.ownerChange (.goto ha) hd hdoing (by rw [hpt]; rfl)
      · rw [hdoing]
        exact h.ownerChange (.enqueue ha) hd hdoing (by rw [hpt]; rfl)
    | pop =>
      rw [hpt] at hs hcall
      obtain ⟨d, hd, rfl⟩ := Option.map_eq_some_iff.mp hs
      rcases ownerStep_pop hcall hd with ⟨hdoing, ha⟩ | ⟨hdoing, ha⟩
      · rw [hdoing]
        exact h.ownerChange (.goto ha) hd hdoing (by rw [hpt]; rfl)
      · rw [hdoing]
        cases hout : popped (s.pDeques tid) with
        | none =>
          rw [hout] at ha
          exact h.ownerChange (.goto ha) hd hdoing (by rw [hpt]; rfl)
        | some out =>
          rw [hout] at ha
          exact h.ownerChange (Change.dequeue ha) hd hdoing (by rw [hpt]; rfl)
    | loop i =>
      rw [hpt] at hs
      dsimp only at hs
      split_ifs at hs
      all_goals cases hs
      · refine h.loop (.goto (.same rfl rfl)) (by rw [hpt]; rfl) rfl (by rw [hpt]; rfl)
      · refine h.loop (.goto (.same rfl rfl)) (by rw [hpt]; rfl) rfl (by rw [hpt]; rfl)
      · exact h.loop (Change.dequeue (.same rfl rfl)) (by rw [hpt]; rfl) rfl (by rw [hpt]; rfl)
    | steal i v =>
      rw [hpt] at hs
      obtain ⟨d, hd, rfl⟩ := Option.map_eq_some_iff.mp hs
      have hstep := thiefStep_cases hd
      have hframe := hstep.toThiefFrame
      rcases hstep.accounts with ⟨hsteal, ha⟩ | ⟨hsteal, hclear, ha⟩
      · rw [hsteal]
        refine h.thiefChange (.goto ha) hframe (by rw [hpt]; rfl) rfl (by rw [hpt]; rfl)
          (fun _ => rfl) fun hj => ?_
        rw [hsteal] at hj
        cases hj
      · have hnot : stealing (d.thief tid) = true → (Point.idle : Point T n).victim = some v := by
          rw [hsteal]
          exact nofun
        rw [hsteal]
        cases hout : stolen (s.pDeques v) tid with
        | none =>
          rw [hout] at ha
          exact h.thiefChange (.goto ha) hframe (by rw [hpt]; rfl) rfl (by rw [hpt]; rfl) hnot
            fun _ => hclear
        | some out =>
          rw [hout] at ha
          exact h.thiefChange (Change.dequeue ha) hframe (by rw [hpt]; rfl) rfl (by rw [hpt]; rfl)
            hnot fun _ => hclear

theorem Inv.init (h : Init s) : Inv s where
  owner tid := by
    rw [(h.deques tid).owner, h.point tid]
    rfl
  thief tid i hi := by
    rw [(h.deques i).thief tid] at hi
    cases hi
  slot tid i _ := h.hazard i tid
  enqueued := by
    rw [h.log, Finset.sum_eq_zero fun i _ => by rw [(h.deques i).log]; rfl]
    rfl
  dequeued := by
    have hand (i : Fin n) : inHand (s.pDeques i) = 0 := by
      rw [inHand, (h.deques i).owner, Finset.sum_eq_zero fun k _ => by rw [(h.deques i).thief k]; rfl]
      rfl
    rw [h.log, Finset.sum_eq_zero fun i _ => hand i,
      Finset.sum_eq_zero fun i _ => by rw [(h.deques i).log]; rfl]
    rfl

theorem inv_of_reachable (h : (machine T n).Reachable s) : Inv s := by
  refine h.invariant (fun _ => Inv.init) fun _ _ _ _ hi _ hs => hi.step hs

/-- A step of the pool is a step of one deque, or no deque moves. -/
theorem moves_one {l : Label T n} (hok : PushesRestored l s) (hs : step l s = some t) :
    MovesOne (WSDeque.machine 10 T (Fin n)) Restored s.pDeques t.pDeques := by
  cases l with
  | free i a =>
    obtain ⟨d, hd, rfl⟩ := Option.map_eq_some_iff.mp hs
    exact .update (b := .free a) trivial hd rfl
  | thread tid c r =>
    rw [PushesRestored] at hok
    rw [step] at hs
    cases hpt : s.point tid with
    | idle =>
      rw [hpt] at hs hok
      obtain ⟨d, hd, rfl⟩ := Option.map_eq_some_iff.mp hs
      exact .update (b := .owner c) hok hd rfl
    | push o =>
      rw [hpt] at hs hok
      obtain ⟨d, hd, rfl⟩ := Option.map_eq_some_iff.mp hs
      refine .update (b := .owner c) hok hd ?_
      split <;> rfl
    | pop =>
      rw [hpt] at hs hok
      obtain ⟨d, hd, rfl⟩ := Option.map_eq_some_iff.mp hs
      refine .update (b := .owner c) hok hd ?_
      split
      · split <;> rfl
      · rfl
    | loop i =>
      rw [hpt] at hs
      dsimp only at hs
      split_ifs at hs
      all_goals
        cases hs
        exact .inl (Function.update_eq_self _ _)
    | steal i v =>
      rw [hpt] at hs
      obtain ⟨d, hd, rfl⟩ := Option.map_eq_some_iff.mp hs
      refine .update (b := .thief tid c.spurious) trivial hd ?_
      split
      · rfl
      · split <;> rfl

/-- Every deque ends a run of its own. -/
theorem pDeques_run (h : (machine T n).Run PushesRestored s) (i : Fin n) :
    (WSDeque.machine 10 T (Fin n)).Run Restored (s.pDeques i) :=
  h.component (fun _ hs => hs.deques) (fun _ _ _ _ hok hs => moves_one hok hs) i

/-- In every run in which no push starts below `top`, the values dequeued, those that a call
has taken and not returned yet, and those left in the deques are together the values
enqueued, each as often as it was enqueued. The values left in a deque whose owner is between
calls are the entries of its ring. -/
theorem enqueued_values_kept (h : (machine T n).Run PushesRestored s) :
    ∃ q : Fin n → List T, (∀ i, (s.pDeques i).owner = .idle → q i = (s.pDeques i).entries) ∧
      (dequeued s.log : Multiset T) + ∑ i, inHand (s.pDeques i) + ∑ i, (q i : Multiset T) =
        enqueued s.log := by
  have hdeque (i : Fin n) : ∃ q : List T,
      ((s.pDeques i).owner = .idle → q = (s.pDeques i).entries) ∧
        (taken (s.pDeques i).log : Multiset T) + q = pushed (s.pDeques i).log := by
    obtain ⟨r, hr⟩ := run_inv (pDeques_run h i)
    refine ⟨_, fun hidle => ?_, Quotient.sound hr.contents.perm⟩
    simp only [WSDeque.State.entries, hr.active, WSDeque.State.limit, hidle]
  choose q hq hsum using hdeque
  have hi := inv_of_reachable h.reachable
  refine ⟨q, hq, ?_⟩
  rw [hi.dequeued, hi.enqueued, ← Finset.sum_add_distrib]
  exact Finset.sum_congr rfl fun i _ => hsum i

/-- The deques share one tracker with one slot for each thread: what a thread's slots name in
all deques is at most one ring of one deque. -/
theorem one_hazard_slot (h : (machine T n).Reachable s) (tid : Fin n) :
    ∃ slot : Option (Fin n × Address),
      ∀ i a, (s.pDeques i).hazard tid = some a ↔ slot = some (i, a) := by
  have hi := inv_of_reachable h
  have hnone (i : Fin n) (hv : (s.point tid).victim ≠ some i) : (s.pDeques i).hazard tid = none := by
    refine hi.slot tid i ?_
    cases hs : stealing ((s.pDeques i).thief tid) with
    | false => rfl
    | true => exact absurd (hi.thief tid i hs) hv
  cases hv : (s.point tid).victim with
  | none =>
    refine ⟨none, fun i a => ?_⟩
    rw [hnone i (by rw [hv]; exact nofun)]
    exact ⟨nofun, nofun⟩
  | some v =>
    refine ⟨((s.pDeques v).hazard tid).map (v, ·), fun i a => ?_⟩
    rw [Option.map_eq_some_iff]
    by_cases hvi : v = i
    · subst hvi
      exact ⟨fun ha => ⟨a, ha, rfl⟩, fun ⟨b, hb, he⟩ => by rw [hb, (Prod.mk.inj he).2]⟩
    · rw [hnone i (by rw [hv]; exact fun he => hvi (Option.some.inj he))]
      exact ⟨nofun, fun ⟨b, _, he⟩ => absurd (Prod.mk.inj he).1 hvi⟩

/-- `WSDeque(numThreads, glibc, empty)`, with ring cells of value 0. -/
def constructed (T : Type*) (n : ℕ) [Zero T] : State T n where
  pDeques _ := WSDeque.start T (Fin n)
  point _ := .idle
  log := []

theorem init_constructed [Zero T] : Init (constructed T n) where
  deques _ := start_init
  hazard _ _ := rfl
  point _ := rfl
  log := rfl

/-- A condition that can be decided and implies `PushesRestored`. -/
def Careful (l : Label T n) (s : State T n) : Prop :=
  match l with
  | .thread tid c _ => c.spurious = false ∧
    (c.call.isSome = true → (s.pDeques tid).top ≤ (s.pDeques tid).bottom)
  | .free _ _ => True

instance (l : Label T n) (s : State T n) : Decidable (Careful l s) :=
  match l with
  | .thread _ _ _ => inferInstanceAs (Decidable (_ ∧ _))
  | .free _ _ => .isTrue trivial

theorem pushesRestored_of_careful {l : Label T n} (h : Careful l s) : PushesRestored l s := by
  cases l with
  | free i a => trivial
  | thread tid c r =>
    have hr : Restored (.owner c) (s.pDeques tid) := restored_of_careful (l := .owner c) h
    dsimp only [PushesRestored]
    cases s.point tid with
    | loop i | steal i v => trivial
    | _ => exact hr

def ownThread (tid : Fin 2) (call : Option ℕ) : Label ℕ 2 :=
  .thread tid ⟨call, 1, fun _ => 0, false⟩ (Fin.last 1)

/-- After an enqueue of another thread a dequeue finds the own deque empty and draws it; then
it takes `k` steps in which it draws the other deque and steals. -/
def stealRun (k : ℕ) : State ℕ 2 :=
  ((machine ℕ 2).exec Careful
    (List.replicate 6 (ownThread ⟨0, Nat.two_pos⟩ (some 5)) ++
      List.replicate 7 (ownThread (Fin.last 1) none) ++
      List.replicate k (.thread (Fin.last 1) ⟨none, 1, fun _ => 0, false⟩ ⟨0, Nat.two_pos⟩))
    (constructed ℕ 2)).getD (constructed ℕ 2)

theorem stealRun_restored (k : ℕ) : (machine ℕ 2).Run PushesRestored (stealRun k) := by
  have hrun : (machine ℕ 2).Run Careful (stealRun k) :=
    Machine.Run.exec_getD _ (.start init_constructed)
  exact hrun.mono fun _ _ => pushesRestored_of_careful

theorem enqueued_values_kept_stolen :
    enqueued (stealRun 10).log = [5] ∧ dequeued (stealRun 10).log = [5] ∧
      ∃ q : Fin 2 → List ℕ,
        (∀ i, ((stealRun 10).pDeques i).owner = .idle →
          q i = ((stealRun 10).pDeques i).entries) ∧
        (dequeued (stealRun 10).log : Multiset ℕ) + ∑ i, inHand ((stealRun 10).pDeques i) +
          ∑ i, (q i : Multiset ℕ) = enqueued (stealRun 10).log :=
  ⟨by decide +kernel, by decide +kernel, enqueued_values_kept (stealRun_restored 10)⟩

theorem one_hazard_slot_steal :
    ((stealRun 7).pDeques ⟨0, Nat.two_pos⟩).hazard (Fin.last 1) = some 0 ∧
      ∃ slot : Option (Fin 2 × Address),
        ∀ i a, ((stealRun 7).pDeques i).hazard (Fin.last 1) = some a ↔ slot = some (i, a) :=
  ⟨by decide +kernel, one_hazard_slot (stealRun_restored 7).reachable (Fin.last 1)⟩

end UnboundedDeque.WSDequePool
