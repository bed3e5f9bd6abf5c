import UnboundedDeque.QueueVerificationTest

/-!
# `StackVerificationTest` raises no false alarm

The loop of `execute` with its phases. A thread leaves a barrier when every other
thread has come to it, so no thread pushes while another one pops or still has
values of an earlier phase to compare with.
-/
namespace UnboundedDeque.VerificationTests
open StepMachine UIDGenerator

namespace Stack

inductive Point
  | head
  | barrier1
  | fetchAdd
  | barrier2
  | clearCount
  | setDone
  | barrier3
  | testDone
  | barrier4
  | push
  | uid
  | pop
  | check (removed : UInt32)
  | violation
  | done
  deriving DecidableEq, Repr

def Point.isBarrier : Point → Bool
  | .barrier1 | .barrier2 | .barrier3 | .barrier4 => true
  | _ => false

/-- The locals of `execute`. `passed`, the number of barriers left, is a ghost. -/
structure Local where
  phase : ℕ
  found : ℕ → UInt32
  inserting : UInt32
  empty : Bool
  count : ℕ
  point : Point
  passed : ℕ

structure State (n : ℕ) where
  deque : List UInt32
  phaseCount : ℕ
  done : Bool
  locals : Fin n → Local

/-- `opsPerPhase` -/
def opsPerPhase : ℕ := 5000

variable {n : ℕ}

def State.set (s : State n) (tid : Fin n) (d : List UInt32) (e : Local) : State n :=
  { s with deque := d, locals := Function.update s.locals tid e }

/-- A full barrier lets a thread go when each thread has come to it. -/
def Arrived (s : State n) (tid : Fin n) : Prop :=
  ∀ u, (s.locals tid).passed < (s.locals u).passed ∨
    (s.locals u).passed = (s.locals tid).passed ∧ (s.locals u).point.isBarrier

instance (s : State n) (tid : Fin n) : Decidable (Arrived s tid) :=
  inferInstanceAs (Decidable (∀ _, _))

/-- `barrier()` -/
def State.barrier (s : State n) (tid : Fin n) (point : Point) : Option (State n) :=
  if Arrived s tid then
    some (s.set tid s.deque { s.locals tid with point, passed := (s.locals tid).passed + 1 })
  else none

/-- The test at the head of the loop. -/
def Local.atEnd (e : Local) : Prop :=
  (e.phase % 2 = 0 ∧ e.empty) ∨ (e.phase % 2 = 1 ∧ opsPerPhase ≤ e.count)

instance (e : Local) : Decidable e.atEnd := inferInstanceAs (Decidable (_ ∨ _))

/-- The body of the loop of a phase. -/
def Local.body (e : Local) : Point := if e.phase % 2 = 1 then .push else .pop

/-- One step of a thread; the label tells whether the time is up. -/
def step : Fin n × Bool → State n → Option (State n)
  | (tid, timeUp), s =>
    let e := s.locals tid
    match e.point with
    | .head =>
      if e.atEnd then some (s.set tid s.deque { e with found := fun _ => 0, point := .barrier1 })
      else some (s.set tid s.deque { e with point := e.body })
    | .barrier1 => s.barrier tid .fetchAdd
    | .fetchAdd =>
      some { s.set tid s.deque { e with point := .barrier2 } with
        phaseCount := s.phaseCount + e.count }
    | .barrier2 => s.barrier tid .clearCount
    | .clearCount =>
      if (tid : ℕ) = 0 then
        some { s.set tid s.deque { e with point := .setDone } with phaseCount := 0 }
      else some (s.set tid s.deque { e with count := 0, phase := e.phase + 1, point := .barrier3 })
    | .setDone =>
      some { s.set tid s.deque { e with count := 0, phase := e.phase + 1, point := .barrier3 } with
        done := e.empty && timeUp }
    | .barrier3 => s.barrier tid .testDone
    | .testDone =>
      some (s.set tid s.deque { e with point := if s.done then .done else .barrier4 })
    | .barrier4 => s.barrier tid e.body
    | .push => some (s.set tid (Side.right.add e.inserting s.deque) { e with point := .uid })
    | .uid =>
      let inserting := next n e.inserting
      if inserting = 0 then some (s.set tid s.deque { e with inserting, point := .done })
      else
        some (s.set tid s.deque
          { e with inserting, empty := false, count := e.count + 1, point := .head })
    | .pop =>
      let removed := popped .right s.deque
      some (s.set tid (Side.right.rest s.deque)
        (if removed = EMPTY then { e with empty := true, point := .head }
        else { e with point := .check removed }))
    | .check removed =>
      if e.found (key n removed) ≠ 0 ∧ e.found (key n removed) ≤ count n removed then
        some (s.set tid s.deque { e with point := .violation })
      else
        some (s.set tid s.deque
          { e with
            found := Function.update e.found (key n removed) (count n removed)
            count := e.count + 1
            point := .head })
    | .violation => none
    | .done => none

/-- The start of `execute` on a new deque. -/
structure Init (s : State n) : Prop where
  deque : s.deque = []
  phaseCount : s.phaseCount = 0
  done : s.done = false
  locals : ∀ tid, s.locals tid = ⟨0, fun _ => 0, initial n tid, true, Stack.opsPerPhase, .head, 0⟩

def machine (n : ℕ) : Machine (Fin n × Bool) (State n) where
  init := Init
  step := step

variable {s t : State n} {tid u : Fin n} {p : ℕ} {e : Local} {d : List UInt32} {timeUp : Bool}
  {r : UInt32} {point : Point}

/-- What a producer inserts next is newer than all of its values in the deque. -/
def Ahead (d : List UInt32) (tid : Fin n) (e : Local) : Prop :=
  ∃ c, Nth n tid c e.inserting ∧ ∀ x ∈ d, key n x = tid → UIDGenerator.count n x < UIDGenerator.count n e.inserting

/-- Nothing has been found in this phase. -/
def Local.Clear (e : Local) : Prop := ∀ i, e.found i = 0

/-- What has been found of a producer is newer than all of its values in the deque. -/
def FoundOk (n : ℕ) (d : List UInt32) (e : Local) : Prop :=
  ∀ x ∈ d, e.found (key n x) ≠ 0 → UIDGenerator.count n x < e.found (key n x)

/-- A value about to be checked is older than what its consumer has found and newer
than what is left. -/
structure Held (d : List UInt32) (e : Local) (r : UInt32) : Prop where
  found : e.found (key n r) ≠ 0 → UIDGenerator.count n r < e.found (key n r)
  deque : ∀ x ∈ d, key n x = key n r → UIDGenerator.count n x < UIDGenerator.count n r

/-- What holds of a thread with the deque as it is. The number of barriers passed
tells the phase. -/
def Facts (d : List UInt32) (tid : Fin n) (e : Local) : Prop :=
  match e.point with
  | .head => e.passed = 4 * e.phase ∧ (e.phase % 2 = 1 → e.Clear) ∧ Ahead d tid e
  | .push => e.passed = 4 * e.phase ∧ e.phase % 2 = 1 ∧ e.Clear ∧ Ahead d tid e
  | .uid => e.passed = 4 * e.phase ∧ e.phase % 2 = 1 ∧ e.Clear ∧ ∃ c, Nth n tid c e.inserting ∧
      ∀ x ∈ d, key n x = tid → UIDGenerator.count n x ≤ UIDGenerator.count n e.inserting
  | .pop => e.passed = 4 * e.phase ∧ e.phase % 2 = 0 ∧ Ahead d tid e
  | .check r => e.passed = 4 * e.phase ∧ e.phase % 2 = 0 ∧ Ahead d tid e ∧ Held (n := n) d e r
  | .barrier1 => e.passed = 4 * e.phase ∧ e.Clear ∧ Ahead d tid e
  | .fetchAdd | .barrier2 => e.passed = 4 * e.phase + 1 ∧ e.Clear ∧ Ahead d tid e
  | .clearCount | .setDone => e.passed = 4 * e.phase + 2 ∧ e.Clear ∧ Ahead d tid e
  | .barrier3 => e.passed + 2 = 4 * e.phase ∧ e.Clear ∧ Ahead d tid e
  | .testDone | .barrier4 => e.passed + 1 = 4 * e.phase ∧ e.Clear ∧ Ahead d tid e
  | .violation => False
  | .done => True

structure Inv (s : State n) : Prop where
  stamped : Stamped n s.deque
  found : ∀ tid, (s.locals tid).point ≠ .done → FoundOk n s.deque (s.locals tid)
  facts : ∀ tid, Facts s.deque tid (s.locals tid)
  passed : ∀ t u, (s.locals u).passed ≤ (s.locals t).passed + 1
  waits : ∀ t u, (s.locals u).passed = (s.locals t).passed + 1 → (s.locals t).point.isBarrier

theorem inv_init (hn : n < 2 ^ 30) (h : Init s) : Inv s := by
  constructor
  · exact ⟨by simp [h.deque], by simp [h.deque]⟩
  · intro tid _
    simp [FoundOk, h.deque]
  · intro tid
    rw [h.locals]
    refine ⟨rfl, fun _ _ => rfl, 1, nth_initial hn tid.isLt, ?_⟩
    simp [h.deque]
  · intro t u
    rw [h.locals, h.locals]
    exact Nat.le_succ _
  · intro t u hp
    rw [h.locals, h.locals] at hp
    cases hp

/-- A step of a thread between two barriers. -/
theorem Inv.set (h : Inv s) (ht : t.locals = Function.update s.locals tid e)
    (hst : Stamped n t.deque)
    (hfound : ∀ u ≠ tid, (s.locals u).point ≠ .done → FoundOk n t.deque (s.locals u))
    (hother : ∀ u ≠ tid, Facts t.deque u (s.locals u))
    (hself : e.point ≠ .done → FoundOk n t.deque e) (hfacts : Facts t.deque tid e)
    (hpassed : e.passed = (s.locals tid).passed) (hb : (s.locals tid).point.isBarrier = false) :
    Inv t := by
  have hp (u : Fin n) : (t.locals u).passed = (s.locals u).passed := by
    rw [ht, Function.update_apply]
    split_ifs with hu
    · rw [hu, hpassed]
    · rfl
  refine ⟨hst, fun u => ?_, fun u => ?_, fun v u => by rw [hp, hp]; exact h.passed v u,
    fun v u hvu => ?_⟩
  · rw [ht, Function.update_apply]
    split_ifs with hu
    · exact hself
    · exact hfound u hu
  · rw [ht, Function.update_apply]
    split_ifs with hu
    · exact hu ▸ hfacts
    · exact hother u hu
  · rw [hp, hp] at hvu
    have hw := h.waits v u hvu
    rw [ht, Function.update_apply]
    split_ifs with hv
    · rw [hv, hb] at hw
      cases hw
    · exact hw

/-- A step that leaves the deque as it is. -/
theorem Inv.local (h : Inv s) (ht : t.locals = Function.update s.locals tid e)
    (hd : t.deque = s.deque) (hself : e.point ≠ .done → FoundOk n s.deque e)
    (hfacts : Facts s.deque tid e) (hpassed : e.passed = (s.locals tid).passed)
    (hb : (s.locals tid).point.isBarrier = false) : Inv t := by
  apply h.set ht
  · exact hd ▸ h.stamped
  · exact fun u _ => hd ▸ h.found u
  · exact fun u _ => hd ▸ h.facts u
  · exact hd ▸ hself
  · exact hd ▸ hfacts
  · exact hpassed
  · exact hb

/-- A thread that leaves a barrier. -/
theorem Inv.barrier (h : Inv s) (hs : s.barrier tid point = some t)
    (hp : (s.locals tid).point ≠ .done)
    (hfacts : Facts s.deque tid { s.locals tid with point, passed := (s.locals tid).passed + 1 }) :
    Inv t := by
  unfold State.barrier at hs
  split_ifs at hs with ha
  rw [← Option.some.inj hs]
  have hlocals (u : Fin n) (hu : u ≠ tid) : (s.set tid s.deque { s.locals tid with
      point, passed := (s.locals tid).passed + 1 }).locals u = s.locals u :=
    Function.update_of_ne hu _ _
  have hself : (s.set tid s.deque { s.locals tid with
      point, passed := (s.locals tid).passed + 1 }).locals tid = { s.locals tid with
      point, passed := (s.locals tid).passed + 1 } := Function.update_self _ _ _
  constructor
  · exact h.stamped
  · intro u
    by_cases hu : u = tid
    · rw [hu, hself]
      exact fun _ => h.found tid hp
    · rw [hlocals u hu]
      exact h.found u
  · intro u
    by_cases hu : u = tid
    · rw [hu, hself]
      exact hfacts
    · rw [hlocals u hu]
      exact h.facts u
  · intro v u
    have harr := ha v
    have hle := h.passed v u
    have hle' := h.passed v tid
    by_cases hv : v = tid <;> by_cases hu : u = tid
    · rw [hv, hu]
      exact Nat.le_succ _
    · rw [hv, hself, hlocals u hu]
      have := h.passed tid u
      exact Nat.le_succ_of_le this
    · rw [hu, hself, hlocals v hv]
      dsimp only
      omega
    · rw [hlocals u hu, hlocals v hv]
      exact hle
  · intro v u hvu
    by_cases hv : v = tid
    · subst hv
      rw [hself] at hvu
      by_cases hu : u = v
      · rw [hu, hself] at hvu
        dsimp only at hvu
        omega
      · rw [hlocals u hu] at hvu
        have := h.passed v u
        dsimp only at hvu
        omega
    · rw [hlocals v hv] at hvu ⊢
      by_cases hu : u = tid
      · rw [hu, hself] at hvu
        dsimp only at hvu
        rcases ha v with hlt | ⟨-, hbar⟩
        · omega
        · exact hbar
      · rw [hlocals u hu] at hvu
        exact h.waits v u hvu

/-- While a thread pushes, no other one pops or has values to compare with. -/
theorem clear_of_push (h : Inv s) (hp : (s.locals tid).point = .push)
    (hu : (s.locals u).point ≠ .done) :
    (s.locals u).Clear ∧ ∀ r, (s.locals u).point ≠ .check r := by
  have hf := h.facts tid
  have hfu := h.facts u
  have hle := h.passed u tid
  have hle' := h.passed tid u
  have hw := h.waits tid u
  unfold Facts at hf hfu
  rw [hp] at hf hw
  obtain ⟨hpass, hodd, -⟩ := hf
  cases hpu : (s.locals u).point with
  | head =>
    rw [hpu] at hfu
    obtain ⟨hpassu, hclear, -⟩ := hfu
    refine ⟨hclear ?_, by simp⟩
    omega
  | push =>
    rw [hpu] at hfu
    exact ⟨hfu.2.2.1, by simp⟩
  | uid =>
    rw [hpu] at hfu
    exact ⟨hfu.2.2.1, by simp⟩
  | pop =>
    rw [hpu] at hfu
    obtain ⟨hpassu, heven, -⟩ := hfu
    omega
  | check r =>
    rw [hpu] at hfu
    obtain ⟨hpassu, heven, -⟩ := hfu
    omega
  | violation =>
    rw [hpu] at hfu
    exact hfu.elim
  | done => exact absurd hpu hu
  | _ =>
    rw [hpu] at hfu
    exact ⟨hfu.2.1, by simp⟩

theorem foundOk_of_clear (h : e.Clear) : FoundOk n d e := fun _ _ hx => absurd (h _) hx

/-- The facts of a thread with a deque that has no other values it knows of. -/
theorem Facts.change {d' : List UInt32} (h : Facts d u e) (hd : ∀ x ∈ d', key n x = u → x ∈ d)
    (hheld : ∀ r, e.point = .check r → ∀ x ∈ d', key n x = key n r → x ∈ d) : Facts d' u e := by
  unfold Facts at h ⊢
  cases hp : e.point with
  | uid =>
    rw [hp] at h
    obtain ⟨hpass, hodd, hclear, c, hc, hb⟩ := h
    exact ⟨hpass, hodd, hclear, c, hc, fun x hx hk => hb x (hd x hx hk) hk⟩
  | check r =>
    rw [hp] at h
    obtain ⟨hpass, heven, ⟨c, hc, hb⟩, hr⟩ := h
    exact ⟨hpass, heven, ⟨c, hc, fun x hx hk => hb x (hd x hx hk) hk⟩, hr.found,
      fun x hx hk => hr.deque x (hheld r hp x hx hk) hk⟩
  | violation =>
    rw [hp] at h
    exact h
  | done => trivial
  | push =>
    rw [hp] at h
    obtain ⟨hpass, hodd, hclear, c, hc, hb⟩ := h
    exact ⟨hpass, hodd, hclear, c, hc, fun x hx hk => hb x (hd x hx hk) hk⟩
  | pop =>
    rw [hp] at h
    obtain ⟨hpass, heven, c, hc, hb⟩ := h
    exact ⟨hpass, heven, c, hc, fun x hx hk => hb x (hd x hx hk) hk⟩
  | _ =>
    rw [hp] at h
    obtain ⟨hpass, hclear, c, hc, hb⟩ := h
    exact ⟨hpass, hclear, c, hc, fun x hx hk => hb x (hd x hx hk) hk⟩

theorem inv_push (hn : n < 2 ^ 30) (h : Inv s) (hp : (s.locals tid).point = .push) :
    Inv (s.set tid (Side.right.add (s.locals tid).inserting s.deque)
      { s.locals tid with point := .uid }) := by
  have hf := h.facts tid
  unfold Facts at hf
  rw [hp] at hf
  obtain ⟨hpass, hodd, hclear, c, hc, hb⟩ := hf
  have hkey : key n (s.locals tid).inserting = tid := key_eq hn tid.isLt hc
  apply h.set rfl
  · exact h.stamped.push tid.isLt hc fun x hx hk => hb x hx (hk.trans hkey)
  · exact fun u _ hu => foundOk_of_clear (clear_of_push h hp hu).1
  · intro u hu
    refine (h.facts u).change (fun x hx hk => ?_) fun r hr => ?_
    · rcases (Side.mem_add (S := .right)).mp hx with rfl | hx
      · exact absurd (Fin.ext (hk.symm.trans hkey)) hu
      · exact hx
    · exact absurd hr ((clear_of_push h hp (by simp [hr])).2 r)
  · exact fun _ => foundOk_of_clear hclear
  · refine ⟨hpass, hodd, hclear, c, hc, fun x hx hk => ?_⟩
    rcases (Side.mem_add (S := .right)).mp hx with rfl | hx
    · exact UInt32.le_refl _
    · exact UInt32.le_of_lt (hb x hx hk)
  · rfl
  · rw [hp]
    rfl

theorem inv_pop (h : Inv s) (hp : (s.locals tid).point = .pop) :
    Inv (s.set tid (Side.right.rest s.deque)
      (if popped .right s.deque = EMPTY then { s.locals tid with empty := true, point := .head }
        else { s.locals tid with point := .check (popped .right s.deque) })) := by
  have hf := h.facts tid
  unfold Facts at hf
  rw [hp] at hf
  obtain ⟨hpass, heven, c, hc, hb⟩ := hf
  have hmem {x : UInt32} (hx : x ∈ Side.right.rest s.deque) : x ∈ s.deque := mem_of_mem_rest .right hx
  have hfound (u : Fin n) (hu : (s.locals u).point ≠ .done) :
      FoundOk n (Side.right.rest s.deque) (s.locals u) :=
    fun x hx => h.found u hu x (hmem hx)
  have hpoint : (s.locals tid).point ≠ .done := by simp [hp]
  apply h.set rfl
  · exact h.stamped.rest .right
  · exact fun u _ hu => hfound u hu
  · exact fun u _ => (h.facts u).change (fun x hx _ => hmem hx) fun _ _ x hx _ => hmem hx
  · intro _
    split_ifs
    · exact hfound tid hpoint
    · exact hfound tid hpoint
  · split_ifs with h0
    · exact ⟨hpass, fun hodd => by dsimp only at hodd; omega, c, hc, fun x hx => hb x (hmem hx)⟩
    · have hfirst := first_of_popped h0
      exact ⟨hpass, heven, ⟨c, hc, fun x hx => hb x (hmem hx)⟩,
        h.found tid hpoint _ (Side.mem_of_first hfirst),
        fun x hx hk => h.stamped.first_right hfirst hx hk⟩
  · split_ifs <;> rfl
  · rw [hp]
    rfl

theorem inv_check (h : Inv s) (hp : (s.locals tid).point = .check r) :
    Inv (s.set tid s.deque { s.locals tid with
      found := Function.update (s.locals tid).found (key n r) (UIDGenerator.count n r)
      count := (s.locals tid).count + 1
      point := .head }) := by
  have hf := h.facts tid
  unfold Facts at hf
  rw [hp] at hf
  obtain ⟨hpass, heven, hahead, hheld⟩ := hf
  refine h.local (t := s.set tid s.deque _) rfl rfl ?_ ?_ ?_ ?_
  · intro _ x hx
    dsimp only
    rw [Function.update_apply]
    split_ifs with hk
    · exact fun _ => hheld.deque x hx hk
    · exact h.found tid (by simp [hp]) x hx
  · exact ⟨hpass, fun hodd => by dsimp only at hodd; omega, hahead⟩
  · rfl
  · rw [hp]
    rfl

/-- The new facts of a thread that moves between two barriers with its values. -/
theorem inv_move (h : Inv s) (ht : t.locals = Function.update s.locals tid e)
    (hd : t.deque = s.deque) (hfound : e.found = (s.locals tid).found ∨ e.Clear)
    (hp : (s.locals tid).point ≠ .done) (hpassed : e.passed = (s.locals tid).passed)
    (hb : (s.locals tid).point.isBarrier = false) (hfacts : Facts s.deque tid e) : Inv t := by
  refine h.local ht hd (fun _ => ?_) hfacts hpassed hb
  rcases hfound with he | hclear
  · intro x hx
    rw [he]
    exact h.found tid hp x hx
  · exact foundOk_of_clear hclear

theorem inv_uid (hn : n < 2 ^ 30) (h : Inv s) (hp : (s.locals tid).point = .uid)
    (h0 : next n (s.locals tid).inserting ≠ 0) :
    Inv (s.set tid s.deque { s.locals tid with
      inserting := next n (s.locals tid).inserting
      empty := false
      count := (s.locals tid).count + 1
      point := .head }) := by
  have hf := h.facts tid
  unfold Facts at hf
  rw [hp] at hf
  obtain ⟨hpass, hodd, hclear, c, hc, hb⟩ := hf
  refine inv_move h rfl rfl (.inl rfl) (by simp [hp]) rfl (by rw [hp]; rfl) ?_
  refine ⟨hpass, fun _ => hclear, c + 1, nth_next hn tid.isLt hc h0, fun x hx hk => ?_⟩
  exact UInt32.lt_of_le_of_lt (hb x hx hk) (count_lt_next hn tid.isLt hc h0)

theorem inv_step (hn : n < 2 ^ 30) (h : Inv s) (hs : (machine n).step (tid, timeUp) s = some t) :
    Inv t := by
  have hf := h.facts tid
  simp only [machine, step] at hs
  unfold Facts at hf
  split at hs
  · rename_i hp
    rw [hp] at hf
    obtain ⟨hpass, hclear, hahead⟩ := hf
    split_ifs at hs with hend
    · exact Option.some.inj hs ▸ inv_move h rfl rfl (.inr fun _ => rfl) (by simp [hp]) rfl
        (by rw [hp]; rfl) ⟨hpass, fun _ => rfl, hahead⟩
    · refine Option.some.inj hs ▸ inv_move h rfl rfl (.inl rfl) (by simp [hp]) rfl
        (by rw [hp]; rfl) ?_
      unfold Local.body
      split_ifs with hodd
      · exact ⟨hpass, hodd, hclear hodd, hahead⟩
      · exact ⟨hpass, by dsimp only; omega, hahead⟩
  · rename_i hp
    rw [hp] at hf
    exact h.barrier hs (by simp [hp]) ⟨by dsimp only; omega, hf.2⟩
  · rename_i hp
    rw [hp] at hf
    exact Option.some.inj hs ▸ inv_move h rfl rfl (.inl rfl) (by simp [hp]) rfl
      (by rw [hp]; rfl) hf
  · rename_i hp
    rw [hp] at hf
    exact h.barrier hs (by simp [hp]) ⟨by dsimp only; omega, hf.2⟩
  · rename_i hp
    rw [hp] at hf
    split_ifs at hs with h0
    · exact Option.some.inj hs ▸ inv_move h rfl rfl (.inl rfl) (by simp [hp]) rfl
        (by rw [hp]; rfl) hf
    · exact Option.some.inj hs ▸ inv_move h rfl rfl (.inl rfl) (by simp [hp]) rfl
        (by rw [hp]; rfl) ⟨by dsimp only; omega, hf.2⟩
  · rename_i hp
    rw [hp] at hf
    exact Option.some.inj hs ▸ inv_move h rfl rfl (.inl rfl) (by simp [hp]) rfl
      (by rw [hp]; rfl) ⟨by dsimp only; omega, hf.2⟩
  · rename_i hp
    rw [hp] at hf
    exact h.barrier hs (by simp [hp]) ⟨by dsimp only; omega, hf.2⟩
  · rename_i hp
    rw [hp] at hf
    refine Option.some.inj hs ▸ inv_move h rfl rfl (.inl rfl) (by simp [hp]) rfl
      (by rw [hp]; rfl) ?_
    split_ifs
    · trivial
    · exact hf
  · rename_i hp
    rw [hp] at hf
    obtain ⟨hpass, hclear, hahead⟩ := hf
    refine h.barrier hs (by simp [hp]) ?_
    unfold Local.body
    split_ifs with hodd
    · exact ⟨hpass, hodd, hclear, hahead⟩
    · exact ⟨hpass, by dsimp only; omega, hahead⟩
  · rename_i hp
    exact Option.some.inj hs ▸ inv_push hn h hp
  · rename_i hp
    split_ifs at hs with h0
    · exact Option.some.inj hs ▸ inv_move h rfl rfl (.inl rfl) (by simp [hp]) rfl
        (by rw [hp]; rfl) trivial
    · exact Option.some.inj hs ▸ inv_uid hn h hp h0
  · rename_i hp
    exact Option.some.inj hs ▸ inv_pop h hp
  · rename_i r hp
    rw [hp] at hf
    obtain ⟨-, -, -, hheld⟩ := hf
    rw [if_neg fun hv => UInt32.not_le.mpr (hheld.found hv.1) hv.2] at hs
    exact Option.some.inj hs ▸ inv_check h hp
  · cases hs
  · cases hs

/-- No consumer reaches the branch that reports a reordering, in any phase. -/
theorem no_violation (hn : n < 2 ^ 30) (h : (machine n).Reachable s) (tid : Fin n) :
    (s.locals tid).point ≠ .violation := by
  have hi : Inv s := by
    apply h.invariant
    · exact fun s hs => inv_init hn hs
    · rintro ⟨tid, timeUp⟩ s t - hi - hs
      exact inv_step hn hi hs
  intro hp
  have hf := hi.facts tid
  unfold Facts at hf
  rw [hp] at hf
  exact hf

end Stack

/-- Neither test reports a reordering over a correct deque. -/
theorem no_false_alarm {n : ℕ} (hn : n < 2 ^ 30) :
    (∀ s, (Queue.machine n).Reachable s → ∀ tid, (s.locals tid).point ≠ .violation) ∧
      ∀ s, (Stack.machine n).Reachable s → ∀ tid, (s.locals tid).point ≠ .violation :=
  ⟨fun _ h tid => Queue.no_violation hn h tid, fun _ h tid => Stack.no_violation hn h tid⟩

/-- The next `k` steps of a thread before the time is up. -/
def turns (tid : Fin 2) (k : ℕ) : List (Fin 2 × Bool) := List.replicate k (tid, false)

/-- A start of `QueueVerificationTest` with two threads and their seeds. -/
def Queue.started : Queue.State 2 :=
  ⟨[], fun tid => ⟨if tid = Fin.last 1 then 5 else 1, fun _ => 0, initial 2 tid, .loop⟩⟩

/-- The first thread has pushed two values, and the second one is about to check the later
of them. -/
def Queue.secondCheck : Queue.State 2 :=
  ((Queue.machine 2).exec (fun _ _ => True) (turns ⟨0, Nat.two_pos⟩ 6 ++ turns (Fin.last 1) 5)
    Queue.started).getD Queue.started

theorem Queue.reachable_secondCheck : (Queue.machine 2).Reachable Queue.secondCheck :=
  Machine.Run.exec_getD _ (.start ⟨rfl, fun _ _ => rfl, fun _ => rfl, fun _ => rfl⟩)

/-- The start of `StackVerificationTest` with two threads. -/
def Stack.started : Stack.State 2 :=
  ⟨[], 0, false, fun tid => ⟨0, fun _ => 0, initial 2 tid, true, Stack.opsPerPhase, .head, 0⟩⟩

/-- `k` steps of each of the threads in turn. -/
def alternating (k : ℕ) : List (Fin 2 × Bool) :=
  (List.replicate k (turns ⟨0, Nat.two_pos⟩ 1 ++ turns (Fin.last 1) 1)).flatten

/-- Both threads have passed the four barriers, and each has pushed a value. -/
def Stack.firstPhase : Stack.State 2 :=
  ((Stack.machine 2).exec (fun _ _ => True)
    (alternating 4 ++ turns ⟨0, Nat.two_pos⟩ 2 ++ turns (Fin.last 1) 1 ++ alternating 4)
    Stack.started).getD Stack.started

theorem Stack.reachable_firstPhase : (Stack.machine 2).Reachable Stack.firstPhase :=
  Machine.Run.exec_getD _ (.start ⟨rfl, rfl, rfl, fun _ => rfl⟩)

theorem no_false_alarm_runs :
    ((Queue.secondCheck.locals (Fin.last 1)).point = .check 8 ∧
      ∃ t, (Queue.machine 2).step (Fin.last 1, false) Queue.secondCheck = some t ∧
        ∀ tid, (t.locals tid).point ≠ .violation) ∧
    Stack.firstPhase.deque = [4, 5] ∧
      ∀ tid, (Stack.firstPhase.locals tid).point ≠ .violation := by
  have htwo : (2 : ℕ) < 2 ^ 30 := by decide
  have hcheck : (Queue.secondCheck.locals (Fin.last 1)).point = .check 8 ∧
      ((Queue.machine 2).step (Fin.last 1, false) Queue.secondCheck).isSome ∧
      Stack.firstPhase.deque = [4, 5] := by decide +kernel
  obtain ⟨hpoint, hstep, hdeque⟩ := hcheck
  obtain ⟨t, ht⟩ := Option.isSome_iff_exists.mp hstep
  obtain ⟨hqueue, hstack⟩ := no_false_alarm htwo
  exact ⟨⟨hpoint, t, ht, hqueue t (.step Queue.reachable_secondCheck trivial ht)⟩, hdeque,
    hstack _ Stack.reachable_firstPhase⟩

end UnboundedDeque.VerificationTests
