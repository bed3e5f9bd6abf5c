import UnboundedDeque.StepMachine
import UnboundedDeque.VerificationValues

/-!
# `QueueVerificationTest` raises no false alarm

The loop of `execute` over a deque whose operations are single steps. What a
consumer has found of a producer is older than what is still in the deque, and
that is older than what the producer inserts next.
-/
namespace UnboundedDeque.VerificationTests
open StepMachine UIDGenerator

namespace Queue

inductive Point
  | loop
  | push
  | uid
  | pop
  | check (removed : UInt32)
  | violation
  | done
  deriving DecidableEq, Repr

/-- The locals of `execute`; `rand` is `r`. -/
structure Local where
  rand : UInt32
  found : ℕ → UInt32
  inserting : UInt32
  point : Point

structure State (n : ℕ) where
  deque : List UInt32
  locals : Fin n → Local

variable {n : ℕ}

def State.goto (s : State n) (tid : Fin n) (point : Point) : State n :=
  { s with locals := Function.update s.locals tid { s.locals tid with point } }

/-- One step of a thread; the label tells whether the time is up. -/
def step : Fin n × Bool → State n → Option (State n)
  | (tid, timeUp), s =>
    let e := s.locals tid
    match e.point with
    | .loop =>
      if timeUp then some (s.goto tid .done)
      else
        let rand := ElimTable.nextRand e.rand
        some { s with
          locals := Function.update s.locals tid
            { e with rand, point := if rand % 2 = 0 then .push else .pop } }
    | .push => some ({ s with deque := Side.right.add e.inserting s.deque }.goto tid .uid)
    | .uid =>
      let inserting := next n e.inserting
      some { s with
        locals := Function.update s.locals tid
          { e with inserting, point := if inserting = 0 then .done else .loop } }
    | .pop =>
      let removed := popped .left s.deque
      some ({ s with deque := Side.left.rest s.deque }.goto tid
        (if removed = EMPTY then .loop else .check removed))
    | .check removed =>
      if count n removed ≤ e.found (key n removed) then some (s.goto tid .violation)
      else
        some { s with
          locals := Function.update s.locals tid
            { e with found := Function.update e.found (key n removed) (count n removed),
                     point := .loop } }
    | .violation => none
    | .done => none

/-- The start with any seeds. -/
structure Init (s : State n) : Prop where
  deque : s.deque = []
  found : ∀ tid i, (s.locals tid).found i = 0
  inserting : ∀ tid, (s.locals tid).inserting = initial n tid
  point : ∀ tid, (s.locals tid).point = .loop

def machine (n : ℕ) : Machine (Fin n × Bool) (State n) where
  init := Init
  step := step

variable {s t : State n} {tid u : Fin n} {p : ℕ} {ok ok' : UInt32 → Prop} {e : Local}
  {d : List UInt32} {timeUp : Bool} {r : UInt32}

/-- Everything of a producer that is in the deque, on its way to a check or found
by a consumer has a position with a property. -/
structure Bounded (s : State n) (p : ℕ) (ok : UInt32 → Prop) : Prop where
  deque : ∀ x ∈ s.deque, key n x = p → ok (count n x)
  found : ∀ u, ok ((s.locals u).found p)
  removed : ∀ u r, (s.locals u).point = .check r → key n r = p → ok (count n r)

/-- What a producer inserts next is newer than all it has inserted. -/
def Ahead (s : State n) (tid : Fin n) : Prop :=
  ∃ c, Nth n tid c (s.locals tid).inserting ∧
    Bounded s tid (· < count n (s.locals tid).inserting)

/-- A value about to be checked is newer than what its consumer has found and older
than what is left. -/
structure Held (s : State n) (tid : Fin n) (r : UInt32) : Prop where
  issued : ∃ p < n, ∃ c, Nth n p c r
  found : (s.locals tid).found (key n r) < count n r
  deque : ∀ x ∈ s.deque, key n x = key n r → count n r < count n x

def Facts (s : State n) (tid : Fin n) : Point → Prop
  | .uid => ∃ c, Nth n tid c (s.locals tid).inserting ∧
      Bounded s tid (· ≤ count n (s.locals tid).inserting)
  | .check r => Ahead s tid ∧ Held s tid r
  | .violation => False
  | .done => True
  | _ => Ahead s tid

structure Inv (s : State n) : Prop where
  stamped : Stamped n s.deque
  found : ∀ tid, ∀ x ∈ s.deque, (s.locals tid).found (key n x) < count n x
  facts : ∀ tid, Facts s tid (s.locals tid).point

/-- The state after a step: the deque and the locals of one thread change. -/
def State.set (s : State n) (tid : Fin n) (d : List UInt32) (e : Local) : State n :=
  ⟨d, Function.update s.locals tid e⟩

@[simp] theorem set_deque : (s.set tid d e).deque = d := rfl

@[simp] theorem set_locals : (s.set tid d e).locals tid = e := Function.update_self _ _ _

theorem set_locals_of_ne (hu : u ≠ tid) : (s.set tid d e).locals u = s.locals u :=
  Function.update_of_ne hu _ _

theorem Bounded.set (h : Bounded s p ok) (hd : ∀ x ∈ d, key n x = p → ok (count n x))
    (hf : ok (e.found p)) (hr : ∀ r, e.point = .check r → key n r = p → ok (count n r)) :
    Bounded (s.set tid d e) p ok := by
  refine ⟨hd, fun u => ?_, fun u r hp => ?_⟩
  · by_cases hu : u = tid
    · rw [hu, set_locals]
      exact hf
    · rw [set_locals_of_ne hu]
      exact h.found u
  · by_cases hu : u = tid
    · rw [hu, set_locals] at hp
      exact hr r hp
    · rw [set_locals_of_ne hu] at hp
      exact h.removed u r hp

theorem Bounded.mono (h : Bounded s p ok) (ho : ∀ x, ok x → ok' x) : Bounded s p ok' :=
  ⟨fun x hx hk => ho _ (h.deque x hx hk), fun u => ho _ (h.found u),
    fun u r hp hk => ho _ (h.removed u r hp hk)⟩

/-- A step keeps the invariant if the deque stays stamped and newer than what has been
found and removed, what the step adds of other producers was there before, and the
thread's own facts hold again. -/
theorem Inv.set (h : Inv s) (hst : Stamped n d)
    (hfound : ∀ u ≠ tid, ∀ x ∈ d, (s.locals u).found (key n x) < count n x)
    (hself : ∀ x ∈ d, e.found (key n x) < count n x)
    (hheld : ∀ u ≠ tid, ∀ r, (s.locals u).point = .check r → ∀ x ∈ d, key n x = key n r →
      count n r < count n x)
    (hother : ∀ p ≠ (tid : ℕ), ∀ ok, Bounded s p ok → Bounded (s.set tid d e) p ok)
    (hfacts : Facts (s.set tid d e) tid e.point) : Inv (s.set tid d e) := by
  refine ⟨hst, fun u => ?_, fun u => ?_⟩
  · by_cases hu : u = tid
    · rw [hu, set_locals]
      exact hself
    · rw [set_locals_of_ne hu]
      exact hfound u hu
  · by_cases hu : u = tid
    · rw [hu, set_locals]
      exact hfacts
    · have hne : (u : ℕ) ≠ tid := fun h => hu (Fin.ext h)
      have hf := h.facts u
      have hahead (ha : Ahead s u) : Ahead (s.set tid d e) u := by
        obtain ⟨c, hc, hb⟩ := ha
        refine ⟨c, ?_⟩
        rw [set_locals_of_ne hu]
        exact ⟨hc, hother u hne _ hb⟩
      rw [set_locals_of_ne hu]
      cases hp : (s.locals u).point with
      | uid =>
        rw [hp] at hf
        obtain ⟨c, hc, hb⟩ := hf
        refine ⟨c, ?_⟩
        rw [set_locals_of_ne hu]
        exact ⟨hc, hother u hne _ hb⟩
      | check r =>
        rw [hp] at hf
        refine ⟨hahead hf.1, hf.2.issued, ?_, hheld u hu r hp⟩
        rw [set_locals_of_ne hu]
        exact hf.2.found
      | violation =>
        rw [hp] at hf
        exact hf
      | done => trivial
      | _ =>
        rw [hp] at hf
        exact hahead hf

/-- A step that changes the locals only. -/
theorem Inv.local (h : Inv s) (hself : ∀ x ∈ s.deque, e.found (key n x) < count n x)
    (hother : ∀ p ≠ (tid : ℕ), ∀ ok, Bounded s p ok → ok (e.found p))
    (hr : ∀ r, e.point ≠ .check r) (hfacts : Facts (s.set tid s.deque e) tid e.point) :
    Inv (s.set tid s.deque e) := by
  apply h.set h.stamped (fun u _ => h.found u) hself
  · intro u hu r hp
    have hf := h.facts u
    rw [hp] at hf
    exact hf.2.deque
  · intro p hp ok hb
    exact hb.set hb.deque (hother p hp ok hb) fun r he => absurd he (hr r)
  · exact hfacts

theorem inv_init (hn : n < 2 ^ 30) (h : Init s) : Inv s := by
  refine ⟨⟨by simp [h.deque], by simp [h.deque]⟩, by simp [h.deque], fun tid => ?_⟩
  rw [h.point]
  refine ⟨1, h.inserting tid ▸ nth_initial hn tid.isLt, by simp [h.deque], fun u => ?_, fun u r hp => ?_⟩
  · rw [h.found, h.inserting]
    exact count_pos hn tid.isLt (nth_initial hn tid.isLt)
  · rw [h.point] at hp
    cases hp

/-- A step of a thread that keeps its inserting and its found values. -/
theorem ahead_local {point : Point} {rand : UInt32} (h : Ahead s tid) (hp : ∀ r, point ≠ .check r) :
    Ahead (s.set tid s.deque { s.locals tid with rand, point }) tid := by
  obtain ⟨c, hc, hb⟩ := h
  refine ⟨c, ?_⟩
  rw [set_locals]
  exact ⟨hc, hb.set hb.deque (hb.found tid) fun r he => absurd he (hp r)⟩

theorem inv_push (hn : n < 2 ^ 30) (h : Inv s) (hp : (s.locals tid).point = .push) :
    Inv (s.set tid (Side.right.add (s.locals tid).inserting s.deque)
      { s.locals tid with point := .uid }) := by
  have hf := h.facts tid
  rw [hp] at hf
  obtain ⟨c, hc, hb⟩ := hf
  have hkey : key n (s.locals tid).inserting = tid := key_eq hn tid.isLt hc
  have hnew (u : Fin n) : ∀ x ∈ Side.right.add (s.locals tid).inserting s.deque,
      (s.locals u).found (key n x) < count n x := by
    intro x hx
    rcases Side.mem_add.mp hx with rfl | hx
    · rw [hkey]
      exact hb.found u
    · exact h.found u x hx
  apply h.set
  · exact h.stamped.push tid.isLt hc fun x hx hk => hb.deque x hx (hk.trans hkey)
  · exact fun u _ => hnew u
  · exact hnew tid
  · intro u hu r hr x hx hk
    have hu' := h.facts u
    rw [hr] at hu'
    rcases Side.mem_add.mp hx with rfl | hx
    · exact hb.removed u r hr (hk.symm.trans hkey)
    · exact hu'.2.deque x hx hk
  · intro p hne ok hbp
    refine hbp.set (fun x hx hk => ?_) (hbp.found tid) fun r he => by cases he
    rcases Side.mem_add.mp hx with rfl | hx
    · exact absurd (hk.symm.trans hkey) hne
    · exact hbp.deque x hx hk
  · refine ⟨c, ?_⟩
    rw [set_locals]
    refine ⟨hc, (hb.mono fun x hx => UInt32.le_of_lt hx).set (fun x hx hk => ?_)
      (UInt32.le_of_lt (hb.found tid)) fun r he => by cases he⟩
    rcases Side.mem_add.mp hx with rfl | hx
    · exact UInt32.le_refl _
    · exact UInt32.le_of_lt (hb.deque x hx hk)

theorem inv_uid (hn : n < 2 ^ 30) (h : Inv s) (hp : (s.locals tid).point = .uid) :
    Inv (s.set tid s.deque { s.locals tid with
      inserting := next n (s.locals tid).inserting
      point := if next n (s.locals tid).inserting = 0 then .done else .loop }) := by
  have hf := h.facts tid
  rw [hp] at hf
  obtain ⟨c, hc, hb⟩ := hf
  apply h.local
  · exact h.found tid
  · exact fun p _ ok hbp => hbp.found tid
  · intro r
    dsimp only
    split_ifs <;> simp
  · dsimp only
    split_ifs with h0
    · trivial
    · have hlt := count_lt_next hn tid.isLt hc h0
      refine ⟨c + 1, ?_⟩
      rw [set_locals]
      refine ⟨nth_next hn tid.isLt hc h0, ?_⟩
      have hb' := hb.mono fun x hx => UInt32.lt_of_le_of_lt hx hlt
      exact hb'.set hb'.deque (hb'.found tid) fun r he => by cases he

theorem inv_pop (h : Inv s) (hp : (s.locals tid).point = .pop) :
    Inv (s.set tid (Side.left.rest s.deque) { s.locals tid with
      point := if popped .left s.deque = EMPTY then .loop else .check (popped .left s.deque) }) := by
  have hf := h.facts tid
  rw [hp] at hf
  have hmem {x : UInt32} (hx : x ∈ Side.left.rest s.deque) : x ∈ s.deque := mem_of_mem_rest .left hx
  have hset {p : ℕ} {ok : UInt32 → Prop} (hb : Bounded s p ok) :
      Bounded (s.set tid (Side.left.rest s.deque) { s.locals tid with
        point := if popped .left s.deque = EMPTY then .loop else .check (popped .left s.deque) })
        p ok := by
    refine hb.set (fun x hx => hb.deque x (hmem hx)) (hb.found tid) fun r he hk => ?_
    dsimp only at he
    split_ifs at he with h0
    cases he
    exact hb.deque _ (Side.mem_of_first (first_of_popped h0)) hk
  have hahead : Ahead (s.set tid (Side.left.rest s.deque) { s.locals tid with
      point := if popped .left s.deque = EMPTY then .loop else .check (popped .left s.deque) }) tid := by
    obtain ⟨c, hc, hb⟩ := hf
    refine ⟨c, ?_⟩
    rw [set_locals]
    exact ⟨hc, hset hb⟩
  apply h.set (h.stamped.rest .left)
  · exact fun u _ x hx => h.found u x (hmem hx)
  · exact fun x hx => h.found tid x (hmem hx)
  · intro u hu r hr x hx hk
    have hu' := h.facts u
    rw [hr] at hu'
    exact hu'.2.deque x (hmem hx) hk
  · exact fun p _ ok hb => hset hb
  · by_cases h0 : popped .left s.deque = EMPTY
    · rw [if_pos h0] at hahead ⊢
      exact hahead
    · rw [if_neg h0] at hahead ⊢
      have hfirst := first_of_popped h0
      have hin := Side.mem_of_first hfirst
      refine ⟨hahead, h.stamped.issued _ hin, ?_, fun x hx hk => h.stamped.first_left hfirst hx hk⟩
      rw [set_locals]
      exact h.found tid _ hin

theorem inv_check (h : Inv s) (hp : (s.locals tid).point = .check r) :
    Inv (s.set tid s.deque { s.locals tid with
      found := Function.update (s.locals tid).found (key n r) (count n r)
      point := .loop }) := by
  have hf := h.facts tid
  rw [hp] at hf
  obtain ⟨⟨c, hc, hb⟩, hheld⟩ := hf
  have hfound {p : ℕ} {ok : UInt32 → Prop} (hb : Bounded s p ok) :
      ok (Function.update (s.locals tid).found (key n r) (count n r) p) := by
    rw [Function.update_apply]
    split_ifs with hk
    · exact hb.removed tid r hp hk.symm
    · exact hb.found tid
  apply h.local
  · intro x hx
    dsimp only
    rw [Function.update_apply]
    split_ifs with hk
    · exact hheld.deque x hx hk
    · exact h.found tid x hx
  · exact fun p _ ok hb => hfound hb
  · exact fun r => by simp
  · refine ⟨c, ?_⟩
    rw [set_locals]
    exact ⟨hc, hb.set hb.deque (hfound hb) fun r he => by cases he⟩

theorem inv_step (hn : n < 2 ^ 30) (h : Inv s) (hs : (machine n).step (tid, timeUp) s = some t) :
    Inv t := by
  have hf := h.facts tid
  simp only [machine, step] at hs
  split at hs
  · rename_i hp
    rw [hp] at hf
    have hgo (point : Point) (rand : UInt32) (hr : ∀ r, point ≠ .check r)
        (hfacts : Facts (s.set tid s.deque { s.locals tid with rand, point }) tid point) :
        Inv (s.set tid s.deque { s.locals tid with rand, point }) := by
      apply h.local
      · exact h.found tid
      · exact fun p _ ok hb => hb.found tid
      · exact hr
      · exact hfacts
    split_ifs at hs with htime hrand
    · exact Option.some.inj hs ▸ hgo _ (s.locals tid).rand (by simp) trivial
    · exact Option.some.inj hs ▸ hgo _ _ (by simp) (ahead_local hf (by simp))
    · exact Option.some.inj hs ▸ hgo _ _ (by simp) (ahead_local hf (by simp))
  · rename_i hp
    exact Option.some.inj hs ▸ inv_push hn h hp
  · rename_i hp
    exact Option.some.inj hs ▸ inv_uid hn h hp
  · rename_i hp
    exact Option.some.inj hs ▸ inv_pop h hp
  · rename_i r hp
    rw [hp] at hf
    rw [if_neg (UInt32.not_le.mpr hf.2.found)] at hs
    exact Option.some.inj hs ▸ inv_check h hp
  · cases hs
  · cases hs

/-- No consumer reaches the branch that reports a reordering. -/
theorem no_violation (hn : n < 2 ^ 30) (h : (machine n).Reachable s) (tid : Fin n) :
    (s.locals tid).point ≠ .violation := by
  have hi : Inv s := by
    apply h.invariant
    · exact fun s hs => inv_init hn hs
    · rintro ⟨tid, timeUp⟩ s t - hi - hs
      exact inv_step hn hi hs
  intro hp
  have hf := hi.facts tid
  rw [hp] at hf
  exact hf

end Queue
end UnboundedDeque.VerificationTests
