import UnboundedDeque.LinearizableDeque
import UnboundedDeque.MMDequeRefinement

/-!
# `MMDeque` is linearizable

A push and a pop take effect at their compare-exchange of the anchor, and a pop of the empty
deque when it loads the anchor.
-/
namespace UnboundedDeque.MMDeque
open StepMachine Linearizability

variable {T : Type*} {n : ℕ} {m m' : Memory T n} {l : List Node} {tid : Fin n} {S : Side}
  {c : Choice T} {call : Call T} {pt : Point T} {p : Option (Point T)} {s t : State T n}
  {f : Frame T} {es : List (Effect T)} {e : Effect T} {r : Result T}

/-- The call or the return that a step of a thread makes. -/
def event (l : Fin n × Choice T) (s t : State T n) :
    Option (Event (Fin n) (Side × Call T) (Result T)) :=
  match s.frames l.1, t.frames l.1 with
  | none, some f => some (.call l.1 (f.side, f.call))
  | some f, none =>
    match f.point with
    | .done r => some (.ret l.1 r)
    | _ => none
  | _, _ => none

def Point.foundEmpty : Point T → Bool
  | .done .empty => true
  | _ => false

/-- The phase of a thread with its log. -/
def phase (s : State T n) (log : Fin n → List (Effect T)) (tid : Fin n) :
    Phase (Side × Call T) (Result T) :=
  phaseOf (log tid) ((s.frames tid).any fun f => f.point.foundEmpty)
    ((s.frames tid).map fun f => (f.side, f.call))

theorem foundEmpty_iff : pt.foundEmpty = true ↔ pt = .done .empty := by
  cases pt with
  | done r => cases r <;> simp [Point.foundEmpty]
  | _ => simp [Point.foundEmpty]

/-- A call takes effect once, by what it has been called for. -/
theorem effect_has (hf : pt.Facts m l tid S call) (hl : pt.Logged m S call es) {b : Bool}
    (he : pt.effect m S b = some e) : es = [] ∧ pt.foundEmpty = false ∧ call.Has S e := by
  have hpop {x : Node} {a : Anchor} (hc : call = .pop) (hx : a.most S = some x)
      (he : (a.most S).map (fun x => Effect.remove S (m.data x)) = some e) : call.Has S e := by
    rw [hx, Option.map_some] at he
    obtain rfl := Option.some.inj he
    rw [hc]
    exact .inl ⟨_, rfl, rfl⟩
  cases pt with
  | casEmpty node a =>
    simp only [Point.effect] at he
    split_ifs at he
    obtain rfl := Option.some.inj he
    refine ⟨hl, rfl, ?_⟩
    rw [hf.1.data]
    exact ⟨rfl, rfl⟩
  | casPush node a =>
    simp only [Point.effect] at he
    split_ifs at he
    obtain rfl := Option.some.inj he
    refine ⟨hl, rfl, ?_⟩
    rw [hf.1.data]
    exact ⟨rfl, rfl⟩
  | casSingle a =>
    simp only [Point.effect] at he
    split_ifs at he
    obtain ⟨hc, -, hne⟩ := hf
    obtain ⟨x, hx⟩ := Option.ne_none_iff_exists'.mp hne
    exact ⟨hl, rfl, hpop hc hx he⟩
  | casPop a prev =>
    simp only [Point.effect] at he
    split_ifs at he
    obtain ⟨hc, -, seg, hv, -⟩ := hf
    obtain ⟨x, hx, -⟩ := hv.held S
    exact ⟨hl, rfl, hpop hc hx he⟩
  | _ => cases he

/-- A step inside a call. -/
theorem effective (hm : m.Shape l) (hf : pt.Facts m l tid S call) (hl : pt.Logged m S call es)
    {q : Point T} (hn : next m c tid S call pt = some (m', some q)) :
    Effective False S call (pt.effect m S c.spurious) es pt.foundEmpty q.foundEmpty
      (l.map m.data) where
  fits e he := effect_has hf hl he
  finds _ _ := by
    have hpt : pt.foundEmpty = false := by
      rw [Bool.eq_false_iff, ne_eq, foundEmpty_iff]
      rintro rfl
      cases hn
    cases hq : q.foundEmpty with
    | false => exact .inl hpt.symm
    | true =>
      obtain rfl := foundEmpty_iff.mp hq
      obtain ⟨rfl, hnone⟩ := next_empty hf hn
      exact .inr ⟨hpt, rfl, hf, .inl (by rw [hm.rep.nil_iff.mpr hnone]; rfl)⟩

section Phases

variable {log : Fin n → List (Effect T)}

theorem phase_of_none (hf : s.frames tid = none) : phase s log tid = .idle := by
  rw [phase, hf]
  rfl

theorem phase_of_some (hf : s.frames tid = some f) :
    phase s log tid = phaseOf (log tid) f.point.foundEmpty (some (f.side, f.call)) := by
  rw [phase, hf]
  rfl

/-- The step of a thread leaves the phases of the others alone. -/
theorem phase_of_ne {q : Fin n} (hq : q ≠ tid) (ht : t.frames q = s.frames q) :
    phase t (logEffect (tid, c) s t log) q = phase s log q := by
  have hlog : logEffect (tid, c) s t log q = log q := Function.update_of_ne hq _ _
  rw [phase, phase, ht, hlog]

theorem logEffect_self : logEffect (tid, c) s t log tid =
    if (s.frames tid).isSome then log tid ++ (s.effect (tid, c)).toList else [] :=
  Function.update_self _ _ _

/-- A call that returns is done with the result it returns. -/
theorem phase_of_return (hi : Inv s l) (hl : LogOk s log) (hf : s.frames tid = some f)
    (hn : next s.mem c tid f.side f.call f.point = some (m', none)) :
    ∃ r, f.point = .done r ∧ phase s log tid = .done (f.side, f.call) r := by
  obtain ⟨r, hr⟩ := next_return (hi.facts tid f hf) hn
  have hlog := hl tid f hf
  rw [hr] at hlog
  replace hlog : f.call.Returns f.side r (log tid) := hlog
  refine ⟨r, hr, ?_⟩
  rw [phase_of_some hf]
  apply hlog.phase_eq
  intro hnil
  rw [hnil] at hlog
  rw [hr, hlog.eq_empty.1]
  rfl

/-- Every step moves the thread that takes it. -/
theorem moved (hi : Inv s l) (hl : LogOk s log) (hst : step (tid, c) s = some t) :
    ∃ l', Inv t l' ∧ Moved (dequeObject T) (event (tid, c) s t) (phase s log)
      (phase t (logEffect (tid, c) s t log)) (fun _ _ => False) (fun _ _ => False) tid
        (l.map s.mem.data) (l'.map t.mem.data) := by
  rcases step_cases hst with ⟨hf, pt, rfl, hp⟩ | ⟨f, m', p, hf, hn, rfl⟩
  · have hpt : pt.foundEmpty = false := by rcases hp with ⟨rfl, -⟩ | ⟨rfl, -⟩ <;> rfl
    refine ⟨l, hi.start hp, fun q hq => phase_of_ne hq (Function.update_of_ne hq _ _), ?_, ?_,
      fun _ _ _ _ h => h.elim⟩
    · rw [phase_of_none hf, phase_of_some (Function.update_self _ _ _), logEffect_self, hf, hpt]
      exact .call
    · rw [phase_of_none hf, phase_of_some (Function.update_self _ _ _), logEffect_self, hf, hpt]
      simp only [event, hf, Function.update_self]
      rfl
  · obtain ⟨l', hi', hchanges⟩ := hi.next hf hn
    have hself := Function.update_self tid (p.map fun p => { f with point := p }) s.frames
    have heff : s.effect (tid, c) = f.point.effect s.mem f.side c.spurious := by
      rw [State.effect, hf, Option.bind_some]
    refine ⟨l', hi', fun q hq => phase_of_ne hq (Function.update_of_ne hq _ _), ?_, ?_,
      fun _ _ _ _ h => h.elim⟩
    · cases p with
      | some q =>
        rw [phase_of_some hf, phase_of_some hself, logEffect_self, hf, heff]
        exact (effective hi.shape (hi.facts tid f hf) (hl tid f hf) hn).moves hchanges
      | none =>
        obtain ⟨r, hr, hdone⟩ := phase_of_return hi hl hf hn
        rw [hr] at hchanges
        rw [hdone, phase_of_none hself, show l'.map m'.data = l.map s.mem.data from hchanges]
        exact .ret
    · cases p with
      | some q =>
        rw [phase_of_some hf, phase_of_some hself, event_phaseOf]
        simp only [event, hf, Function.update_self]
        rfl
      | none =>
        obtain ⟨r, hr, hdone⟩ := phase_of_return hi hl hf hn
        rw [hdone, phase_of_none hself]
        simp only [event, hf, Function.update_self, hr, Option.map_none]
        rfl

end Phases

theorem atomic (T : Type*) (n : ℕ) : Atomic (logged T n) (fun _ _ => True) (dequeObject T)
    (fun u a => ∃ l, Inv u.1 l ∧ a = l.map u.1.mem.data) (fun u => phase u.1 u.2)
    (fun _ _ _ => False) fun a u v => event a u.1 v.1 where
  init u hu := ⟨⟨[], Inv.init hu.1, rfl⟩, fun p => phase_of_none (hu.1.frames p)⟩
  step := by
    rintro ⟨tid, c⟩ ⟨s, log⟩ ⟨t, log'⟩ a hr - hs ⟨l, hi, rfl⟩
    obtain ⟨hst, hlog⟩ := Machine.account_step.mp hs
    obtain rfl : log' = logEffect (tid, c) s t log := hlog
    obtain ⟨l', hi', hm⟩ := moved hi (run_logOk hr) hst
    exact ⟨_, tid, ⟨l', hi', rfl⟩, hm⟩

/-- The calls of every run have the results they could have had one after another, each at a
moment between its call and its return, and what they leave is the list the links and the
anchor represent. -/
theorem anchor_linearizable {x : State T n × List (Event (Fin n) (Side × Call T) (Result T))}
    (h : (withHistory (machine T n) event).Reachable x) :
    ∃ l, x.1.mem.Represents l ∧ Linearizable (dequeObject T) x.2 (l.map x.1.mem.data) := by
  obtain ⟨log, a, ⟨l, hi, rfl⟩, hlin⟩ := (atomic T n).linearizable_of_account (fun _ _ => True) h
  exact ⟨l, hi.shape.rep, hlin⟩

/-- Two pushes that overlap; the one that is called later helps the other and returns first. -/
def twoPushes : State ℕ 2 × List (Event (Fin 2) (Side × Call ℕ) (Result ℕ)) :=
  ((withHistory (machine ℕ 2) event).exec (fun _ _ => True)
    (halfPush ++ List.replicate 34 (pushRight (Fin.last 1) 9 3) ++
      List.replicate 4 (pushRight ⟨0, Nat.two_pos⟩ 8 2))
    (constructed 2, [])).getD (constructed 2, [])

theorem anchor_linearizable_pushes :
    twoPushes.2 = [.call ⟨0, Nat.two_pos⟩ (.right, .push 7), .ret ⟨0, Nat.two_pos⟩ .pushed,
      .call ⟨0, Nat.two_pos⟩ (.right, .push 8), .call (Fin.last 1) (.right, .push 9),
      .ret (Fin.last 1) .pushed, .ret ⟨0, Nat.two_pos⟩ .pushed] ∧
      ∃ l, twoPushes.1.mem.Represents l ∧
        Linearizable (dequeObject ℕ) twoPushes.2 (l.map twoPushes.1.mem.data) := by
  have hrun : (withHistory (machine ℕ 2) event).Reachable twoPushes :=
    Machine.Run.exec_getD _ (.start ⟨init_constructed 2, rfl⟩)
  exact ⟨by decide +kernel, anchor_linearizable hrun⟩

end UnboundedDeque.MMDeque
