import UnboundedDeque.MMDequeRefinement

/-!
# The nodes of `MMDeque` and the hazard tracker

An account of the nodes passed to `freeBlock`, of pushes and of retirements. A thread
dereferences a node only if that has not been freed since the thread has found the anchor
unchanged, or has changed it itself. A pop of the only node reserves nothing, so its node may
have been freed and pushed again since the thread has loaded the anchor.
-/
namespace UnboundedDeque.MMDeque
open StepMachine

variable {T : Type*} {n : ℕ} {m m' : Memory T n} {l l' : List Node} {tid q : Fin n} {S : Side}
  {c : Choice T} {call : Call T} {k : Exit} {pt : Point T} {p : Option (Point T)}
  {s t : State T n} {f : Frame T} {x node : Node} {b : Bool}

/-- The pointer that the next step dereferences. -/
def Point.derefs (S : Side) : Point T → Option (Option Node)
  | .store node | .init node _ => some (some node)
  | .neighbor a | .read a => some (a.most S)
  | .stabPrev h => some (h.a.most h.side)
  | .stabNext _ prev | .stabCas _ prev _ => some prev
  | _ => none

/-- The next step allocates a node, finds the anchor unchanged or changes it. -/
def Point.checks (m : Memory T n) (spurious : Bool) : Point T → Bool
  | .alloc => true
  | .casEmpty _ a | .casPush _ a | .casSingle a | .casPop a _ =>
    m.anchor = a ∧ spurious = false
  | .validate a => a = m.anchor
  | .stabValidate h | .stabRevalidate h _ | .stabCheck h _ _ => h.a = m.anchor
  | _ => false

/-- The next step reads pointers that later ones use. -/
def Point.obtains : Point T → Bool
  | .alloc | .pushLoad _ | .popLoad | .neighbor _ | .stabPrev _ => true
  | _ => false

/-- The node that the next step passes to `freeBlock`. -/
def Point.frees (m : Memory T n) (tid : Fin n) : Point T → Option Node
  | .scan _ => m.haz.freeing tid
  | _ => none

/-- The node that the next step pushes. -/
def Point.pushes (m : Memory T n) (spurious : Bool) : Point T → Option Node
  | .casEmpty node a | .casPush node a =>
    if m.anchor = a ∧ spurious = false then some node else none
  | _ => none

/-- The node that the next step passes to `HazardTracker::retire`. -/
def Point.retires (S : Side) : Point T → Option Node
  | .retire a _ => a.most S
  | _ => none

/-- For each thread the nodes freed since its last check and since it has last obtained a
pointer; for each node its pushes and retirements. -/
structure Books (n : ℕ) where
  checked : Fin n → List Node
  obtained : Fin n → List Node
  pushes : Node → ℕ
  retires : Node → ℕ

/-- One more for a node, if there is one. -/
def tally (count : Node → ℕ) : Option Node → Node → ℕ
  | some x => Function.update count x (count x + 1)
  | none => count

def note (l : Fin n × Choice T) (s _t : State T n) (k : Books n) : Books n :=
  match s.frames l.1 with
  | none => k
  | some f =>
    let freed := (f.point.frees s.mem l.1).toList
    { checked := fun q =>
        if q = l.1 ∧ f.point.checks s.mem l.2.spurious then [] else freed ++ k.checked q
      obtained := fun q => if q = l.1 ∧ f.point.obtains then [] else freed ++ k.obtained q
      pushes := tally k.pushes (f.point.pushes s.mem l.2.spurious)
      retires := tally k.retires (f.point.retires f.side) }

def booked (T : Type*) (n : ℕ) : Machine (Fin n × Choice T) (State T n × Books n) :=
  (machine T n).account ⟨fun _ => [], fun _ => [], fun _ => 0, fun _ => 0⟩ note

section Protection

def Exit.Protects (x : Node) : Exit → Prop
  | .push node => x = node
  | _ => False

/-- A call relies on a node not being freed. -/
def Point.Protects (S : Side) (x : Node) : Point T → Prop
  | .store node | .pushLoad node | .casEmpty node _ | .init node _ | .casPush node _ => x = node
  | .neighbor a | .casPop a _ | .read a | .retire a _ => a.most S = some x
  | .stabLeft h | .stabRight h | .stabValidate h | .stabSettle h _ | .stabClear h _ =>
    h.exit.Protects x
  | .stabPrev h | .stabReserve h _ | .stabRevalidate h _ =>
    h.a.most h.side = some x ∨ h.exit.Protects x
  | .stabNext h prev | .stabCheck h prev _ | .stabCas h prev _ => prev = some x ∨ h.exit.Protects x
  | _ => False

/-- Only retired nodes are freed. -/
theorem Memory.Shape.not_freeing (hm : m.Shape l) (h : ∀ u, m.life x ≠ .retired u) :
    m.haz.freeing q ≠ some x := by
  intro hf
  exact h q ((hm.retired q x).mp (HazardTracker.mem_of_freeing hf))

theorem Memory.Prepared.not_freeing (hm : m.Shape l) (hp : m.Prepared tid call node) :
    m.haz.freeing q ≠ some node :=
  hm.not_freeing fun u => by simp [hp.owned]

theorem Exit.Protects.not_freeing (hm : m.Shape l) (hk : k.Facts m tid call)
    (h : k.Protects x) : m.haz.freeing q ≠ some x := by
  cases k with
  | pushed => cases h
  | push node =>
    obtain rfl : x = node := h
    exact Memory.Prepared.not_freeing hm hk
  | pop => cases h

theorem Memory.Validated.not_freeing {a : Anchor} {seg : List Node}
    (hv : m.Validated l tid a seg) (hx : a.most S = some x) : m.haz.freeing q ≠ some x := by
  obtain ⟨y, hy, -, hh⟩ := hv.held S
  obtain rfl : x = y := Option.some.inj (hx.symm.trans hy)
  exact hh.guarded.not_freeing

theorem Memory.Helps.not_freeing {h : Helper} {prev : Option Node} (hh : m.Helps l tid h prev)
    (hx : prev = some x) : m.haz.freeing q ≠ some x := by
  obtain ⟨y, hy, hheld⟩ := hh.held
  obtain rfl : x = y := Option.some.inj (hx.symm.trans hy)
  exact hheld.guarded.not_freeing

/-- A node that a call relies on is not freed. -/
theorem Point.Protects.not_freeing (hm : m.Shape l) (hf : pt.Facts m l tid S call)
    (h : pt.Protects S x) : m.haz.freeing q ≠ some x := by
  cases pt with
  | store node =>
    obtain rfl : x = node := h
    have hlife : m.life x = .owned tid := hf
    exact hm.not_freeing fun u => by simp [hlife]
  | pushLoad node =>
    obtain rfl : x = node := h
    exact Memory.Prepared.not_freeing hm hf
  | casEmpty node a | init node a | casPush node a =>
    obtain rfl : x = node := h
    exact Memory.Prepared.not_freeing hm hf.1
  | neighbor a =>
    obtain ⟨-, -, seg, hv⟩ := hf
    exact hv.not_freeing h
  | casPop a prev =>
    obtain ⟨-, -, seg, hv, -⟩ := hf
    exact hv.not_freeing h
  | read a | retire a data =>
    obtain ⟨-, y, hy, hlife⟩ := hf
    obtain rfl : x = y := Option.some.inj (Eq.trans (Eq.symm h) hy)
    exact hm.not_freeing fun u => by simp [hlife]
  | stabLeft h' | stabRight h' | stabValidate h' | stabSettle h' prev | stabClear h' slot =>
    exact Exit.Protects.not_freeing hm hf.1 h
  | stabPrev h' =>
    obtain ⟨hk, -, seg, hv⟩ := hf
    rcases h with h | h
    · exact hv.not_freeing h
    · exact Exit.Protects.not_freeing hm hk h
  | stabReserve h' prev =>
    obtain ⟨hk, -, seg, hv, -⟩ := hf
    rcases h with h | h
    · exact hv.not_freeing h
    · exact Exit.Protects.not_freeing hm hk h
  | stabRevalidate h' prev =>
    obtain ⟨hk, -, ⟨seg, hv, -⟩, -⟩ := hf
    rcases h with h | h
    · exact hv.not_freeing h
    · exact Exit.Protects.not_freeing hm hk h
  | stabNext h' prev =>
    rcases h with h | h
    · exact hf.2.not_freeing h
    · exact Exit.Protects.not_freeing hm hf.1 h
  | stabCheck h' prev prevNext | stabCas h' prev prevNext =>
    rcases h with h | h
    · exact hf.2.1.not_freeing h
    · exact Exit.Protects.not_freeing hm hf.1 h
  | _ => cases h

/-- A call relies on the nodes it dereferences. -/
theorem Point.Facts.protects_derefs {r : Option Node} (hf : pt.Facts m l tid S call)
    (hd : pt.derefs S = some r) : ∃ x, r = some x ∧ pt.Protects S x := by
  cases pt with
  | store node | init node a =>
    cases hd
    exact ⟨node, rfl, rfl⟩
  | neighbor a =>
    obtain ⟨-, -, seg, hv⟩ := hf
    obtain ⟨x, hx, -⟩ := hv.held S
    cases hd
    exact ⟨x, hx, hx⟩
  | read a =>
    obtain ⟨-, x, hx, -⟩ := hf
    cases hd
    exact ⟨x, hx, hx⟩
  | stabPrev h =>
    obtain ⟨-, -, seg, hv⟩ := hf
    obtain ⟨x, hx, -⟩ := hv.held h.side
    cases hd
    exact ⟨x, hx, .inl hx⟩
  | stabNext h prev =>
    obtain ⟨x, hx, -⟩ := hf.2.held
    cases hd
    exact ⟨x, hx, .inl hx⟩
  | stabCas h prev prevNext =>
    obtain ⟨x, hx, -⟩ := hf.2.1.held
    cases hd
    exact ⟨x, hx, .inl hx⟩
  | _ => cases hd

theorem Exit.Protects.of_point (h : (k.point : Point T).Protects S x) : k.Protects x := by
  cases k with
  | pushed => cases h
  | push node => exact h
  | pop => cases h

theorem protects_stabilize {a : Anchor} (h : (stabilize a k : Point T).Protects S x) :
    k.Protects x := by
  unfold stabilize at h
  cases hs : a.status with
  | stable =>
    rw [hs] at h
    exact Exit.Protects.of_point h
  | push R =>
    rw [hs] at h
    exact h

theorem protects_pushLoaded {a : Anchor} (h : (pushLoaded S node a : Point T).Protects S x) :
    x = node := by
  unfold pushLoaded at h
  split_ifs at h
  · exact h
  · exact h
  · exact protects_stabilize (k := .push node) h

theorem not_protects_popLoaded {a : Anchor} : ¬(popLoaded S a : Point T).Protects S x := by
  intro h
  unfold popLoaded at h
  split_ifs at h
  · cases h
  · cases h
  · cases h
  · exact protects_stabilize (k := .pop) h

/-- A call comes to rely on a node by a check. -/
theorem protects_next {pt' : Point T} (hn : next m c tid S call pt = some (m', some pt'))
    (h : pt'.Protects S x) : pt.Protects S x ∨ pt.checks m c.spurious = true := by
  cases pt with
  | alloc => exact .inr rfl
  | store node =>
    cases call with
    | push t =>
      cases hn
      exact .inl h
    | pop => cases hn
  | pushLoad node =>
    cases hn
    exact .inl (protects_pushLoaded h)
  | casEmpty node a | casPush node a =>
    simp only [next] at hn
    split_ifs at hn with hcas
    · exact .inr (decide_eq_true hcas)
    · cases hn
      exact .inl h
  | init node a =>
    cases hn
    exact .inl h
  | popLoad =>
    cases hn
    exact absurd h not_protects_popLoaded
  | casSingle a | casPop a prev =>
    simp only [next] at hn
    cases hx : a.most S with
    | none => simp [hx] at hn
    | some y =>
      simp only [hx] at hn
      split_ifs at hn with hcas
      · exact .inr (decide_eq_true hcas)
      · cases hn
        cases h
  | reserveLeft a | reserveRight a =>
    cases hn
    cases h
  | validate a =>
    cases hn
    split_ifs at h with ha
    · exact .inr (decide_eq_true ha)
    · cases h
  | neighbor a | read a =>
    obtain ⟨y, -, hy⟩ := Option.map_eq_some_iff.mp hn
    cases hy
    exact .inl h
  | retire a data =>
    obtain ⟨y, -, hy⟩ := Option.map_eq_some_iff.mp hn
    cases hy
    split_ifs at h <;> cases h
  | scan data | clear slot data =>
    cases hn
    split_ifs at h <;> cases h
  | stabLeft h' | stabRight h' | stabReserve h' prev =>
    cases hn
    exact .inl h
  | stabValidate h' | stabRevalidate h' prev | stabCheck h' prev prevNext =>
    cases hn
    split_ifs at h with ha
    · exact .inr (decide_eq_true ha)
    · first
      | exact .inl (Exit.Protects.of_point h)
      | exact .inl (.inr (Exit.Protects.of_point h))
  | stabPrev h' =>
    obtain ⟨y, -, hy⟩ := Option.map_eq_some_iff.mp hn
    cases hy
    exact .inl h
  | stabNext h' prev =>
    obtain ⟨y, -, hy⟩ := Option.map_eq_some_iff.mp hn
    cases hy
    split_ifs at h
    · exact .inl (.inr h)
    · exact .inl h
  | stabCas h' prev prevNext =>
    obtain ⟨y, -, hy⟩ := Option.map_eq_some_iff.mp hn
    split_ifs at hy
    · cases hy
      exact .inl (.inr h)
    · cases hy
      exact .inl (.inr (Exit.Protects.of_point h))
  | stabSettle h' prev =>
    cases hn
    exact .inl h
  | stabClear h' slot =>
    cases hn
    split_ifs at h
    · exact .inl h
    · exact .inl (Exit.Protects.of_point h)
  | done r => cases hn

end Protection

section Counts

/-- A node that has been pushed and not retired. -/
def Life.out : Life n → ℕ
  | .queued | .popped _ => 1
  | _ => 0

theorem tally_apply (count : Node → ℕ) (r : Option Node) (x : Node) :
    tally count r x = count x + if r = some x then 1 else 0 := by
  cases r with
  | none => rfl
  | some y =>
    by_cases hx : y = x
    · subst hx
      simp [tally]
    · simp [tally, hx, Ne.symm hx]

/-- The account of a step that changes the place of one node. -/
theorem out_update {life : Node → Life n} {k : Life n} {d e : Option Node}
    (hk : (life node).out + (if d = some node then 1 else 0) =
      k.out + if e = some node then 1 else 0)
    (hd : ∀ x, d = some x → x = node) (he : ∀ x, e = some x → x = node) (x : Node) :
    (life x).out + (if d = some x then 1 else 0) =
      (Function.update life node k x).out + if e = some x then 1 else 0 := by
  by_cases hx : x = node
  · subst hx
    rw [Function.update_self]
    exact hk
  · rw [Function.update_of_ne hx, if_neg fun h => hx (hd x h), if_neg fun h => hx (he x h)]

/-- A push and a retirement change the place of their node, and no other step does. -/
theorem out_next (hm : m.Shape l) (hf : pt.Facts m l tid S call)
    (hn : next m c tid S call pt = some (m', p)) (x : Node) :
    (m.life x).out + (if pt.pushes m c.spurious = some x then 1 else 0) =
      (m'.life x).out + if pt.retires S = some x then 1 else 0 := by
  cases pt with
  | alloc =>
    simp only [next] at hn
    split_ifs at hn with hfree
    cases hn
    refine out_update ?_ (fun _ h => by cases h) (fun _ h => by cases h) x
    simp [hfree, Life.out, Point.pushes, Point.retires]
  | casEmpty node a | casPush node a =>
    have hlife := hf.1.owned
    simp only [next] at hn
    simp only [Point.pushes]
    split_ifs at hn with hcas
    · cases hn
      refine out_update ?_ (fun y h => ?_) (fun _ h => by cases h) x
      · simp [hlife, hcas, Life.out, Point.retires]
      · rw [if_pos hcas] at h
        exact (Option.some.inj h).symm
    · cases hn
      simp [hcas, Point.retires]
  | casSingle a =>
    obtain ⟨-, hsingle, hne⟩ := hf
    obtain ⟨y, hy⟩ := Option.ne_none_iff_exists'.mp hne
    simp only [next, hy] at hn
    split_ifs at hn with hcas
    · cases hn
      refine out_update ?_ (fun _ h => by cases h) (fun _ h => by cases h) x
      rw [← hcas.1, hm.rep.ends] at hy
      simp [(hm.queued y).mp (Side.mem_of_first hy), Life.out, Point.pushes, Point.retires]
    · cases hn
      rfl
  | casPop a prev =>
    obtain ⟨-, -, seg, hv, -⟩ := hf
    obtain ⟨y, hy, -⟩ := hv.held S
    simp only [next, hy] at hn
    split_ifs at hn with hcas
    · cases hn
      refine out_update ?_ (fun _ h => by cases h) (fun _ h => by cases h) x
      rw [← hcas.1, hm.rep.ends] at hy
      simp [(hm.queued y).mp (Side.mem_of_first hy), Life.out, Point.pushes, Point.retires]
    · cases hn
      rfl
  | retire a data =>
    obtain ⟨-, y, hy, hlife⟩ := hf
    simp only [next, hy, Option.map_some] at hn
    cases hn
    refine out_update ?_ (fun _ h => by cases h) (fun z h => ?_) x
    · simp [hlife, hy, Life.out, Point.pushes, Point.retires]
    · exact Option.some.inj (h.symm.trans hy)
  | scan data =>
    cases hn
    rcases life_scan hm tid x with h | ⟨-, hr, h⟩
    · rw [h]
      rfl
    · rw [h, hr]
      rfl
  | store node =>
    cases call with
    | push t =>
      cases hn
      rfl
    | pop => cases hn
  | neighbor a | read a | stabPrev h | stabNext h prev =>
    obtain ⟨y, -, hy⟩ := Option.map_eq_some_iff.mp hn
    cases hy
    rfl
  | stabCas h prev prevNext =>
    obtain ⟨y, -, hy⟩ := Option.map_eq_some_iff.mp hn
    split_ifs at hy <;> cases hy <;> rfl
  | stabSettle h prev =>
    simp only [next] at hn
    split_ifs at hn <;> cases hn <;> rfl
  | pushLoad | init | popLoad | reserveLeft | reserveRight | validate | clear | stabLeft
  | stabRight | stabValidate | stabReserve | stabRevalidate | stabCheck | stabClear | done =>
    cases hn
    rfl

end Counts

section Reclamation

/-- The books agree with the memory. -/
structure BooksOk (s : State T n) (k : Books n) : Prop where
  checked : ∀ tid f x, s.frames tid = some f → f.point.Protects f.side x → x ∉ k.checked tid
  counts : ∀ x, k.pushes x = k.retires x + (s.mem.life x).out

theorem booksOk_step {k : Books n} (hi : Inv s l) (hk : BooksOk s k)
    (hs : step (tid, c) s = some t) : BooksOk t (note (tid, c) s t k) := by
  rcases step_cases hs with ⟨hf, pt, rfl, hp⟩ | ⟨f, m', p, hf, hn, rfl⟩
  · rw [note, hf]
    refine ⟨fun q g x hg hx => ?_, hk.counts⟩
    by_cases hq : q = tid
    · subst hq
      obtain rfl := Option.some.inj ((Function.update_self q _ s.frames).symm.trans hg)
      rcases hp with ⟨rfl, -⟩ | ⟨rfl, -⟩ <;> cases hx
    · exact hk.checked q g x ((Function.update_of_ne hq _ _).symm.trans hg) hx
  · have hfacts := hi.facts tid f hf
    rw [note, hf]
    refine ⟨fun q g x hg hx => ?_, fun x => ?_⟩
    · -- what a call relies on is neither freed now nor since its last check
      have hkeep {g : Frame T} (hg : s.frames q = some g) (hx : g.point.Protects g.side x) :
          x ∉ (f.point.frees s.mem tid).toList ++ k.checked q := by
        rw [List.mem_append, not_or, Option.mem_toList]
        refine ⟨fun hfree => ?_, hk.checked q g x hg hx⟩
        cases hp : f.point with
        | scan data =>
          rw [hp] at hfree
          exact hx.not_freeing hi.shape (hi.facts q g hg) hfree
        | _ =>
          rw [hp] at hfree
          cases hfree
      change x ∉ if q = tid ∧ f.point.checks s.mem c.spurious then [] else _
      by_cases hq : q = tid
      · subst hq
        have hg' := (Function.update_self q _ s.frames).symm.trans hg
        obtain ⟨pt, rfl, rfl⟩ := Option.map_eq_some_iff.mp hg'
        split_ifs with hcheck
        · exact List.not_mem_nil
        · rcases protects_next hn hx with h | h
          · exact hkeep hf h
          · exact absurd ⟨rfl, h⟩ hcheck
      · rw [if_neg fun h => hq h.1]
        exact hkeep ((Function.update_of_ne hq _ _).symm.trans hg) hx
    · have hout := out_next hi.shape hfacts hn x
      have hcount := hk.counts x
      change tally k.pushes (f.point.pushes s.mem c.spurious) x =
        tally k.retires (f.point.retires f.side) x + (m'.life x).out
      rw [tally_apply, tally_apply]
      omega

theorem run_booksOk {u : State T n × Books n} (h : (booked T n).Reachable u) :
    BooksOk u.1 u.2 := by
  apply h.invariant
  · intro u hu
    rw [hu.2]
    refine ⟨fun _ _ _ _ _ => List.not_mem_nil, fun x => ?_⟩
    rw [hu.1.life x]
    rfl
  · rintro ⟨tid, c⟩ u u' hu hk _ hs
    obtain ⟨hst, hnote⟩ := Machine.account_step.mp hs
    obtain ⟨l, hi⟩ := run_inv hu.reachable_of_account
    rw [hnote]
    exact booksOk_step hi hk hst

/-- A thread dereferences a node only if that has not been freed since the thread's last check.
Every node is retired at most once for each time it is pushed. Where the anchor is what a pop of
a deque of two or more nodes expects, the pointer it installs names the neighbour. -/
theorem nodes_reclaimed_safely {u : State T n × Books n} (h : (booked T n).Reachable u) :
    (∀ tid f r, u.1.frames tid = some f → f.point.derefs f.side = some r →
      ∃ x, r = some x ∧ x ∉ u.2.checked tid) ∧
    (∀ x, u.2.retires x ≤ u.2.pushes x ∧ u.2.pushes x ≤ u.2.retires x + 1) ∧
    ∃ l, u.1.mem.Represents l ∧ ∀ tid f a prev, u.1.frames tid = some f →
      f.point = .casPop a prev → u.1.mem.anchor = a →
        ∃ p x, prev = some p ∧ a.most f.side = some x ∧ f.side.Next l p x := by
  obtain ⟨l, hi⟩ := run_inv h.reachable_of_account
  have hk := run_booksOk h
  refine ⟨fun tid f r hf hd => ?_, fun x => ?_, l, hi.shape.rep, fun tid f a prev hf hp ha => ?_⟩
  · obtain ⟨x, hx, hprot⟩ := (hi.facts tid f hf).protects_derefs hd
    exact ⟨x, hx, hk.checked tid f x hf hprot⟩
  · have hcount := hk.counts x
    have hle : (u.1.mem.life x).out ≤ 1 := by
      cases u.1.mem.life x <;> simp [Life.out]
    omega
  · have hfacts := hi.facts tid f hf
    rw [hp] at hfacts
    obtain ⟨-, -, seg, hv, hb⟩ := hfacts
    obtain rfl := hv.eq hi.shape ha
    exact hb (hi.shape.both ha)

/-- The next `k` steps of a thread; an idle one pushes 7 at the right end, and gets a node for
it, or pops there. -/
def pushing (tid : Fin 2) (node k : ℕ) : List (Fin 2 × Choice ℕ) :=
  List.replicate k (tid, ⟨(.right, .push 7), node, fun _ => ⟨none, 0⟩, 0, false⟩)

def popping (tid : Fin 2) (k : ℕ) : List (Fin 2 × Choice ℕ) :=
  List.replicate k (tid, ⟨(.right, .pop), 0, fun _ => ⟨none, 0⟩, 0, false⟩)

/-- The machine with its books before any step. -/
def opened : State ℕ 2 × Books 2 :=
  (constructed 2, ⟨fun _ => [], fun _ => [], fun _ => 0, fun _ => 0⟩)

/-- The second thread loads the anchor of a deque with node 1 only. The first one pops it and
pushes and pops three more nodes, so that the scan frees node 1, and pushes that again. Then
the second thread pops it. -/
def pushedAgain (first second : Fin 2) : State ℕ 2 × Books 2 :=
  ((booked ℕ 2).exec (fun _ _ => True)
    (pushing first 1 6 ++ popping second 2 ++ popping first 9 ++ pushing first 2 6 ++
      popping first 9 ++ pushing first 3 6 ++ popping first 9 ++ pushing first 4 6 ++
        popping first 25 ++ pushing first 1 6 ++ popping second 1) opened).getD opened

theorem reachable_pushedAgain : (booked ℕ 2).Reachable (pushedAgain 0 1) :=
  Machine.Run.exec_getD _ (.start ⟨init_constructed 2, rfl⟩)

theorem derefs_pushedAgain : ∃ f, (pushedAgain 0 1).1.frames 1 = some f ∧
    f.point.derefs f.side = some (some 1) := by
  have h : (((pushedAgain 0 1).1.frames 1).bind fun f => f.point.derefs f.side) =
      some (some 1) := by decide +kernel
  obtain ⟨f, hf, hd⟩ := Option.bind_eq_some_iff.mp h
  exact ⟨f, hf, hd⟩

/-- The node popped last has not been freed since the compare-exchange that took it. -/
theorem pushedAgain_checked : 1 ∉ (pushedAgain 0 1).2.checked 1 := by
  obtain ⟨f, hf, hd⟩ := derefs_pushedAgain
  obtain ⟨hsafe, -⟩ := nodes_reclaimed_safely reachable_pushedAgain
  obtain ⟨x, hx, hnot⟩ := hsafe 1 f _ hf hd
  obtain rfl := Option.some.inj hx
  exact hnot

/-- But it has been freed since the thread has loaded the anchor with its address. -/
theorem freed_since_obtained : ∃ u, (booked ℕ 2).Reachable u ∧ ∃ tid f x,
    u.1.frames tid = some f ∧ f.point.derefs f.side = some (some x) ∧ x ∈ u.2.obtained tid := by
  obtain ⟨f, hf, hd⟩ := derefs_pushedAgain
  have hfreed : 1 ∈ (pushedAgain 0 1).2.obtained 1 := by decide +kernel
  exact ⟨pushedAgain 0 1, reachable_pushedAgain, 1, f, 1, hf, hd, hfreed⟩

end Reclamation

end UnboundedDeque.MMDeque
