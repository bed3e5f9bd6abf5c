import UnboundedDeque.StepMachine

/-!
# Linearizability

A history lists the calls and returns of threads in the order in which they happen. It is
linearizable if its operations can be put into one sequence that an object accepts, with
the results the calls returned, such that an operation that has returned before another one
was called comes first. Calls that have not returned may be in the sequence or not.

A machine whose threads pass from idle to pending, done and idle again has linearizable
histories if each step moves one thread, and a thread is done by the object's operation at
that step, or by one that could have been done, without effect, at a moment since its call.
-/
namespace Linearizability
open StepMachine

variable {τ O R α : Type*}

/-- A deterministic object. -/
structure Object (O R α : Type*) where
  init : α
  apply : O → α → R × α

inductive Event (τ O R : Type*)
  | call (p : τ) (o : O)
  | ret (p : τ) (r : R)
  deriving DecidableEq, Repr

def Event.thread : Event τ O R → τ
  | .call p _ | .ret p _ => p

/-- An operation is known by the place of its call in the history. -/
structure Operation (τ O R : Type*) where
  thread : τ
  call : ℕ
  op : O
  result : R

/-- The object accepts the operations one after another, with their results. -/
def Object.Accepts (obj : Object O R α) : List (Operation τ O R) → α → α → Prop
  | [], a, b => a = b
  | x :: l, a, b => (obj.apply x.op a).1 = x.result ∧ obj.Accepts l (obj.apply x.op a).2 b

/-- The call of a thread at index `i` returns at index `j`. -/
structure Returns (h : List (Event τ O R)) (p : τ) (i j : ℕ) (r : R) : Prop where
  lt : i < j
  ret : h[j]? = some (.ret p r)
  between : ∀ k e, i < k → k < j → h[k]? = some e → e.thread ≠ p

/-- A sequence of operations that explains a history and leads to a state. -/
structure Linearization (obj : Object O R α) (h : List (Event τ O R))
    (l : List (Operation τ O R)) (a : α) : Prop where
  accepted : obj.Accepts l obj.init a
  nodup : (l.map Operation.call).Nodup
  called : ∀ x ∈ l, h[x.call]? = some (.call x.thread x.op)
  returned : ∀ p o i j r, h[i]? = some (.call p o) → Returns h p i j r → ⟨p, i, o, r⟩ ∈ l
  order : ∀ x ∈ l, ∀ y ∈ l, ∀ j r, Returns h x.thread x.call j r → j < y.call → [x, y].Sublist l

/-- The history is linearizable and its operations lead to the state. -/
def Linearizable (obj : Object O R α) (h : List (Event τ O R)) (a : α) : Prop :=
  ∃ l, Linearization obj h l a

/-- Where a thread is: it makes no call, its call has not taken effect, or it has, with a
result to return. -/
inductive Phase (O R : Type*)
  | idle
  | pending (o : O)
  | done (o : O) (r : R)
  deriving DecidableEq

/-- A call or a return seen by the phases before and after it. -/
def Phase.event (p : τ) : Phase O R → Phase O R → Option (Event τ O R)
  | .idle, .pending o => some (.call p o)
  | .done _ r, .idle => some (.ret p r)
  | _, _ => none

@[simp] theorem Phase.event_self (p : τ) (f : Phase O R) : Phase.event p f f = none := by
  cases f <;> rfl

@[simp] theorem Phase.event_done (p : τ) (o o' : O) (r : R) :
    Phase.event p (.pending o) (.done o' r) = none := rfl

/-- The moves of a thread with the object's state before and after; `seen` are results
that a pending operation could have had without effect. -/
inductive Phase.Moves (obj : Object O R α) (seen : R → Prop) : Phase O R → Phase O R → α → α → Prop
  | stay {f : Phase O R} {a : α} : Moves obj seen f f a a
  | call {o : O} {a : α} : Moves obj seen .idle (.pending o) a a
  | take {o : O} {a : α} : Moves obj seen (.pending o) (.done o (obj.apply o a).1) a (obj.apply o a).2
  | hindsight {o : O} {r : R} {a : α} (h : seen r) : Moves obj seen (.pending o) (.done o r) a a
  | ret {o : O} {r : R} {a : α} : Moves obj seen (.done o r) .idle a a

theorem Phase.Moves.of_apply {obj : Object O R α} {seen : R → Prop} {o : O} {r : R} {a b : α}
    (h : obj.apply o a = (r, b)) : Phase.Moves obj seen (.pending o) (.done o r) a b := by
  have hm : Phase.Moves obj seen (.pending o) (.done o (obj.apply o a).1) a (obj.apply o a).2 :=
    .take
  rw [h] at hm
  exact hm

theorem Phase.Moves.from_pending {obj : Object O R α} {seen : R → Prop} {f : Phase O R} {o : O}
    {a b : α} (h : f.Moves obj seen (.pending o) a b) : f = .pending o ∨ f = .idle := by
  cases h with
  | stay => exact .inl rfl
  | call => exact .inr rfl

section Accepts

variable {obj : Object O R α} {l k : List (Operation τ O R)} {a b c : α}

theorem accepts_append : obj.Accepts (l ++ k) a c ↔ ∃ b, obj.Accepts l a b ∧ obj.Accepts k b c := by
  induction l generalizing a with
  | nil => simp [Object.Accepts]
  | cons x l ih => simp only [List.cons_append, Object.Accepts, ih, and_assoc, exists_and_left]

theorem Object.Accepts.unique (h : obj.Accepts l a b) (h' : obj.Accepts l a c) : b = c := by
  induction l generalizing a with
  | nil => exact h.symm.trans h'
  | cons x l ih => exact ih h.2 h'.2

/-- An operation without effect where it is put in. -/
theorem accepts_insert {x : Operation τ O R} (h : obj.Accepts (l ++ k) a c)
    (hl : obj.Accepts l a b) (hx : obj.apply x.op b = (x.result, b)) :
    obj.Accepts (l ++ x :: k) a c := by
  obtain ⟨d, hd, hk⟩ := accepts_append.mp h
  obtain rfl := hd.unique hl
  refine accepts_append.mpr ⟨d, hl, ?_, ?_⟩
  · rw [hx]
  · rw [hx]
    exact hk

end Accepts

section Histories

variable {h : List (Event τ O R)} {p q : τ} {i j : ℕ} {r r' : R} {e : Event τ O R}

theorem Returns.lt_length (hr : Returns h p i j r) : j < h.length :=
  (List.getElem?_eq_some_iff.mp hr.ret).1

/-- A return that an event does not make was there before. -/
theorem Returns.of_append (hr : Returns (h ++ [e]) p i j r) (hj : j < h.length) :
    Returns h p i j r where
  lt := hr.lt
  ret := by
    rw [← List.getElem?_append_left hj]
    exact hr.ret
  between k e' hik hkj he := by
    refine hr.between k e' hik hkj ?_
    rw [List.getElem?_append_left (hkj.trans hj)]
    exact he

/-- The latest return is the event itself. -/
theorem Returns.last (hr : Returns (h ++ [e]) p i j r) (hj : ¬ j < h.length) :
    j = h.length ∧ e = .ret p r := by
  have hlt := hr.lt_length
  rw [List.length_append, List.length_singleton] at hlt
  obtain rfl : j = h.length := by omega
  have he := hr.ret
  rw [List.getElem?_append_right le_rfl, Nat.sub_self] at he
  exact ⟨rfl, Option.some.inj he⟩

/-- The thread has called at an index, and it has made no event since. -/
structure Open (h : List (Event τ O R)) (p : τ) (i : ℕ) (o : O) : Prop where
  call : h[i]? = some (.call p o)
  after : ∀ k e, i < k → h[k]? = some e → e.thread ≠ p

theorem Open.not_returns {o : O} (ho : Open h p i o) : ¬ Returns h p i j r := fun hr =>
  ho.after j _ hr.lt hr.ret rfl

theorem Open.lt_length {o : O} (ho : Open h p i o) : i < h.length :=
  (List.getElem?_eq_some_iff.mp ho.call).1

/-- The events of other threads leave a call open. -/
theorem Open.append {o : O} (ho : Open h p i o) (he : e.thread ≠ p) : Open (h ++ [e]) p i o where
  call := by
    rw [List.getElem?_append_left ho.lt_length]
    exact ho.call
  after k e' hk hke := by
    by_cases hlt : k < h.length
    · rw [List.getElem?_append_left hlt] at hke
      exact ho.after k e' hk hke
    · rw [List.getElem?_append_right (not_lt.mp hlt), List.getElem?_singleton] at hke
      split_ifs at hke
      rw [← Option.some.inj hke]
      exact he

theorem open_call {o : O} : Open (h ++ [.call p o]) p h.length o where
  call := by rw [List.getElem?_append_right le_rfl, Nat.sub_self]; rfl
  after k e' hk hke := by
    have hlt := (List.getElem?_eq_some_iff.mp hke).1
    rw [List.length_append, List.length_singleton] at hlt
    omega

/-- The call of a thread that returns is the one that is open. -/
theorem Open.eq_of_returns {o o' : O} (ho : Open h p i o) (hj : h[j]? = some (.call p o'))
    (hr : Returns (h ++ [.ret p r']) p j h.length r) : j = i ∧ o' = o := by
  have hlt := (List.getElem?_eq_some_iff.mp hj).1
  have hle : j ≤ i := by
    by_contra hij
    exact ho.after j _ (not_le.mp hij) hj rfl
  have hge : i ≤ j := by
    by_contra hij
    refine hr.between i (.call p o) (not_le.mp hij) ho.lt_length ?_ rfl
    rw [List.getElem?_append_left ho.lt_length]
    exact ho.call
  obtain rfl := le_antisymm hle hge
  have he := Option.some.inj (hj.symm.trans ho.call)
  simp only [Event.call.injEq, true_and] at he
  exact ⟨rfl, he⟩

end Histories

section Steps

variable {obj : Object O R α} {h : List (Event τ O R)} {l l' : List (Operation τ O R)} {a : α}
  {p q : τ} {i : ℕ} {o : O} {r : R} {e : Event τ O R} {f g : Phase O R} {seen seen' : R → Prop}

/-- A call can still be given a result at a moment of the past, after all operations that
returned before it. -/
def Hindsight (obj : Object O R α) (h : List (Event τ O R)) (l : List (Operation τ O R)) (i : ℕ)
    (o : O) (r : R) : Prop :=
  ∃ k m b, l = k ++ m ∧ obj.Accepts k obj.init b ∧ obj.apply o b = (r, b) ∧
    ∀ x ∈ l, ∀ j r', Returns h x.thread x.call j r' → j < i → x ∈ k

/-- What a sequence has to do with a thread at a phase. -/
def Phase.Stands (obj : Object O R α) (h : List (Event τ O R)) (l : List (Operation τ O R)) (p : τ)
    (seen : R → Prop) : Phase O R → Prop
  | .idle => True
  | .pending o => ∃ i, Open h p i o ∧ (∀ x ∈ l, x.call ≠ i) ∧ ∀ r, seen r → Hindsight obj h l i o r
  | .done o r => ∃ i, Open h p i o ∧ ⟨p, i, o, r⟩ ∈ l

theorem Linearization.nil : Linearization obj ([] : List (Event τ O R)) [] obj.init where
  accepted := rfl
  nodup := List.nodup_nil
  called x hx := absurd hx List.not_mem_nil
  returned p o i j r hi := by cases hi
  order x hx := absurd hx List.not_mem_nil

theorem Linearization.call_lt (hl : Linearization obj h l a) {x : Operation τ O R} (hx : x ∈ l) :
    x.call < h.length :=
  (List.getElem?_eq_some_iff.mp (hl.called x hx)).1

/-- An event that is no return, or the return of an operation of the sequence. -/
theorem Linearization.append (hl : Linearization obj h l a)
    (he : ∀ p r, e = .ret p r → ∃ i o, Open h p i o ∧ ⟨p, i, o, r⟩ ∈ l) :
    Linearization obj (h ++ [e]) l a where
  accepted := hl.accepted
  nodup := hl.nodup
  called x hx := by
    rw [List.getElem?_append_left (hl.call_lt hx)]
    exact hl.called x hx
  returned p o i j r hi hr := by
    have hij := hr.lt
    have hj := hr.lt_length
    rw [List.length_append, List.length_singleton] at hj
    rw [List.getElem?_append_left (by omega)] at hi
    by_cases hlt : j < h.length
    · exact hl.returned p o i j r hi (hr.of_append hlt)
    · obtain ⟨rfl, rfl⟩ := hr.last hlt
      obtain ⟨k, o', ho, hmem⟩ := he p r rfl
      obtain ⟨rfl, rfl⟩ := ho.eq_of_returns hi hr
      exact hmem
  order x hx y hy j r hr hj :=
    hl.order x hx y hy j r (hr.of_append (hj.trans (hl.call_lt hy))) hj

theorem Hindsight.append (ho : Open h p i o) (hh : Hindsight obj h l i o r) :
    Hindsight obj (h ++ [e]) l i o r := by
  obtain ⟨k, m, b, rfl, hk, hb, hret⟩ := hh
  refine ⟨k, m, b, rfl, hk, hb, fun x hx j r' hr hj => ?_⟩
  exact hret x hx j r' (hr.of_append (hj.trans ho.lt_length)) hj

/-- The events of other threads leave a thread where it stands. -/
theorem Phase.Stands.append (hf : f.Stands obj h l p seen) (he : e.thread ≠ p) :
    f.Stands obj (h ++ [e]) l p seen := by
  cases f with
  | idle => trivial
  | pending o =>
    obtain ⟨i, ho, hne, hs⟩ := hf
    exact ⟨i, ho.append he, hne, fun r hr => (hs r hr).append ho⟩
  | done o r =>
    obtain ⟨i, ho, hmem⟩ := hf
    exact ⟨i, ho.append he, hmem⟩

/-- An operation whose call is open is put in where the object accepts it. -/
theorem Linearization.insert {k m : List (Operation τ O R)} {b : α}
    (hl : Linearization obj h (k ++ m) a) (ho : Open h p i o) (hne : ∀ x ∈ k ++ m, x.call ≠ i)
    (hacc : obj.Accepts (k ++ ⟨p, i, o, r⟩ :: m) obj.init b)
    (hret : ∀ x ∈ k ++ m, ∀ j r', Returns h x.thread x.call j r' → j < i → x ∈ k) :
    Linearization obj h (k ++ ⟨p, i, o, r⟩ :: m) b := by
  have hmem {x : Operation τ O R} (hx : x ∈ k ++ ⟨p, i, o, r⟩ :: m) :
      x = ⟨p, i, o, r⟩ ∨ x ∈ k ++ m := by
    simp only [List.mem_append, List.mem_cons] at hx ⊢
    tauto
  have hsub : (k ++ m).Sublist (k ++ ⟨p, i, o, r⟩ :: m) :=
    (List.Sublist.refl k).append (List.sublist_cons_self _ m)
  constructor
  · exact hacc
  · have hp : (k ++ ⟨p, i, o, r⟩ :: m).Perm (⟨p, i, o, r⟩ :: (k ++ m)) := List.perm_middle
    rw [(hp.map Operation.call).nodup_iff, List.map_cons, List.nodup_cons]
    refine ⟨fun hi => ?_, hl.nodup⟩
    obtain ⟨x, hx, hxi⟩ := List.mem_map.mp hi
    exact hne x hx hxi
  · intro x hx
    rcases hmem hx with rfl | hx
    · exact ho.call
    · exact hl.called x hx
  · intro q o' j j' r' hj hr
    exact hsub.subset (hl.returned q o' j j' r' hj hr)
  · intro x hx y hy j r' hr hj
    rcases hmem hx with rfl | hx
    · exact absurd hr ho.not_returns
    · rcases hmem hy with rfl | hy
      · have hxk := List.singleton_sublist.mpr (hret x hx j r' hr hj)
        exact hxk.append (List.singleton_sublist.mpr List.mem_cons_self)
      · exact (hl.order x hx y hy j r' hr hj).trans hsub

/-- An operation takes effect. -/
theorem Linearization.take (hl : Linearization obj h l a) (ho : Open h p i o)
    (hne : ∀ x ∈ l, x.call ≠ i) :
    Linearization obj h (l ++ [⟨p, i, o, (obj.apply o a).1⟩]) (obj.apply o a).2 := by
  have hl' : Linearization obj h (l ++ []) a := by
    rw [List.append_nil]
    exact hl
  apply hl'.insert ho
  · rw [List.append_nil]
    exact hne
  · exact accepts_append.mpr ⟨a, hl.accepted, rfl, rfl⟩
  · rw [List.append_nil]
    exact fun x hx _ _ _ _ => hx

theorem Hindsight.take {x : Operation τ O R} (hx : Open h x.thread x.call x.op)
    (hh : Hindsight obj h l i o r) : Hindsight obj h (l ++ [x]) i o r := by
  obtain ⟨k, m, b, rfl, hk, hb, hret⟩ := hh
  refine ⟨k, m ++ [x], b, List.append_assoc _ _ _, hk, hb, fun y hy j r' hr hj => ?_⟩
  rcases List.mem_append.mp hy with hy | hy
  · exact hret y hy j r' hr hj
  · rw [List.mem_singleton.mp hy] at hr
    exact absurd hr hx.not_returns

/-- An operation without effect is put in at a moment of the past. -/
theorem Hindsight.insert {k m : List (Operation τ O R)} {x : Operation τ O R} {b : α}
    (hx : Open h x.thread x.call x.op) (hk : obj.Accepts k obj.init b)
    (hb : obj.apply x.op b = (x.result, b)) (hh : Hindsight obj h (k ++ m) i o r) :
    Hindsight obj h (k ++ x :: m) i o r := by
  obtain ⟨k', m', c, heq, hk', hc, hret⟩ := hh
  have hmem {y : Operation τ O R} (hy : y ∈ k ++ x :: m) : y = x ∨ y ∈ k ++ m := by
    simp only [List.mem_append, List.mem_cons] at hy ⊢
    tauto
  rcases List.append_eq_append_iff.mp heq with ⟨n, rfl, rfl⟩ | ⟨n, rfl, rfl⟩
  · -- the other operation belongs after the new one
    refine ⟨k ++ x :: n, m', c, by simp, accepts_insert hk' hk hb, hc, fun y hy j r' hr hj => ?_⟩
    rcases hmem hy with rfl | hy
    · exact absurd hr hx.not_returns
    · have hy' := hret y hy j r' hr hj
      simp only [List.mem_append, List.mem_cons] at hy' ⊢
      tauto
  · refine ⟨k', n ++ x :: m, c, by simp, hk', hc, fun y hy j r' hr hj => ?_⟩
    rcases hmem hy with rfl | hy
    · exact absurd hr hx.not_returns
    · exact hret y hy j r' hr hj

/-- Another operation in the sequence leaves a thread where it stands. -/
theorem Phase.Stands.insert {x : Operation τ O R} (hf : f.Stands obj h l p seen)
    (hx : Open h x.thread x.call x.op) (hne : x.thread ≠ p)
    (hmem : ∀ y, y ∈ l' ↔ y = x ∨ y ∈ l)
    (hh : ∀ i o r, Hindsight obj h l i o r → Hindsight obj h l' i o r) :
    f.Stands obj h l' p seen := by
  cases f with
  | idle => trivial
  | pending o =>
    obtain ⟨i, ho, hni, hs⟩ := hf
    refine ⟨i, ho, fun y hy hyi => ?_, fun r hr => hh i o r (hs r hr)⟩
    rcases (hmem y).mp hy with rfl | hy
    · have he := Option.some.inj (hx.call.symm.trans (hyi ▸ ho.call))
      simp only [Event.call.injEq] at he
      exact hne he.1
    · exact hni y hy hyi
  | done o r =>
    obtain ⟨i, ho, hl⟩ := hf
    exact ⟨i, ho, (hmem _).mpr (.inr hl)⟩

end Steps

section Machines

variable {ι σ : Type*} {M : Machine ι σ} {ok : ι → σ → Prop} {obj : Object O R α}
  {holds : σ → α → Prop} {phase : σ → τ → Phase O R} {seen : σ → τ → R → Prop}
  {event : ι → σ → σ → Option (Event τ O R)}

/-- The machine with the history of its calls and returns. -/
def withHistory (M : Machine ι σ) (event : ι → σ → σ → Option (Event τ O R)) :
    Machine ι (σ × List (Event τ O R)) :=
  M.account [] fun a s t h => h ++ (event a s t).toList

/-- One thread moves from the phases `f` to the phases `g`; what pending operations have
seen is old or could be the result of the operation now. -/
structure Moved (obj : Object O R α) (event : Option (Event τ O R)) (f g : τ → Phase O R)
    (u w : τ → R → Prop) (p : τ) (a b : α) : Prop where
  others : ∀ q, q ≠ p → g q = f q
  moves : (f p).Moves obj (u p) (g p) a b
  event : event = Phase.event p (f p) (g p)
  seen : ∀ q o r, g q = .pending o → w q r → f q = .pending o ∧ u q r ∨ obj.apply o b = (r, b)

/-- Every step of the machine moves one thread. The machine holds a state of the object, and
`seen` tells results that a pending operation could have had since it was called. -/
structure Atomic (M : Machine ι σ) (ok : ι → σ → Prop) (obj : Object O R α) (holds : σ → α → Prop)
    (phase : σ → τ → Phase O R) (seen : σ → τ → R → Prop)
    (event : ι → σ → σ → Option (Event τ O R)) : Prop where
  init : ∀ s, M.init s → holds s obj.init ∧ ∀ p, phase s p = .idle
  step : ∀ i s t a, M.Run ok s → ok i s → M.step i s = some t → holds s a →
    ∃ b p, holds t b ∧ Moved obj (event i s t) (phase s) (phase t) (seen s) (seen t) p a b

section Moves

variable {h : List (Event τ O R)} {l : List (Operation τ O R)} {a b : α} {f g : Phase O R}
  {s t : τ → Phase O R} {u w : τ → R → Prop} {v v' : R → Prop} {p q : τ}

/-- A thread stands where it was with what it has seen since. -/
theorem stands_of_seen (hl : Linearization obj h l a)
    (hw : ∀ o r, f = .pending o → v' r → v r ∨ obj.apply o a = (r, a))
    (hf : f.Stands obj h l p v) : f.Stands obj h l p v' := by
  cases f with
  | idle => trivial
  | pending o =>
    obtain ⟨i, ho, hne, hs⟩ := hf
    refine ⟨i, ho, hne, fun r hr => ?_⟩
    rcases hw o r rfl hr with hv | hnow
    · exact hs r hv
    · exact ⟨l, [], a, (List.append_nil l).symm, hl.accepted, hnow, fun x hx _ _ _ _ => hx⟩
  | done o r => exact hf

/-- A move of one thread: the others stand where they were, and so does this one, but for
what it has seen if its phase is a new one. -/
theorem Linearization.move (hl : Linearization obj h l a)
    (hs : ∀ q, (s q).Stands obj h l q (u q)) (hm : (s p).Moves obj (u p) g a b) :
    ∃ l', Linearization obj (h ++ (Phase.event p (s p) g).toList) l' b ∧
      (∀ q, q ≠ p → (s q).Stands obj (h ++ (Phase.event p (s p) g).toList) l' q (u q)) ∧
        g.Stands obj (h ++ (Phase.event p (s p) g).toList) l' p fun r => s p = g ∧ u p r := by
  have hp := hs p
  generalize s p = f at hm hp
  cases hm with
  | stay =>
    rw [Phase.event_self, Option.toList_none, List.append_nil]
    exact ⟨l, hl, fun q _ => hs q, stands_of_seen hl (fun o r _ hr => .inl hr.2) hp⟩
  | call =>
    refine ⟨l, ?_, fun q hq => (hs q).append (Ne.symm hq), ?_⟩
    · exact hl.append fun q r he => by cases he
    · exact ⟨h.length, open_call, fun x hx => (hl.call_lt hx).ne, fun r hr => by cases hr.1⟩
  | @take o =>
    obtain ⟨i, ho, hne, -⟩ := hp
    rw [Phase.event_done, Option.toList_none, List.append_nil]
    refine ⟨_, hl.take ho hne, fun q hq => (hs q).insert (x := ⟨p, i, o, (obj.apply o a).1⟩) ho
      (Ne.symm hq) (fun y => ?_) fun j o' r hh => hh.take ho, i, ho, ?_⟩
    · simp [or_comm]
    · simp
  | @hindsight o r _ hr =>
    obtain ⟨i, ho, hne, hseen⟩ := hp
    obtain ⟨k, m, b, rfl, hk, hb, hret⟩ := hseen r hr
    rw [Phase.event_done, Option.toList_none, List.append_nil]
    refine ⟨k ++ ⟨p, i, o, r⟩ :: m, hl.insert ho hne (accepts_insert hl.accepted hk hb) hret,
      fun q hq => (hs q).insert (x := ⟨p, i, o, r⟩) ho (Ne.symm hq) (fun y => ?_)
        fun j o' r' hh => hh.insert ho hk hb, i, ho, ?_⟩
    · simp only [List.mem_append, List.mem_cons]
      tauto
    · simp
  | @ret o r =>
    obtain ⟨i, ho, hmem⟩ := hp
    refine ⟨l, hl.append fun q r' he => ?_, fun q hq => (hs q).append (Ne.symm hq), trivial⟩
    cases he
    exact ⟨i, o, ho, hmem⟩

end Moves

/-- The histories of a machine that moves one thread at a time are linearizable, and their
operations lead to what the machine holds. -/
theorem Atomic.linearizable (hat : Atomic M ok obj holds phase seen event)
    {x : σ × List (Event τ O R)} (hx : (withHistory M event).Run (fun i x => ok i x.1) x) :
    ∃ a, holds x.1 a ∧ Linearizable obj x.2 a := by
  have hinv : ∃ a l, holds x.1 a ∧ Linearization obj x.2 l a ∧
      ∀ p, (phase x.1 p).Stands obj x.2 l p (seen x.1 p) := by
    apply hx.invariant
    · intro x hx
      obtain ⟨hholds, hidle⟩ := hat.init x.1 hx.1
      rw [hx.2]
      refine ⟨_, [], hholds, .nil, fun p => ?_⟩
      rw [hidle p]
      trivial
    · rintro i ⟨s, h⟩ ⟨t, h'⟩ hrun ⟨a, l, ha, hl, hs⟩ hok hst
      obtain ⟨hst, hh⟩ := Machine.account_step.mp hst
      obtain ⟨b, p, hb, hm⟩ := hat.step i s t a hrun.of_account hok hst ha
      obtain ⟨l', hl', hs', hp⟩ := hl.move hs hm.moves
      rw [← hm.event] at hl' hs' hp
      replace hh : h' = h ++ (event i s t).toList := hh
      change ∃ a l, holds t a ∧ Linearization obj h' l a ∧
        ∀ p, (phase t p).Stands obj h' l p (seen t p)
      rw [hh]
      refine ⟨b, l', hb, hl', fun q => ?_⟩
      by_cases hq : q = p
      · subst hq
        refine stands_of_seen hl' (fun o r hf hr => ?_) hp
        exact (hm.seen q o r hf hr).imp_left fun hold => ⟨hold.1.trans hf.symm, hold.2⟩
      · rw [hm.others q hq]
        refine stands_of_seen hl' (fun o r hf hr => ?_) (hs' q hq)
        exact (hm.seen q o r ((hm.others q hq).trans hf) hr).imp_left fun hold => hold.2
  obtain ⟨a, l, ha, hl, -⟩ := hinv
  exact ⟨a, ha, l, hl⟩

/-- The same for a machine that moves one thread at a time by an account of its steps. -/
theorem Atomic.linearizable_of_account {κ : Type*} {begin : κ} {note : ι → σ → σ → κ → κ}
    {holds : σ × κ → α → Prop} {phase : σ × κ → τ → Phase O R} {seen : σ × κ → τ → R → Prop}
    (ok : ι → σ → Prop)
    (hat : Atomic (M.account begin note) (fun i u => ok i u.1) obj holds phase seen
      fun i u v => event i u.1 v.1)
    {x : σ × List (Event τ O R)} (hx : (withHistory M event).Run (fun i x => ok i x.1) x) :
    ∃ k a, holds (x.1, k) a ∧ Linearizable obj x.2 a := by
  obtain ⟨k, hk⟩ := hx.add_account ok begin note
  exact ⟨k, hat.linearizable hk⟩

end Machines

end Linearizability
