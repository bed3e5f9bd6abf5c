import UnboundedDeque.OFDequeEmpty
import UnboundedDeque.OFDequeFindEdge
import UnboundedDeque.OFDequeRefinement

/-!
# A call that runs alone

Between the calls of a sequential run no buffer is sealed, the hints name live buffers
and no buffer waits in a cache. From there a call comes through one round, or two where
it has removed a sealed buffer, to its result.
-/
namespace UnboundedDeque.OFDeque
open StepMachine

section Alone

variable {τ : Type*} {m m' : Memory τ} {S R : Side} {tid : τ}
  {call : Call Word} {v : View} {b c n : Address} {i j : ℤ} {a : Action} {p q : Point}
  {k : Attempt} {x y : Slot} {w : Word} {l : List Word} {V : Point → Prop}
  {Q : Memory τ → Point → Prop}

/-- The contents after some effects. -/
def Applies : List (Effect Word) → List Word → List Word → Prop
  | [], l, l' => l' = l
  | e :: es, l, l' => ∃ k, e.Changes l k ∧ Applies es k l'

theorem Applies.snoc {es : List (Effect Word)} {l l' l'' : List Word} (h : Applies es l l')
    {e : Option (Effect Word)} (he : Changes e l' l'') : Applies (es ++ e.toList) l l'' := by
  induction es generalizing l with
  | nil =>
    obtain rfl : l' = l := h
    cases e with
    | none => exact he
    | some e => exact ⟨l'', he, rfl⟩
  | cons e' es ih =>
    obtain ⟨k, hk, hes⟩ := h
    exact ⟨k, hk, ih hes⟩

variable [BufferSize]

/-- What a call keeps while it runs alone from a content `l`. -/
structure Sound (tid : τ) (S : Side) (call : Call Word) (l : List Word) (m : Memory τ)
    (p : Point) : Prop where
  shape : Shape m
  clean : ∀ R k n, m.cache R k = some n → m.Clean R n
  room : {n | m.owner n ≠ .unused}.Finite
  knows : p.Knows m tid S call
  told : ∃ es, Frame.Logged ⟨S, call, p⟩ es ∧ Applies es l m.content

/-- What a call keeps about the memory while it runs alone. -/
structure Grounded (tid : τ) (S : Side) (call : Call Word) (m : Memory τ) (p : Point) : Prop where
  shape : Shape m
  clean : ∀ R k n, m.cache R k = some n → m.Clean R n
  room : {n | m.owner n ≠ .unused}.Finite
  knows : p.Knows m tid S call

theorem Sound.grounded (h : Sound tid S call l m p) : Grounded tid S call m p :=
  ⟨h.shape, h.clean, h.room, h.knows⟩

section Sound

variable [DecidableEq τ]

/-- An action takes one address at most into use. -/
theorem room_act (h : {n | m.owner n ≠ .unused}.Finite) (a : Action) :
    {n | (m.act tid a).owner n ≠ .unused}.Finite := by
  have hupdate (n : Address) (o : Owner τ) :
      {c | Function.update m.owner n o c ≠ .unused}.Finite := by
    apply (h.insert n).subset
    intro c hc
    by_cases hcn : c = n
    · exact .inl hcn
    · exact .inr fun ho => hc ((Function.update_of_ne hcn o m.owner).trans ho)
  cases a with
  | append S b n => exact hupdate n .published
  | alloc S n => exact hupdate n _
  | _ => exact h

theorem Grounded.allowed (h : Grounded tid S call m p) {c : Choice} {o : Option Point}
    (hn : next m c tid S call p = some (a, o)) : m.Allowed tid a :=
  (next_knows h.shape (h.clean S tid) h.knows hn).1

theorem Grounded.next (h : Grounded tid S call m p) {c : Choice}
    (hn : next m c tid S call p = some (a, some q)) : Grounded tid S call (m.act tid a) q := by
  obtain ⟨ha, ht, hk⟩ := next_knows h.shape (h.clean S tid) h.knows hn
  refine ⟨h.shape.act ha, ?_, room_act h.room a, hk q rfl⟩
  intro R k n hc
  exact clean_act h.shape h.clean ha ht hc

/-- What a call comes to alone is grounded. -/
theorem Solo.ground (h : Solo tid S call V Q m p) (hg : Grounded tid S call m p) :
    Solo tid S call V (fun m p => Q m p ∧ Grounded tid S call m p) m p := by
  refine Machine.Leads.keep (I := fun x => Grounded tid S call x.1 x.2) h hg ?_
  rintro c ⟨m, p⟩ ⟨m', q⟩ - hg hstep
  obtain ⟨a, hn, rfl⟩ := solo_step.mp hstep
  exact hg.next hn

theorem Sound.allowed (h : Sound tid S call l m p) {c : Choice} {o : Option Point}
    (hn : next m c tid S call p = some (a, o)) : m.Allowed tid a :=
  h.grounded.allowed hn

theorem Sound.next (h : Sound tid S call l m p) {c : Choice}
    (hn : next m c tid S call p = some (a, some q)) : Sound tid S call l (m.act tid a) q := by
  obtain ⟨hshape, hclean, hroom, hknows⟩ := h.grounded.next hn
  obtain ⟨es, hlog, happ⟩ := h.told
  refine ⟨hshape, hclean, hroom, hknows, ?_⟩
  refine ⟨_, logged_next (f := ⟨S, call, p⟩) h.knows.1 hlog hn, happ.snoc ?_⟩
  rw [← effect_next (f := ⟨S, call, p⟩) h.knows.1 hn]
  exact h.shape.content_act (h.allowed hn)

/-- What a call comes to alone is sound. -/
theorem Solo.keep (h : Solo tid S call V Q m p) (hs : Sound tid S call l m p) :
    Solo tid S call V (fun m p => Q m p ∧ Sound tid S call l m p) m p := by
  refine Machine.Leads.keep (I := fun x => Sound tid S call l x.1 x.2) h hs ?_
  rintro c ⟨m, p⟩ ⟨m', q⟩ - hs hstep
  obtain ⟨a, hn, rfl⟩ := solo_step.mp hstep
  exact hs.next hn

end Sound

section Steps

variable [DecidableEq τ]

/-- A step whose outcome depends on what it leaves open and that is always possible. -/
theorem Solo.free {f : Choice → Action} {g : Choice → Point}
    (hn : ∀ c, OFDeque.next m c tid S call p = some (f c, some (g c)))
    (h : ∀ c, Solo tid S call anyPoint Q (m.act tid (f c)) (g c)) :
    Solo tid S call anyPoint Q m p := by
  refine .step ⟨⟨(S, call), 0, 0, 0⟩, _, _, hn _⟩ fun c a q hc => ?_
  obtain ⟨rfl, hq⟩ := Prod.mk.inj (Option.some.inj ((hn c).symm.trans hc))
  exact Option.some.inj hq ▸ h c

/-- The memory after the two compare-exchanges of an attempt. -/
def Memory.attempt (m : Memory τ) (tid : τ) (S : Side) (call : Call Word) (v : View)
    (k : Attempt) (w : Word) : Memory τ :=
  (m.act tid (.casSafe (k.safe S v).1 (k.safe S v).2.1)).act tid (k.action S call v w)

/-- Both slots of an attempt are as it expects them. -/
structure Memory.Current₂ (m : Memory τ) (S : Side) (v : View) (k : Attempt) : Prop where
  safe : m.slot (k.safe S v).1 (k.safe S v).2.1 = (k.safe S v).2.2
  target : m.slot (k.target S v).1 (k.target S v).2.1 = (k.target S v).2.2
  apart : (k.target S v).1 ≠ (k.safe S v).1 ∨ (k.target S v).2.1 ≠ (k.safe S v).2.1

theorem Memory.Current₂.next_safe (h : m.Current₂ S v k) (c : Choice) :
    next m c tid S call (.safe v k) =
      some (.casSafe (k.safe S v).1 (k.safe S v).2.1, some (.effect v k)) := by
  simp only [OFDeque.next, h.safe, if_true]

theorem Memory.Current₂.next_effect (h : m.Current₂ S v k) (c : Choice) :
    next (m.act tid (.casSafe (k.safe S v).1 (k.safe S v).2.1)) c tid S call (.effect v k) =
      some (k.action S call v c.junk, some (k.doneNext S v)) := by
  have hslot : (m.act tid (.casSafe (k.safe S v).1 (k.safe S v).2.1)).slot (k.target S v).1
      (k.target S v).2.1 = (k.target S v).2.2 := by
    rw [← h.target]
    exact m.slot_cas_ne _ _ _ _ _ _ h.apart
  simp only [OFDeque.next, hslot, if_true]

/-- An attempt alone succeeds. -/
theorem solo_attempt (h : m.Current₂ S v k)
    (hdone : ∀ w, Solo tid S call anyPoint Q (m.attempt tid S call v k w) (k.doneNext S v)) :
    Solo tid S call anyPoint Q m (.safe v k) :=
  .next h.next_safe (.free h.next_effect fun c => hdone c.junk)

theorem Grounded.attempt (hg : Grounded tid S call m (.safe v k)) (h : m.Current₂ S v k)
    (w : Word) :
    (m.act tid (.casSafe (k.safe S v).1 (k.safe S v).2.1)).Allowed tid (k.action S call v w) ∧
      Grounded tid S call (m.attempt tid S call v k w) (k.doneNext S v) := by
  have hsafe := hg.next (h.next_safe ⟨(S, call), 0, w, 0⟩)
  have heffect : OFDeque.next (m.act tid (.casSafe (k.safe S v).1 (k.safe S v).2.1))
      ⟨(S, call), 0, w, 0⟩ tid S call (.effect v k) =
        some (k.action S call v w, some (k.doneNext S v)) := h.next_effect _
  exact ⟨hsafe.allowed heffect, hsafe.next heffect⟩

theorem Sound.attempt (hs : Sound tid S call l m (.safe v k)) (h : m.Current₂ S v k) (w : Word) :
    (m.act tid (.casSafe (k.safe S v).1 (k.safe S v).2.1)).Allowed tid (k.action S call v w) ∧
      Sound tid S call l (m.attempt tid S call v k w) (k.doneNext S v) := by
  have hsafe := hs.next (h.next_safe ⟨(S, call), 0, w, 0⟩)
  have heffect : OFDeque.next (m.act tid (.casSafe (k.safe S v).1 (k.safe S v).2.1))
      ⟨(S, call), 0, w, 0⟩ tid S call (.effect v k) =
        some (k.action S call v w, some (k.doneNext S v)) := h.next_effect _
  exact ⟨(hs.grounded.attempt h w).1, hsafe.next heffect⟩

end Steps

section Calm

/-- The hints name live buffers, and no live buffer is sealed. -/
structure Memory.Settled (m : Memory τ) : Prop where
  hint : ∀ S, (m.hint S).buffer ∈ m.chain
  unsealed : ∀ b ∈ m.chain, ∀ S, m.type b (farValue S) ≠ .sealed

/-- The memory between two calls of a sequential run. -/
structure Memory.Calm (m : Memory τ) : Prop extends m.Settled where
  shape : Shape m
  room : {n | m.owner n ≠ .unused}.Finite
  cache : ∀ R k, m.cache R k = none

/-- The view of a round that has found an edge. -/
def Memory.viewAt (m : Memory τ) (S : Side) (b : Address) (i : ℤ) : View :=
  ⟨m.hint S, b, i, m.slot b i, m.slot b (i + farDirection S)⟩

/-- The point after an edge has passed the check. -/
def passEdge (S : Side) (call : Call Word) (cache : Option Address) (v : View) : Point :=
  match call with
  | .push _ => pushEdge S cache v
  | .pop => popEdge S v

/-- The actions that keep a memory settled. -/
def Action.Settles (m : Memory τ) : Action → Prop
  | .seal .. | .unlink .. => False
  | .setHint _ h => h.buffer ∈ m.chain
  | _ => True

theorem unsealed_cas (hs : m.Settled) {t : SlotType} (ht : t = m.type b i ∨ t ≠ .sealed)
    (hc : c ∈ m.chain) (R : Side) : (m.cas b i w t).type c (farValue R) ≠ .sealed := by
  by_cases he : c ≠ b ∨ farValue R ≠ i
  · rw [m.type_cas_ne _ _ _ _ _ _ he]
    exact hs.unsealed c hc R
  · rw [not_or, not_not, not_not] at he
    obtain ⟨rfl, rfl⟩ := he
    rw [m.type_cas]
    rcases ht with rfl | ht
    · exact hs.unsealed c hc R
    · exact ht

section Settled

variable [DecidableEq τ]

theorem Memory.Settled.setHint (hs : m.Settled) {x : Hint} (hx : x.buffer ∈ m.chain) :
    (m.act tid (.setHint S x)).Settled := by
  refine ⟨fun R => ?_, hs.unsealed⟩
  change (Function.update m.hint S x R).buffer ∈ m.chain
  by_cases hR : R = S
  · rw [hR, Function.update_self]
    exact hx
  · rw [Function.update_of_ne hR]
    exact hs.hint R

theorem Memory.Settled.act (hs : m.Settled) (h : Shape m) (ha : m.Allowed tid a)
    (hk : a.Settles m) : (m.act tid a).Settled := by
  have hcas {b : Address} {i : ℤ} {w : Word} {t : SlotType} (ht : t = m.type b i ∨ t ≠ .sealed) :
      (m.cas b i w t).Settled := ⟨hs.hint, fun c hc R => unsealed_cas hs ht hc R⟩
  cases a with
  | casSafe b i => exact hcas (.inl rfl)
  | push S b i w => exact hcas (.inr (by decide))
  | pop S b i w => exact hcas (.inr (farType_ne_sealed S))
  | append S b n =>
    obtain ⟨hb, -, -, hprep, ho⟩ := ha
    have hnb : n ≠ b := fun he => h.not_published ho (he ▸ hb)
    refine ⟨fun R => mem_add.mpr (.inr (hs.hint R)), fun c hc R => ?_⟩
    rcases mem_add.mp hc with rfl | hc
    · have htype : (m.act tid (.append S b c)).type c (farValue R) = m.type c (farValue R) :=
        m.type_cas_ne b c _ _ c _ (.inl hnb)
      rw [htype]
      rcases S.eq_or_eq_opposite R with rfl | rfl
      · rw [hprep.rest _ (inner_farValue R) (nearValue_ne_farValue R).symm]
        exact farType_ne_sealed R
      · rw [farValue_opposite, hprep.value]
        decide
    · exact unsealed_cas (m := m) hs (.inr (by decide)) hc R
  | store n i x =>
    obtain ⟨R', ho⟩ := ha
    refine ⟨hs.hint, fun c hc R => ?_⟩
    have hcn : c ≠ n := fun he => h.not_published ho (he ▸ .inl hc)
    have htype : (m.act tid (.store n i x)).type c (farValue R) = m.type c (farValue R) :=
      congrArg Slot.type (m.slot_set_ne n c i _ (.inl hcn))
    rw [htype]
    exact hs.unsealed c hc R
  | setHint R x => exact hs.setHint hk
  | «seal» S n w => exact hk.elim
  | unlink S b n w => exact hk.elim
  | _ => exact ⟨hs.hint, hs.unsealed⟩

end Settled

namespace Memory.Calm

variable (h : m.Calm)
include h

theorem clean (hc : m.cache R tid = some n) : m.Clean R n := by
  rw [h.cache] at hc
  cases hc

theorem sound : Sound tid S call m.content m .hintLoad where
  shape := h.shape
  clean _ _ _ := h.clean
  room := h.room
  knows := ⟨trivial, trivial⟩
  told := ⟨[], (logged_of_none rfl).mpr rfl, rfl⟩

theorem not_sealed (hb : b ∈ m.chain) (hi : Inner i) : m.type b i ≠ .sealed := by
  intro hs
  obtain ⟨R, rfl⟩ := (h.shape.buffer b (.inl hb)).sealedAt i hi hs
  exact h.unsealed b hb R hs

theorem reads_eq (hb : b ∈ m.chain) (hi : Inner i) : m.reads b i = m.type b i :=
  Memory.reads_of_ne_sealed (h.not_sealed hb hi)

/-- The near slot of an edge is empty for the other end or holds a value. -/
theorem near_type (e : m.EdgeAt S b i) :
    m.type b i = nearType S ∨ Inner i ∧ m.type b i = .value := by
  rcases e.near.cases with rfl | hi
  · exact .inl (e.first rfl)
  · have hn := e.notFar
    rw [h.reads_eq e.live hi] at hn
    rcases SlotType.cases_side S (m.type b i) with ht | ht | ht | ht
    · exact absurd ht hn
    · exact .inl ht
    · exact absurd ht (h.not_sealed e.live hi)
    · exact .inr ⟨hi, ht⟩

/-- The slot after an edge at the end of a buffer is a link to an empty buffer, if
there is one. -/
theorem far_type (e : m.EdgeAt S b (farValue S)) : m.type b (farLink S) = farType S ∨
    ∃ n ∈ m.chain, m.Joined S b n ∧ m.type n (nearValue S) = farType S := by
  rcases e.last rfl with hf | ⟨n, hn, hj, hr⟩
  · exact .inl hf
  · rw [h.reads_eq hn (inner_nearValue S)] at hr
    exact .inr ⟨n, hn, hj, hr⟩

/-- An edge that nobody changes passes the check. -/
theorem check (e : m.EdgeAt S b i) (cache : Option Address) :
    checkEdge S call cache (m.viewAt S b i) = passEdge S call cache (m.viewAt S b i) := by
  have hnear : m.type b i ≠ farType S ∧ m.type b i ≠ .sealed := by
    rcases h.near_type e with ht | ⟨-, ht⟩
    · rw [ht]
      exact ⟨(farType_ne_nearType S).symm, nearType_ne_sealed S⟩
    · rw [ht]
      exact ⟨(farType_ne_value S).symm, by decide⟩
  have h₁ : ¬((m.viewAt S b i).near.type = farType S ∨
      (m.viewAt S b i).near.type = .sealed ∧ (m.viewAt S b i).index ≠ farValue S) := by
    rintro (ht | ⟨ht, -⟩)
    · exact hnear.1 ht
    · exact hnear.2 ht
  have h₂ : ¬((m.viewAt S b i).index + farDirection S ≠ farLink S ∧
      (m.viewAt S b i).far.type ≠ farType S) := by
    rintro ⟨hne, ht⟩
    apply ht
    apply e.inner
    rintro rfl
    exact hne (farValue_add S)
  have h₃ : ¬((m.viewAt S b i).index = nearLink S ∧ (m.viewAt S b i).near.type ≠ nearType S) := by
    rintro ⟨hi, ht⟩
    exact ht (e.first hi)
  refine (if_neg h₁).trans ((if_neg h₂).trans ((if_neg h₃).trans ?_))
  cases call <;> rfl

theorem sound_check (e : m.EdgeAt S b i) :
    Sound tid S call m.content m (checkEdge S call (m.cache S tid) (m.viewAt S b i)) where
  shape := h.shape
  clean _ _ _ := h.clean
  room := h.room
  knows := checkEdge_knows h.shape (fun _ => h.clean) (.inl (h.hint S)) (.inl e.live) e.near
    (m.seen_self b i)
  told := ⟨[], (logged_of_none (result_of_plain (plain_of_goes (goes_checkEdge _)))).mpr rfl, rfl⟩

variable [DecidableEq τ]

/-- A round alone comes to the check of the edge. -/
theorem solo_round (hedge : ∀ b i, m.EdgeAt S b i →
      Solo tid S call anyPoint Q m (checkEdge S call (m.cache S tid) (m.viewAt S b i))) :
    Solo tid S call anyPoint Q m .hintLoad := by
  refine .skip (.skip (.skip (q := .findLocal ⟨m.hint S, true, (m.hint S).buffer⟩) ?_ fun _ => ?_)
    fun _ => rfl) fun _ => rfl
  · have hnear (b : Address) (i : ℤ) (e : m.EdgeAt S b i) :
        Solo tid S call anyPoint Q m (.near (m.hint S) b i) :=
      .skip (.skip (hedge b i e) fun _ => rfl) fun _ => rfl
    exact solo_findEdge (fun _ _ => trivial) h.shape.wellFormed h.shape.sealedBeside rfl hnear
      (h.hint S) rfl
  · simp only [OFDeque.next, if_true]

end Memory.Calm

end Calm

section Moves

/-- The types with that of one slot changed. -/
def retype (f : Address → ℤ → SlotType) (b : Address) (i : ℤ) (t : SlotType) :
    Address → ℤ → SlotType :=
  Function.update f b (Function.update (f b) i t)

/-- The local hints with one of them moved. -/
def nudge (f : Side → Address → ℤ) (S : Side) (b : Address) (d : ℤ) : Side → Address → ℤ :=
  Function.update f S (Function.update (f S) b (f S b + d))

/-- What a call of a sequential run does to the chain, the types and the local hints. -/
inductive Moves (S : Side) : Call Word → Memory τ → Memory τ → Prop
  | stay {m : Memory τ} {b : Address} {i : ℤ} (edge : m.EdgeAt S b i)
      (near : m.type b i = nearType S) : Moves S .pop m m
  | interiorPush {m m' : Memory τ} {w : Word} {b : Address} {i : ℤ} (edge : m.EdgeAt S b i)
      (inner : i ≠ farValue S) (chain : m'.chain = m.chain)
      (type : m'.type = retype m.type b (i + farDirection S) .value)
      (hint : m'.localHint = nudge m.localHint S b (farDirection S)) : Moves S (.push w) m m'
  | append {m m' : Memory τ} {w : Word} {b n : Address} (edge : m.EdgeAt S b (farValue S))
      (last : m.type b (farLink S) = farType S) (new : n ∉ m.chain)
      (chain : m'.chain = S.add n m.chain)
      (type : ∀ c ∈ m.chain, m'.type c = retype m.type b (farLink S) .value c)
      (prepared : m'.Prepared S b n) (hint : ∀ R, m'.localHint R n = nearValue S)
      (hints : ∀ R, ∀ c ≠ n, m'.localHint R c = m.localHint R c) : Moves S (.push w) m m'
  | straddle {m m' : Memory τ} {w : Word} {b n : Address} (edge : m.EdgeAt S b (farValue S))
      (joined : m.Joined S b n) (chain : m'.chain = m.chain)
      (type : m'.type = retype m.type n (nearValue S) .value)
      (hint : m'.localHint = m.localHint) : Moves S (.push w) m m'
  | interiorPop {m m' : Memory τ} {b : Address} {i : ℤ} (edge : m.EdgeAt S b i)
      (inner : i ≠ farValue S) (value : m.type b i = .value) (chain : m'.chain = m.chain)
      (type : m'.type = retype m.type b i (farType S))
      (hint : m'.localHint = nudge m.localHint S b (-farDirection S)) : Moves S .pop m m'
  | boundaryPop {m m' : Memory τ} {b : Address} (edge : m.EdgeAt S b (farValue S))
      (last : m.type b (farLink S) = farType S) (value : m.type b (farValue S) = .value)
      (chain : m'.chain = m.chain) (type : m'.type = retype m.type b (farValue S) (farType S))
      (hint : m'.localHint = m.localHint) : Moves S .pop m m'
  | drop {m m₁ m' : Memory τ} {b n : Address} (edge : m.EdgeAt S b (farValue S))
      (joined : m.Joined S b n) (value : m.type b (farValue S) = .value)
      (chain : m.chain = S.add n m₁.chain)
      (type : ∀ c ∈ m₁.chain, m₁.type c = retype m.type b (farLink S) (farType S) c)
      (hint : m₁.localHint = m.localHint) (calm : m₁.Calm) (rest : Moves S .pop m₁ m') :
      Moves S .pop m m'

/-- A call is about to return to a settled memory. -/
structure Finished (S : Side) (call : Call Word) (m m' : Memory τ) (r : Result Word) : Prop where
  settled : m'.Settled
  cache : ∀ R k, m'.cache R k = none
  moves : Moves S call m m'
  dead : call ≠ .pop → m'.dead = m.dead
  empty : r = .empty → m.content = []

/-- A call has come to its result. -/
def AtEnd (S : Side) (call : Call Word) (m m' : Memory τ) (p : Point) : Prop :=
  ∃ r, p = .clearFirst r ∧ Finished S call m m' r

omit [BufferSize] in
theorem farDirection_ne_zero (S : Side) : farDirection S ≠ 0 := by
  cases S <;> decide

omit [BufferSize] in
theorem type_cas_eq (m : Memory τ) (b : Address) (i : ℤ) (w : Word) (t : SlotType) :
    (m.cas b i w t).type = retype m.type b i t := by
  funext c
  by_cases hc : c = b
  · rw [hc, m.type_cas_self, retype, Function.update_self]
  · rw [m.type_cas_other _ _ _ _ _ hc, retype, Function.update_of_ne hc]

omit [BufferSize] in
theorem retype_congr {f g : Address → ℤ → SlotType} {t : SlotType} (hc : f c = g c)
    (hb : f b = g b) : retype f b i t c = retype g b i t c := by
  by_cases he : c = b
  · rw [he, retype, retype, Function.update_self, Function.update_self, hb]
  · rw [retype, retype, Function.update_of_ne he, Function.update_of_ne he, hc]

variable [DecidableEq τ]

theorem type_casSafe_eq (m : Memory τ) (b : Address) (i : ℤ) :
    (m.act tid (.casSafe b i)).type = m.type :=
  funext fun c => funext fun j => type_casSafe m b i c j

/-- The types after an attempt that stores a type. -/
theorem type_attempt {t : SlotType}
    (h : ∀ m : Memory τ, ∃ w', (m.act tid (k.action S call v w)).type = (m.cas b i w' t).type) :
    (m.attempt tid S call v k w).type = retype m.type b i t := by
  obtain ⟨w', hact⟩ := h (m.act tid (.casSafe (k.safe S v).1 (k.safe S v).2.1))
  rw [Memory.attempt, hact, type_cas_eq, type_casSafe_eq]

/-- An attempt keeps a settled memory settled if its action does. -/
theorem Sound.settled_attempt (hs : Sound tid S call l m (.safe v k)) (hm : m.Settled)
    (hc : m.Current₂ S v k) (hk : ∀ m : Memory τ, (k.action S call v w).Settles m) :
    (m.attempt tid S call v k w).Settled := by
  have hsafe := hs.allowed (hc.next_safe ⟨(S, call), 0, w, 0⟩)
  exact (hm.act hs.shape hsafe trivial).act (hs.shape.act hsafe) (hs.attempt hc w).1 (hk _)

/-- A call ends with the update of a local hint. -/
theorem solo_addLocal {d : ℤ} {r : Result Word}
    (h : Finished S call m (m'.act tid (.setLocalHint S b (m'.localHint S b + d))) r) :
    Solo tid S call anyPoint (AtEnd S call m) m' (.addLocal b d r) :=
  .next (fun _ => rfl) (.done ⟨r, rfl, h⟩)

/-- A call ends with the update of the hint. -/
theorem solo_casHint {x : Hint} {r : Result Word} (h : Finished S call m m' r)
    (hset : Finished S call m (m'.act tid (.setHint S ⟨b, x.count + 1⟩)) r) :
    Solo tid S call anyPoint (AtEnd S call m) m' (.casHint x b r) := by
  by_cases hx : m'.hint S = x
  · refine .next (a := .setHint S ⟨b, x.count + 1⟩) (fun _ => ?_) (.done ⟨r, rfl, hset⟩)
    simp only [OFDeque.next, if_pos hx]
  · refine .skip (.done ⟨r, rfl, h⟩) fun _ => ?_
    simp only [OFDeque.next, if_neg hx]

/-- The point after the back pointer test. -/
def afterBack (S : Side) (call : Call Word) (v : View) (n : Address) (reach : Slot) : Point :=
  match call with
  | .push _ => pushStraddle S v n reach
  | .pop => popSeal S v n reach

/-- The back pointer test alone, with a link that leads back. -/
theorem solo_linked (hword : v.far.word = n) (hback : (m.slot n (nearLink S)).word = v.buffer)
    (h : Solo tid S call anyPoint Q m (afterBack S call v n (m.slot n (nearValue S)))) :
    Solo tid S call anyPoint Q m (.reach v) := by
  refine .skip (q := .back v (m.slot n (nearValue S))) (.skip h fun _ => ?_) fun _ => ?_
  · simp only [OFDeque.next, hword, if_neg (not_not.mpr hback)]
    cases call <;> rfl
  · simp only [OFDeque.next, hword]

/-- The back pointer test alone finds the two buffers joined. -/
theorem solo_reach (hj : m.Joined S b n)
    (hs : Sound tid S call l m (.reach (m.viewAt S b (farValue S))))
    (h : Sound tid S call l m
        (afterBack S call (m.viewAt S b (farValue S)) n (m.slot n (nearValue S))) →
      Solo tid S call anyPoint Q m
        (afterBack S call (m.viewAt S b (farValue S)) n (m.slot n (nearValue S)))) :
    Solo tid S call anyPoint Q m (.reach (m.viewAt S b (farValue S))) := by
  have hword : (m.viewAt S b (farValue S)).far.word = n := by
    change (m.slot b (farValue S + farDirection S)).word = n
    rw [farValue_add]
    exact hj.1.2
  have hgo : Solo tid S call anyPoint (fun m' p => m' = m ∧ p =
      afterBack S call (m.viewAt S b (farValue S)) n (m.slot n (nearValue S))) m
        (.reach (m.viewAt S b (farValue S))) := solo_linked hword hj.2.2 (.done ⟨rfl, rfl⟩)
  refine (hgo.keep hs).trans ?_
  rintro m' p ⟨⟨rfl, rfl⟩, hs'⟩
  exact h hs'

end Moves

section Push

variable [DecidableEq τ]

/-- Only a new buffer has been worked on. -/
structure Memory.Aside (m : Memory τ) (tid : τ) (S : Side) (n : Address) (m' : Memory τ) :
    Prop where
  chain : m'.chain = m.chain
  dead : m'.dead = m.dead
  hint : m'.hint = m.hint
  slot : ∀ c ≠ n, m'.slot c = m.slot c
  localHint : ∀ R, m'.localHint R n = nearValue S
  localHints : ∀ R, ∀ c ≠ n, m'.localHint R c = m.localHint R c
  cache : ∀ R k, (R = S → k ≠ tid) → m'.cache R k = none

variable (h : m.Calm)
include h

/-- A push within a buffer. -/
theorem solo_interiorPush (e : m.EdgeAt S b i) (hi : i ≠ farValue S)
    (hs : Sound tid S (.push w) l m (.safe (m.viewAt S b i) .interiorPush)) :
    Solo tid S (.push w) anyPoint (AtEnd S (.push w) m) m
      (.safe (m.viewAt S b i) .interiorPush) := by
  have hcur : m.Current₂ S (m.viewAt S b i) .interiorPush :=
    ⟨rfl, rfl, .inr fun he => farDirection_ne_zero S (add_eq_left.mp he)⟩
  refine solo_attempt hcur fun junk => ?_
  have hset := hs.settled_attempt (w := junk) h.toSettled hcur fun _ => trivial
  have htype : (m.attempt tid S (.push w) (m.viewAt S b i) .interiorPush junk).type =
      retype m.type b (i + farDirection S) .value := type_attempt fun _ => ⟨w, rfl⟩
  refine solo_addLocal ⟨⟨hset.hint, hset.unsealed⟩, h.cache, ?_, fun _ => rfl,
    fun he => by cases he⟩
  exact .interiorPush e hi rfl htype rfl

/-- A push into an empty neighbour. -/
theorem solo_straddle (e : m.EdgeAt S b (farValue S)) (hn : n ∈ m.chain) (hj : m.Joined S b n)
    (ht : m.type n (nearValue S) = farType S)
    (hs : Sound tid S (.push w) l m (.reach (m.viewAt S b (farValue S)))) :
    Solo tid S (.push w) anyPoint (AtEnd S (.push w) m) m
      (.reach (m.viewAt S b (farValue S))) := by
  refine solo_reach hj hs fun hs' => ?_
  have hgo : afterBack S (.push w) (m.viewAt S b (farValue S)) n (m.slot n (nearValue S)) =
      .safe (m.viewAt S b (farValue S)) (.straddle n (m.slot n (nearValue S))) := if_pos ht
  rw [hgo] at hs' ⊢
  have hcur : m.Current₂ S (m.viewAt S b (farValue S)) (.straddle n (m.slot n (nearValue S))) :=
    ⟨rfl, rfl, .inr (nearValue_ne_farValue S)⟩
  refine solo_attempt hcur fun junk => ?_
  have hset := hs'.settled_attempt (w := junk) h.toSettled hcur fun _ => trivial
  have htype : (m.attempt tid S (.push w) (m.viewAt S b (farValue S))
      (.straddle n (m.slot n (nearValue S))) junk).type = retype m.type n (nearValue S) .value :=
    type_attempt fun _ => ⟨w, rfl⟩
  apply solo_casHint
  · exact ⟨hset, h.cache, .straddle e hj rfl htype rfl, fun _ => rfl, fun he => by cases he⟩
  · exact ⟨hset.setHint hn, h.cache, .straddle e hj rfl htype rfl, fun _ => rfl,
      fun he => by cases he⟩

omit h in
theorem Memory.Aside.store (hm : m.Aside tid S n m') : m.Aside tid S n (m'.act tid (.store n i x)) :=
  { hm with slot := fun c hc => (funext fun j => m'.slot_set_ne n c i j (.inl hc)).trans (hm.slot c hc) }

omit [DecidableEq τ] h in
theorem Memory.Aside.type_eq (hm : m.Aside tid S n m') (hc : c ≠ n) : m'.type c = m.type c :=
  funext fun j => by rw [Memory.type, hm.slot c hc, Memory.type]

omit [DecidableEq τ] h in
theorem Memory.Aside.settled (hm : m.Aside tid S n m') (hs : m.Settled) (hn : n ∉ m.chain) :
    m'.Settled := by
  refine ⟨fun R => ?_, fun c hc R => ?_⟩
  · rw [hm.hint, hm.chain]
    exact hs.hint R
  · rw [hm.chain] at hc
    rw [hm.type_eq fun he => hn (he ▸ hc)]
    exact hs.unsealed c hc R

omit h in
/-- `fill` alone. -/
theorem solo_fill (hm : m.Aside tid S n m')
    (hdone : ∀ m', m.Aside tid S n m' → Solo tid S call anyPoint Q m' (.insertLink v n)) :
    Solo tid S call anyPoint Q m' (.fill v n i) := by
  induction hk : (bufferSize - i).toNat generalizing m' i with
  | zero =>
    refine .next (a := .cache S n) (q := .insertLink v n) (fun _ => ?_) (hdone _ ?_)
    · simp only [OFDeque.next, if_neg (show ¬i < bufferSize by omega)]
    · refine { hm with cache := fun R k hne => ?_ }
      change Function.update m'.cache S (Function.update (m'.cache S) tid (some n)) R k = none
      by_cases hR : R = S
      · rw [hR, Function.update_self, Function.update_of_ne (hne hR)]
        exact hm.cache S k fun _ => hne hR
      · rw [Function.update_of_ne hR]
        exact hm.cache R k hne
  | succ k ih =>
    refine .free (f := fun c => .store n i ⟨c.junk, c.junkCount, farType S⟩)
      (g := fun _ => .fill v n (i + 1)) (fun _ => ?_) fun c => ?_
    · simp only [OFDeque.next, if_pos (show i < bufferSize by omega)]
    · exact ih hm.store (by omega)

/-- A push into a new buffer. -/
theorem solo_append (e : m.EdgeAt S b (farValue S)) (hl : m.type b (farLink S) = farType S)
    (hs : Sound tid S (.push w) l m (.alloc (m.viewAt S b (farValue S)))) :
    Solo tid S (.push w) anyPoint (AtEnd S (.push w) m) m
      (.alloc (m.viewAt S b (farValue S))) := by
  have hprepare : Solo tid S (.push w) anyPoint (fun m' p => ∃ n, n ∉ m.chain ∧
      p = .safe (m.viewAt S b (farValue S)) (.append n) ∧ m.Aside tid S n m') m
        (.alloc (m.viewAt S b (farValue S))) := by
    obtain ⟨n, hn⟩ := h.room.exists_notMem
    have hfree : m.owner n = .unused := not_not.mp hn
    refine .step ⟨⟨(S, .push w), n, 0, 0⟩, .alloc S n, .initLeft (m.viewAt S b (farValue S)) n, ?_⟩ fun c a q hq => ?_
    · simp only [OFDeque.next, if_pos hfree]
    · simp only [OFDeque.next] at hq
      split_ifs at hq with hc
      cases hq
      have hc' : c.address ∉ m.chain := fun hmem => by
        cases hc.symm.trans (h.shape.owner _ (.inl hmem))
      refine .next (fun _ => rfl) (.next (fun _ => rfl) (solo_fill (m := m) ?_ fun m' hm => ?_))
      · refine ⟨rfl, rfl, rfl, fun _ _ => rfl, fun R => ?_, fun R c' hne => ?_,
          fun R k _ => h.cache R k⟩
        · cases R <;> simp [Memory.act]
        · cases R <;> simp [Memory.act, Function.update_of_ne hne]
      · refine .free (fun _ => rfl) fun _ => .free (fun _ => rfl) fun _ => .done ?_
        exact ⟨c.address, hc', rfl, hm.store.store⟩
  refine (hprepare.keep hs).trans ?_
  rintro m' p ⟨⟨n, hn, rfl, hm⟩, hs'⟩
  have hbn : b ≠ n := fun he => hn (he ▸ e.live)
  have hcur : m'.Current₂ S (m.viewAt S b (farValue S)) (.append n) := by
    have hslot : m'.slot b = m.slot b := hm.slot b hbn
    exact ⟨congrFun hslot _, congrFun hslot _,
      .inr fun he => farDirection_ne_zero S (add_eq_left.mp he)⟩
  refine solo_attempt hcur fun junk => ?_
  have hset := hs'.settled_attempt (w := junk) (hm.settled h.toSettled hn) hcur fun _ => trivial
  obtain ⟨-, ⟨-, -, -, hprep, -⟩, -⟩ := hs'.knows.1
  have hcache (R : Side) (k : τ) :
      (m'.attempt tid S (.push w) (m.viewAt S b (farValue S)) (.append n) junk).cache R k =
        none := by
    change Function.update m'.cache S (Function.update (m'.cache S) tid none) R k = none
    by_cases hR : R = S
    · rw [hR, Function.update_self]
      by_cases hk : k = tid
      · rw [hk, Function.update_self]
      · rw [Function.update_of_ne hk]
        exact hm.cache S k fun _ => hk
    · rw [Function.update_of_ne hR]
      exact hm.cache R k fun he => absurd he hR
  have htype (c : Address) (hc : c ∈ m.chain) :
      (m'.attempt tid S (.push w) (m.viewAt S b (farValue S)) (.append n) junk).type c =
        retype m.type b (farLink S) .value c := by
    have hcn : c ≠ n := fun he => hn (he ▸ hc)
    have hall : (m'.attempt tid S (.push w) (m.viewAt S b (farValue S)) (.append n) junk).type =
        retype m'.type b (farLink S) .value := type_attempt fun _ => ⟨n, rfl⟩
    exact (congrFun hall c).trans (retype_congr (hm.type_eq hcn) (hm.type_eq hbn))
  have hprep' : (m'.attempt tid S (.push w) (m.viewAt S b (farValue S)) (.append n) junk).Prepared
      S b n := by
    refine hprep.congr (funext fun j => ?_)
    exact (Memory.slot_cas_ne _ _ _ _ _ _ _ (.inl hbn.symm)).trans
      (m'.slot_cas_ne _ _ _ _ _ _ (.inl hbn.symm))
  have hchain := congrArg (S.add n) hm.chain
  apply solo_casHint
  · exact ⟨hset, hcache, .append e hl hn hchain htype hprep' hm.localHint hm.localHints,
      fun _ => hm.dead, fun he => by cases he⟩
  · exact ⟨hset.setHint (mem_add.mpr (.inl rfl)), hcache,
      .append e hl hn hchain htype (hprep'.congr (by rfl)) hm.localHint hm.localHints,
      fun _ => hm.dead, fun he => by cases he⟩

/-- A push alone adds its value. -/
theorem solo_push : Solo tid S (.push w) anyPoint (AtEnd S (.push w) m) m .hintLoad := by
  refine h.solo_round fun b i e => ?_
  have hs : Sound tid S (.push w) m.content m _ := h.sound_check e
  rw [h.check e, h.cache, passEdge] at hs ⊢
  by_cases hi : i = farValue S
  · subst hi
    have hfar : (m.viewAt S b (farValue S)).far.type = m.type b (farLink S) := by
      rw [← farValue_add]
      rfl
    rcases h.far_type e with hf | ⟨n, hn, hj, ht⟩
    · have hgo : pushEdge S none (m.viewAt S b (farValue S)) =
          .alloc (m.viewAt S b (farValue S)) :=
        (if_neg (not_not.mpr rfl)).trans (if_pos (hfar.trans hf))
      rw [hgo] at hs ⊢
      exact solo_append h e hf hs
    · have hgo : pushEdge S none (m.viewAt S b (farValue S)) =
          .reach (m.viewAt S b (farValue S)) := by
        refine (if_neg (not_not.mpr rfl)).trans (if_neg ?_)
        rw [hfar, hj.1.1]
        exact (farType_ne_value S).symm
      rw [hgo] at hs ⊢
      exact solo_straddle h e hn hj ht hs
  · have hgo : pushEdge S none (m.viewAt S b i) = .safe (m.viewAt S b i) .interiorPush := if_pos hi
    rw [hgo] at hs ⊢
    exact solo_interiorPush h e hi hs

end Push

section Retire

variable [DecidableEq τ]

/-- What `retire` alone has done. -/
structure Memory.Repaired (m m' : Memory τ) : Prop where
  chain : m'.chain = m.chain
  slot : m'.slot = m.slot
  localHint : m'.localHint = m.localHint
  cache : m'.cache = m.cache
  hint : ∀ S, (m'.hint S).buffer ∈ m.chain

theorem solo_retire (h : Shape m)
    (hdone : ∀ m', m.Repaired m' → Solo tid S call anyPoint Q m' (afterRemove S call v)) :
    Solo tid S call anyPoint Q m (.updThreshold v n .left) := by
  refine solo_updThreshold h fun m₁ h₁ => solo_updThreshold h₁.shape fun m₂ h₂ => ?_
  refine .next (a := .retire n) (fun _ => rfl) (hdone _ ?_)
  have hhint : m₂.hint .left = m₁.hint .left := by
    rw [h₂.hint]
    rfl
  have hchain₁ : m₁.chain = m.chain := by rw [h₁.hint]
  have hchain₂ : m₂.chain = m₁.chain := by rw [h₂.hint]
  refine ⟨hchain₂.trans hchain₁, ?_, ?_, ?_, fun R => ?_⟩
  · change m₂.slot = m.slot
    rw [h₂.hint, h₁.hint]
  · change m₂.localHint = m.localHint
    rw [h₂.hint, h₁.hint]
  · change m₂.cache = m.cache
    rw [h₂.hint, h₁.hint]
  · change (m₂.hint R).buffer ∈ m.chain
    cases R with
    | left =>
      rw [hhint, ← hchain₁]
      exact h₁.live.2
    | right =>
      rw [← hchain₁, ← hchain₂]
      exact h₂.live.2

end Retire

section Pop

variable [DecidableEq τ]

variable (h : m.Calm)
include h

/-- A pop finds the deque empty. -/
theorem solo_recheck (e : m.EdgeAt S b i) (ht : m.type b i = nearType S) (hc : m.content = []) :
    Solo tid S .pop anyPoint (AtEnd S .pop m) m (.recheck (m.viewAt S b i) k) :=
  .skip (.done ⟨.empty, rfl, h.toSettled, h.cache, .stay e ht, fun hne => absurd rfl hne, fun _ => hc⟩) fun _ => by
    simp only [OFDeque.next, Memory.viewAt, if_true]

/-- A pop within a buffer. -/
theorem solo_interiorPop (e : m.EdgeAt S b i) (hi : i ≠ farValue S) (ht : m.type b i = .value)
    (hs : Sound tid S .pop l m (.safe (m.viewAt S b i) .interiorPop)) :
    Solo tid S .pop anyPoint (AtEnd S .pop m) m (.safe (m.viewAt S b i) .interiorPop) := by
  have hcur : m.Current₂ S (m.viewAt S b i) .interiorPop :=
    ⟨rfl, rfl, .inr fun he => farDirection_ne_zero S (left_eq_add.mp he)⟩
  refine solo_attempt hcur fun junk => ?_
  have hset := hs.settled_attempt (w := junk) h.toSettled hcur fun _ => trivial
  have htype : (m.attempt tid S .pop (m.viewAt S b i) .interiorPop junk).type =
      retype m.type b i (farType S) := type_attempt fun _ => ⟨junk, rfl⟩
  refine solo_addLocal ⟨⟨hset.hint, hset.unsealed⟩, h.cache, ?_, fun hne => absurd rfl hne,
    fun he => by cases he⟩
  exact .interiorPop e hi ht rfl htype rfl

/-- A pop at the end of the last buffer. -/
theorem solo_boundaryPop (e : m.EdgeAt S v.buffer (farValue S)) (hi : v.index = farValue S)
    (hn : v.near = m.slot v.buffer (farValue S)) (hf : v.far = m.slot v.buffer (farLink S))
    (hl : m.type v.buffer (farLink S) = farType S) (ht : m.type v.buffer (farValue S) = .value)
    (hs : Sound tid S .pop l m (.safe v .boundaryPop)) :
    Solo tid S .pop anyPoint (AtEnd S .pop m) m (.safe v .boundaryPop) := by
  have hcur : m.Current₂ S v .boundaryPop := by
    refine ⟨?_, ?_, .inr fun he => farDirection_ne_zero S (left_eq_add.mp he)⟩
    · change m.slot v.buffer (v.index + farDirection S) = v.far
      rw [hi, farValue_add, hf]
    · change m.slot v.buffer v.index = v.near
      rw [hi, hn]
  refine solo_attempt hcur fun junk => ?_
  have hset := hs.settled_attempt (w := junk) h.toSettled hcur fun _ => trivial
  have htype : (m.attempt tid S .pop v .boundaryPop junk).type =
      retype m.type v.buffer (farValue S) (farType S) := by
    rw [← hi]
    exact type_attempt fun _ => ⟨junk, rfl⟩
  have hmoves : Moves S .pop m (m.attempt tid S .pop v .boundaryPop junk) :=
    .boundaryPop e hl ht rfl htype rfl
  apply solo_casHint
  · exact ⟨hset, h.cache, hmoves, fun hne => absurd rfl hne, fun he => by cases he⟩
  · exact ⟨hset.setHint e.live, h.cache, .boundaryPop e hl ht rfl htype rfl,
      fun hne => absurd rfl hne, fun he => by cases he⟩

/-- A pop has removed the empty neighbour of the last buffer with a value. -/
structure Dropped (S : Side) (m m' : Memory τ) (b n : Address) (v : View) : Prop where
  chain : m.chain = S.add n m'.chain
  type : ∀ c ∈ m'.chain, m'.type c = retype m.type b (farLink S) (farType S) c
  localHint : m'.localHint = m.localHint
  cache : ∀ R k, m'.cache R k = none
  hint : ∀ R, (m'.hint R).buffer ∈ m'.chain
  buffer : v.buffer = b
  index : v.index = farValue S
  near : v.near = m'.slot b (farValue S)
  far : v.far.type = farType S

/-- A pop has sealed the empty neighbour. -/
structure SealedFar (S : Side) (m m' : Memory τ) (b n : Address) (v : View) : Prop where
  chain : m'.chain = m.chain
  type : m'.type = retype m.type n (nearValue S) .sealed
  localHint : m'.localHint = m.localHint
  cache : m'.cache = m.cache
  buffer : v.buffer = b
  index : v.index = farValue S
  near : v.near = m'.slot b (farValue S)
  far : v.far = m'.slot b (farLink S)

omit [DecidableEq τ] h in
theorem apart_of_joined (h : Shape m) (hn : n ∈ m.chain) (hj : m.Joined S b n)
    (ht : m.reads n (nearValue S) = farType S) : m.type n (farLink S) = farType S ∧ b ≠ n := by
  have hl := (h.buffer n (.inl hn)).farLink_of_reads (inner_nearValue S) ht
  refine ⟨hl, ?_⟩
  rintro rfl
  exact farType_ne_value S (hl.symm.trans hj.1.1)

/-- Sealing an empty neighbour. -/
theorem solo_seal (hn : n ∈ m.chain) (hj : m.Joined S b n) (hv : m.type b (farValue S) = .value)
    (ht : m.type n (nearValue S) = farType S)
    (hs : Sound tid S .pop l m (.reach (m.viewAt S b (farValue S)))) :
    Solo tid S .pop anyPoint (fun m' p => ∃ v, p = .safe v (.remove n) ∧ SealedFar S m m' b n v) m
      (.reach (m.viewAt S b (farValue S))) := by
  have hbn : b ≠ n := (apart_of_joined h.shape hn hj (Memory.reads_of_type ht)).2
  have hnear : ¬((m.viewAt S b (farValue S)).near.type = nearType S ∨
      (m.viewAt S b (farValue S)).near.type = .sealed) := by
    rintro (he | he)
    · exact nearType_ne_value S (he.symm.trans hv)
    · cases he.symm.trans hv
  refine solo_reach hj hs fun hs' => ?_
  have hgo : afterBack S .pop (m.viewAt S b (farValue S)) n (m.slot n (nearValue S)) =
      .safe (m.viewAt S b (farValue S)) (.seal n (m.slot n (nearValue S))) :=
    (if_pos ht).trans (if_neg hnear)
  rw [hgo]
  have hcur : m.Current₂ S (m.viewAt S b (farValue S)) (.seal n (m.slot n (nearValue S))) :=
    ⟨rfl, rfl, .inl hbn.symm⟩
  refine solo_attempt hcur fun w => ?_
  have hgo' : Attempt.doneNext S (m.viewAt S b (farValue S)) (.seal n (m.slot n (nearValue S))) =
      .safe (m.viewAt S b (farValue S)).countNear (.remove n) := by
    have hval : (m.viewAt S b (farValue S)).countNear.near.type ≠ nearType S := fun he =>
      hnear (.inl he)
    simp only [Attempt.doneNext, popRemove, if_true, if_neg hval]
  rw [hgo']
  have htype : (m.attempt tid S .pop (m.viewAt S b (farValue S))
      (.seal n (m.slot n (nearValue S))) w).type = retype m.type n (nearValue S) .sealed :=
    type_attempt fun _ => ⟨w, rfl⟩
  have hslot (i : ℤ) : (m.attempt tid S .pop (m.viewAt S b (farValue S))
      (.seal n (m.slot n (nearValue S))) w).slot b i =
        (m.act tid (.casSafe b (farValue S))).slot b i :=
    Memory.slot_cas_ne _ _ _ _ _ _ _ (.inl hbn)
  refine .done ⟨_, rfl, rfl, htype, rfl, rfl, rfl, rfl, ?_, ?_⟩
  · rw [hslot, slot_casSafe]
    rfl
  · rw [hslot, ← farValue_add]
    exact (m.slot_cas_ne b b _ _ _ _ (.inr fun he => farDirection_ne_zero S
      (add_eq_left.mp he))).symm

/-- Removing the sealed neighbour. -/
theorem solo_remove (hn : n ∈ m.chain) (hj : m.Joined S b n)
    (ht : m.type n (nearValue S) = farType S) (hm : SealedFar S m m' b n v)
    (hs : Sound tid S .pop l m' (.safe v (.remove n))) :
    Solo tid S .pop anyPoint (fun m' p => ∃ v, p = popBoundary S v ∧ Dropped S m m' b n v) m'
      (.safe v (.remove n)) := by
  obtain ⟨hlast, hbn⟩ := apart_of_joined h.shape hn hj (Memory.reads_of_type ht)
  obtain ⟨rest, hrest, hnr⟩ := h.shape.split_chain hn hlast
  have hcur : m'.Current₂ S v (.remove n) := by
    refine ⟨?_, ?_, .inr fun he => farDirection_ne_zero S (add_eq_left.mp he)⟩
    · change m'.slot v.buffer v.index = v.near
      rw [hm.buffer, hm.index, hm.near]
    · change m'.slot v.buffer (v.index + farDirection S) = v.far
      rw [hm.buffer, hm.index, farValue_add, hm.far]
  refine solo_attempt hcur fun w => ?_
  refine solo_retire (hs.attempt hcur w).2.shape fun m₁ h₁ => .done ⟨_, rfl, ?_⟩
  have hchain : m₁.chain = rest := by
    rw [h₁.chain]
    change m'.chain.erase n = rest
    rw [hm.chain, hrest, Shape.erase_add hnr]
  have htype : m₁.type = retype m'.type b (farLink S) (farType S) := by
    rw [← hm.buffer, ← type_attempt (k := .remove n) fun _ => ⟨w, rfl⟩]
    funext c j
    rw [Memory.type, h₁.slot]
    rfl
  have htype' (c : Address) (hc : c ≠ n) : m'.type c = m.type c := by
    rw [hm.type, retype, Function.update_of_ne hc]
  have hslot : m₁.slot b (farValue S) = (v.countNear.emptyFar S).near := by
    have hne : farValue S ≠ farLink S := (inner_farValue S).ne_farLink S
    have hunlink : (m'.attempt tid S .pop v (.remove n) w).slot b (farValue S) =
        (m'.act tid (.casSafe v.buffer v.index)).slot b (farValue S) :=
      Memory.slot_cas_ne _ _ _ _ _ _ _ (.inr hne)
    rw [h₁.slot, hunlink, hm.buffer, hm.index, slot_casSafe, ← hm.near]
    rfl
  refine ⟨by rw [hchain, hrest], fun c hc => ?_, h₁.localHint.trans hm.localHint, ?_, ?_,
    hm.buffer, hm.index, hslot.symm, rfl⟩
  · rw [hchain] at hc
    rw [htype]
    exact retype_congr (htype' c fun he => hnr (he ▸ hc)) (htype' b hbn)
  · intro R k
    rw [h₁.cache]
    exact (congrFun (congrFun hm.cache R) k).trans (h.cache R k)
  · rw [h₁.chain]
    exact h₁.hint

omit [DecidableEq τ] in
/-- The memory without the empty neighbour is calm again. -/
theorem Dropped.calm (hd : Dropped S m m' b n v) (hs : Sound tid S .pop l m' p)
    (hn : n ∈ m.chain) (hj : m.Joined S b n) (ht : m.type n (nearValue S) = farType S) :
    m'.Calm := by
  obtain ⟨hlast, hbn⟩ := apart_of_joined h.shape hn hj (Memory.reads_of_type ht)
  refine ⟨⟨hd.hint, fun c hc R => ?_⟩, hs.shape, hs.room, hd.cache⟩
  have hc' : c ∈ m.chain := by
    rw [hd.chain]
    exact mem_add.mpr (.inr hc)
  rw [hd.type c hc]
  by_cases hcb : c = b
  · rw [hcb, retype, Function.update_self, Function.update_of_ne ((inner_farValue R).ne_farLink S)]
    exact h.unsealed b (hcb ▸ hc') R
  · rw [retype, Function.update_of_ne hcb]
    exact h.unsealed c hc' R

omit [DecidableEq τ] h in
/-- A value at the end of the last buffer is at the edge. -/
theorem Memory.EdgeAt.of_value (hb : b ∈ m.chain) (hv : m.type b (farValue S) = .value)
    (hl : m.type b (farLink S) = farType S) : m.EdgeAt S b (farValue S) where
  live := hb
  near := (inner_farValue S).near S
  first he := absurd he.symm (nearLink_ne_farValue S)
  notFar := by
    rw [Memory.reads, hv, SlotType.reads_value]
    exact (farType_ne_value S).symm
  inner hne := absurd rfl hne
  last _ := .inl hl

/-- A pop from a buffer with an empty neighbour, which it removes first. -/
theorem solo_straddlingPop (e : m.EdgeAt S b (farValue S)) (hn : n ∈ m.chain)
    (hj : m.Joined S b n) (hv : m.type b (farValue S) = .value)
    (ht : m.type n (nearValue S) = farType S)
    (hs : Sound tid S .pop m.content m (.reach (m.viewAt S b (farValue S))))
    (again : ∀ m', m'.Calm → m'.chain.length < m.chain.length →
      Solo tid S .pop anyPoint (AtEnd S .pop m') m' .hintLoad) :
    Solo tid S .pop anyPoint (AtEnd S .pop m) m (.reach (m.viewAt S b (farValue S))) := by
  refine ((solo_seal h hn hj hv ht hs).keep hs).trans ?_
  rintro m₁ p ⟨⟨v, rfl, hm⟩, hs₁⟩
  refine ((solo_remove h hn hj ht hm hs₁).keep hs₁).trans ?_
  rintro m₂ p ⟨⟨v, rfl, hd⟩, hs₂⟩
  have hcalm : m₂.Calm := hd.calm h hs₂ hn hj ht
  have hbn := (apart_of_joined h.shape hn hj (Memory.reads_of_type ht)).2
  have hb : b ∈ m₂.chain := by
    have hb := e.live
    rw [hd.chain, mem_add] at hb
    exact hb.resolve_left hbn
  have htype : m₂.type b = Function.update (m.type b) (farLink S) (farType S) := by
    rw [hd.type b hb, retype, Function.update_self]
  have hl : m₂.type b (farLink S) = farType S := by rw [htype, Function.update_self]
  have hv₂ : m₂.type b (farValue S) = .value := by
    rw [htype, Function.update_of_ne ((inner_farValue S).ne_farLink S), hv]
  have hcontent : m₂.content = m.content := by
    obtain ⟨es, hes, happ⟩ := hs₂.told
    obtain rfl := (logged_of_none (result_of_plain (plain_of_goes goes_popBoundary))).mp hes
    exact happ
  -- with the last buffer back the pop has an edge of its own
  have hgoal : Solo tid S .pop anyPoint (AtEnd S .pop m₂) m₂ (popBoundary S v) := by
    have hgo : popBoundary S v = .safe v .boundaryPop := by
      have hnear : v.near.type ≠ nearType S := by
        rw [hd.near]
        exact fun he => nearType_ne_value S (he.symm.trans hv₂)
      exact (if_pos hd.far).trans (if_neg hnear)
    rw [hgo] at hs₂ ⊢
    by_cases hf : v.far = m₂.slot b (farLink S)
    · have e₂ : m₂.EdgeAt S b (farValue S) := .of_value hb hv₂ hl
      have hbuffer := hd.buffer
      subst hbuffer
      exact solo_boundaryPop hcalm e₂ hd.index hd.near hf hl hv₂ hs₂
    · have hlt : m₂.chain.length < m.chain.length := by
        rw [hd.chain]
        cases S <;> simp
      refine .skip (again m₂ hcalm hlt) fun _ => ?_
      have hne : m₂.slot (Attempt.boundaryPop.safe S v).1 (Attempt.boundaryPop.safe S v).2.1 ≠
          (Attempt.boundaryPop.safe S v).2.2 := by
        change m₂.slot v.buffer (v.index + farDirection S) ≠ v.far
        rw [hd.buffer, hd.index, farValue_add]
        exact fun he => hf he.symm
      simp only [OFDeque.next, if_neg hne]
      rfl
  refine hgoal.trans ?_
  rintro m' p ⟨r, rfl, hfin⟩
  exact .done ⟨r, rfl, hfin.settled, hfin.cache,
    .drop e hj hv hd.chain hd.type hd.localHint hcalm hfin.moves, fun hne => absurd rfl hne,
    fun he => hcontent ▸ hfin.empty he⟩

/-- A pop alone removes a value, unless there is none. -/
theorem solo_pop : Solo tid S .pop anyPoint (AtEnd S .pop m) m .hintLoad := by
  induction hk : m.chain.length using Nat.strong_induction_on generalizing m with
  | _ k ih =>
    refine h.solo_round fun b i e => ?_
    have hs : Sound tid S .pop m.content m _ := h.sound_check e
    rw [h.check e, h.cache, passEdge] at hs ⊢
    by_cases hi : i = farValue S
    · subst hi
      have hfar : (m.viewAt S b (farValue S)).far.type = m.type b (farLink S) := by
        rw [← farValue_add]
        rfl
      rcases h.far_type e with hf | ⟨n, hn, hj, ht⟩
      · have hgo : popEdge S (m.viewAt S b (farValue S)) =
            popBoundary S (m.viewAt S b (farValue S)) :=
          (if_neg (not_not.mpr rfl)).trans (if_neg (not_not.mpr (hfar.trans hf)))
        rw [hgo] at hs ⊢
        rcases h.near_type e with ht | ⟨-, ht⟩
        · have hgo' : popBoundary S (m.viewAt S b (farValue S)) =
              .recheck (m.viewAt S b (farValue S)) .boundaryPop :=
            (if_pos (hfar.trans hf)).trans (if_pos ht)
          rw [hgo']
          refine solo_recheck h e ht (h.shape.empty_edge (.inl e.live) e.near ht ?_)
          rw [farValue_add, hf]
        · have hgo' : popBoundary S (m.viewAt S b (farValue S)) =
              .safe (m.viewAt S b (farValue S)) .boundaryPop := by
            refine (if_pos (hfar.trans hf)).trans (if_neg fun he => ?_)
            exact nearType_ne_value S (he.symm.trans ht)
          rw [hgo'] at hs ⊢
          have hslot : (m.viewAt S b (farValue S)).far = m.slot b (farLink S) := by
            rw [← farValue_add]
            rfl
          exact solo_boundaryPop h (v := m.viewAt S b (farValue S)) e rfl rfl hslot hf ht hs
      · have hgo : popEdge S (m.viewAt S b (farValue S)) = .reach (m.viewAt S b (farValue S)) := by
          refine (if_neg (not_not.mpr rfl)).trans (if_pos ?_)
          rw [hfar, hj.1.1]
          exact (farType_ne_value S).symm
        rw [hgo] at hs ⊢
        rcases h.near_type e with ht' | ⟨-, ht'⟩
        · refine solo_reach hj hs fun _ => ?_
          have hgo' : afterBack S .pop (m.viewAt S b (farValue S)) n (m.slot n (nearValue S)) =
              .recheck (m.viewAt S b (farValue S)) (.seal n (m.slot n (nearValue S))) :=
            (if_pos ht).trans (if_pos (.inl ht'))
          rw [hgo']
          refine solo_recheck h e ht' (h.shape.empty_straddle e.live hj.1 ?_ ?_)
          · exact (Memory.reads_of_ne_sealed (by rw [ht']; exact nearType_ne_sealed S)).trans ht'
          · exact Memory.reads_of_type ht
        · exact solo_straddlingPop h e hn hj ht' ht hs fun m' h' hlt => ih _ (hk ▸ hlt) h' rfl
    · rcases h.near_type e with ht | ⟨-, ht⟩
      · have hgo : popEdge S (m.viewAt S b i) = .recheck (m.viewAt S b i) .interiorPop :=
          (if_pos hi).trans (if_pos ht)
        rw [hgo]
        exact solo_recheck h e ht (h.shape.empty_edge (.inl e.live) e.near ht (e.inner hi))
      · have hgo : popEdge S (m.viewAt S b i) = .safe (m.viewAt S b i) .interiorPop := by
          refine (if_pos hi).trans (if_neg fun he => ?_)
          exact nearType_ne_value S (he.symm.trans ht)
        rw [hgo] at hs ⊢
        exact solo_interiorPop h e hi ht hs

end Pop

section Returned

variable [DecidableEq τ]

/-- A call that is about to return to a calm memory has changed the content as its
result tells. -/
structure Returned (S : Side) (call : Call Word) (m m' : Memory τ) (r : Result Word) : Prop where
  calm : m'.Calm
  moves : Moves S call m m'
  dead : call ≠ .pop → m'.dead = m.dead
  told : ∃ es, call.Returns S r es ∧ Applies es m.content m'.content
  empty : r = .empty → m.content = []

/-- A call alone comes to its result. -/
theorem solo_call (h : m.Calm) : Solo tid S call anyPoint
    (fun m' p => ∃ r, p = .clearFirst r ∧ Returned S call m m' r) m .hintLoad := by
  have hend : Solo tid S call anyPoint (AtEnd S call m) m .hintLoad := by
    cases call with
    | push w => exact solo_push h
    | pop => exact solo_pop h
  refine (hend.keep h.sound).trans ?_
  rintro m' p ⟨⟨r, rfl, hfin⟩, hs⟩
  obtain ⟨es, hes, happ⟩ := hs.told
  exact .done ⟨r, rfl, ⟨hfin.settled, hs.shape, hs.room, hfin.cache⟩, hfin.moves, hfin.dead,
    ⟨es, (logged_of_some rfl).mp hes, happ⟩, hfin.empty⟩

end Returned

end Alone
end UnboundedDeque.OFDeque
