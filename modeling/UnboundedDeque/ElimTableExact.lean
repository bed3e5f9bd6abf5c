import UnboundedDeque.ElimTableInvariant

/-!
# Elimination hands every value over exactly once

`removePush` and `removePop` test the old flag of their exchange against
`FLAG_INACTIVE`, which is never found there, instead of `FLAG_ELIMINATED`. A
partner whose compare-exchange falls between their load and their exchange is
missed. In all other runs the table is exact.
-/
namespace UnboundedDeque.ElimTable
open StepMachine

variable {T : Type*} {threadCount : ℕ} {s s' s'' : State T threadCount}
  {tid i : Fin threadCount} {f g : Frame T threadCount} {pt : Point T threadCount}

/-- Only what belongs to one thread differs. -/
structure Elsewhere (tid : Fin threadCount) (s s' : State T threadCount) : Prop where
  threads : ∀ k, k ≠ tid → s'.threads k = s.threads k
  table : ∀ k, k ≠ tid → ∀ S, s'.table S k = s.table S k
  serial : ∀ k, k ≠ tid → s'.serial k = s.serial k
  calls : ∀ k, k ≠ tid → ∀ m, s'.calls (k, m) = s.calls (k, m)
  outcomes : ∀ k, k ≠ tid → ∀ m, s'.outcomes (k, m) = s.outcomes (k, m)
  pairs : s'.pairs = s.pairs

theorem Elsewhere.trans (h : Elsewhere tid s s') (h' : Elsewhere tid s' s'') :
    Elsewhere tid s s'' where
  threads k hk := (h'.threads k hk).trans (h.threads k hk)
  table k hk S := (h'.table k hk S).trans (h.table k hk S)
  serial k hk := (h'.serial k hk).trans (h.serial k hk)
  calls k hk m := (h'.calls k hk m).trans (h.calls k hk m)
  outcomes k hk m := (h'.outcomes k hk m).trans (h.outcomes k hk m)
  pairs := h'.pairs.trans h.pairs

theorem State.table_store_ne (s : State T threadCount) (S R : Side) {k i : Fin threadCount}
    (hne : k ≠ i) (slot : Slot T) : (s.store S i slot).table R k = s.table R k := by
  by_cases hR : R = S
  · subst hR
    simp [State.store, hne]
  · simp [State.store, hR]

theorem State.table_store_side (s : State T threadCount) {S R : Side} (hR : R ≠ S)
    (i k : Fin threadCount) (slot : Slot T) : (s.store S i slot).table R k = s.table R k := by
  simp [State.store, hR]

@[simp] theorem State.table_store (s : State T threadCount) (S : Side) (i : Fin threadCount)
    (slot : Slot T) : (s.store S i slot).table S i = slot := by
  simp [State.store]

theorem elsewhere_goto (s : State T threadCount) (tid : Fin threadCount)
    (f : Frame T threadCount) (pt : Point T threadCount) : Elsewhere tid s (s.goto tid f pt) := by
  constructor <;> simp +contextual [State.goto]

theorem elsewhere_store (s : State T threadCount) (tid : Fin threadCount) (S : Side)
    (slot : Slot T) : Elsewhere tid s (s.store S tid slot) where
  threads _ _ := rfl
  table _ hk R := s.table_store_ne S R hk slot
  serial _ _ := rfl
  calls _ _ _ := rfl
  outcomes _ _ _ := rfl
  pairs := rfl

theorem elsewhere_start (s : State T threadCount) (tid : Fin threadCount) (S : Side)
    (c : Call T) : Elsewhere tid s (s.start tid S c) := by
  constructor <;> simp +contextual [State.start, State.op]

theorem elsewhere_finish (s : State T threadCount) (tid : Fin threadCount) (r : Outcome T) :
    Elsewhere tid s (s.finish tid r) := by
  constructor <;> simp +contextual [State.finish, State.op]

/-- The invariant of all but the present operation of one thread. -/
structure InvBut (tid : Fin threadCount) (s : State T threadCount) : Prop where
  present : ∀ k, k ≠ tid → s.Present k
  past : ∀ k, s.Past k
  distinct : s.pairs.Pairwise Pair.Disjoint
  opposite : ∀ p ∈ s.pairs, s.calls p.pusher = some (p.side, .push p.value) ∧
    s.calls p.popper = some (p.side, .pop)

theorem Inv.but (h : Inv s) (tid : Fin threadCount) : InvBut tid s :=
  ⟨fun k _ => h.present k, h.past, h.distinct, h.opposite⟩

/-- A step of one thread keeps the invariant if it keeps what is about that
thread. -/
theorem InvBut.ofOwn (h : InvBut tid s) (other : Elsewhere tid s s')
    (calls : ∀ id c, s.calls id = some c → s'.calls id = some c)
    (present : s'.Present tid) (past : s'.Past tid) : Inv s' where
  present k := by
    by_cases hk : k = tid
    · exact hk ▸ present
    · exact (h.present k hk).congr ⟨other.threads k hk, other.table k hk, other.serial k hk,
        other.calls k hk _, fun p _ => by rw [other.pairs]⟩
  past k := by
    by_cases hk : k = tid
    · exact hk ▸ past
    · exact (h.past k).congr ⟨other.serial k hk, fun m _ => other.calls k hk m,
        other.outcomes k hk, fun p _ _ _ => by rw [other.pairs]⟩
  distinct := other.pairs ▸ h.distinct
  opposite p hp := by
    obtain ⟨hpush, hpop⟩ := h.opposite p (other.pairs ▸ hp)
    exact ⟨calls _ _ hpush, calls _ _ hpop⟩

/-- A step inside a call. -/
theorem Inv.ofCall (h : Inv s) (hf : s.threads tid = some f) (x : Slot T)
    (hs : s' = (s.store f.side tid x).goto tid g pt) (hside : g.side = f.side)
    (hok : s'.CallOk tid { g with point := pt }) : Inv s' := by
  subst hs
  apply (h.but tid).ofOwn ((elsewhere_store s tid f.side x).trans (elsewhere_goto _ tid g pt))
    (fun _ _ hc => hc)
  · constructor
    · intro hn
      simp [State.goto] at hn
    · intro f' hf'
      obtain rfl : { g with point := pt } = f' := by simpa [State.goto] using hf'
      exact hok
    · intro S hS
      have hne : S ≠ f.side := by
        have := hS { g with point := pt } (by simp [State.goto])
        exact fun he => this (hside.trans he.symm)
      change ¬ ((s.store f.side tid x).table S tid).Offers
      rw [s.table_store_side hne]
      apply (h.present tid).outside S
      intro f' hf'
      obtain rfl : f = f' := Option.some.inj (hf.symm.trans hf')
      exact hne.symm
  · have hsame : SamePast tid s ((s.store f.side tid x).goto tid g pt) :=
      ⟨rfl, fun _ _ => rfl, fun _ => rfl, fun _ _ _ _ => .rfl⟩
    exact (h.past tid).congr hsame

theorem State.store_self (s : State T threadCount) (S : Side) (i : Fin threadCount) :
    s.store S i (s.table S i) = s := by
  simp [State.store]

/-- A step that leaves the table as it is. -/
theorem Inv.goto (h : Inv s) (hf : s.threads tid = some f) (hside : g.side = f.side)
    (hcall : g.call = f.call) (hst : pt.standing = f.point.standing)
    (hrem : ∀ x, pt.remembered = some x → x.flag = partnerOf f.call) : Inv (s.goto tid g pt) := by
  have hok := (h.present tid).busy f hf
  obtain ⟨side, call, count, point⟩ := g
  subst hside hcall
  have hs : s.goto tid ⟨f.side, f.call, count, point⟩ pt =
      (s.store f.side tid (s.table f.side tid)).goto tid ⟨f.side, f.call, count, point⟩ pt := by
    rw [s.store_self]
  exact h.ofCall hf _ hs rfl
    ⟨hok.called, fun hs => hok.standing (hst ▸ hs), fun hs => hok.withdrawn (hst ▸ hs), hrem⟩

/-- `insertPush` and `insertPop`. -/
theorem Inv.insert (h : Inv s) (hf : s.threads tid = some f) (hw : f.point.standing = false)
    (junk : T) (hst : pt.standing = true) (hrem : pt.remembered = none) :
    Inv ((s.store f.side tid (inserted junk f.call)).goto tid f pt) := by
  have hok := (h.present tid).busy f hf
  apply h.ofCall hf _ rfl rfl
  constructor
  · exact hok.called
  · intro _
    exact .inl ⟨⟨junk, s.table_store f.side tid _⟩, (hok.withdrawn hw).2⟩
  · intro hs
    exact absurd (hst.symm.trans hs) (by decide)
  · intro x hx
    exact absurd (hrem.symm.trans hx) (by simp)

/-- The exchange of `removePush` and `removePop` that finds the call unmarked. -/
theorem Inv.withdraw (h : Inv s) (hf : s.threads tid = some f) (hs : f.point.standing = true)
    (hne : (s.table f.side tid).flag ≠ .eliminated) (junk : T) (hst : pt.standing = false)
    (hrem : ∀ x, pt.remembered = some x → x.flag = partnerOf f.call) :
    Inv ((s.store f.side tid ⟨junk, .inactive⟩).goto tid f pt) := by
  have hok := (h.present tid).busy f hf
  apply h.ofCall hf _ rfl rfl
  constructor
  · exact hok.called
  · intro hpt
    exact absurd (hst.symm.trans hpt) (by decide)
  · intro _
    rcases hok.standing hs with ⟨_, hnp⟩ | ⟨hfl, _⟩
    · have hno : ¬ ((s.store f.side tid ⟨junk, .inactive⟩).table f.side tid).Offers := by
        rw [s.table_store]
        simp [Slot.Offers]
      exact ⟨hno, hnp⟩
    · exact absurd hfl hne
  · exact hrem

/-- A thread with a returned call is between two operations. -/
theorem State.Past.finish (h : s.Past tid) {r : Outcome T}
    (direct : ∀ v, r = .direct v → ¬ s.Paired (s.op tid) ∧
      ∀ S w, s.calls (s.op tid) = some (S, .push w) → v = w)
    (eliminated : ∀ v, r = .eliminated v → ∃ p ∈ s.pairs, p.Includes (s.op tid) ∧ p.value = v)
    (settled : ∀ p ∈ s.pairs, p.Includes (s.op tid) → r = .eliminated p.value) :
    (s.finish tid r).Past tid := by
  have hser : (s.finish tid r).serial tid = s.serial tid + 1 := by simp [State.finish]
  have hout : (s.finish tid r).outcomes (tid, s.serial tid) = some r := by
    simp [State.finish, State.op]
  have hold : ∀ m, m ≠ s.serial tid →
      (s.finish tid r).outcomes (tid, m) = s.outcomes (tid, m) := fun m hm => by
    simp [State.finish, State.op, hm]
  constructor
  · intro m hm
    exact h.fresh m (by omega)
  · intro m hm
    rw [hold m (by omega), h.unfinished m (by omega)]
  · intro m hm
    by_cases he : m = s.serial tid
    · exact ⟨r, he ▸ hout⟩
    · rw [hold m he]
      exact h.finished m (by omega)
  · intro m v hv
    by_cases he : m = s.serial tid
    · subst he
      exact direct v (Option.some.inj (hout.symm.trans hv))
    · exact h.direct m v (hold m he ▸ hv)
  · intro m v hv
    by_cases he : m = s.serial tid
    · subst he
      exact eliminated v (Option.some.inj (hout.symm.trans hv))
    · exact h.eliminated m v (hold m he ▸ hv)
  · intro m hm p hp hi
    by_cases he : m = s.serial tid
    · subst he
      rw [hout, settled p hp hi]
    · rw [hold m he]
      exact h.settled m (by omega) p hp hi

theorem State.Present.finish (h : s.Past tid) (r : Outcome T)
    (outside : ∀ S, ¬ (s.table S tid).Offers) : (s.finish tid r).Present tid where
  idle _ := by
    have hop : (s.finish tid r).op tid = (tid, s.serial tid + 1) := by
      simp [State.finish, State.op]
    rw [hop]
    exact h.fresh _ (by omega)
  busy f hf := by simp [State.finish] at hf
  outside S _ := outside S

theorem Inv.outside_busy (h : Inv s) (hf : s.threads tid = some f)
    (hside : ¬ (s.table f.side tid).Offers) (S : Side) : ¬ (s.table S tid).Offers := by
  by_cases hS : S = f.side
  · rwa [hS]
  · apply (h.present tid).outside S
    intro f' hf'
    obtain rfl : f = f' := Option.some.inj (hf.symm.trans hf')
    exact fun he => hS he.symm

/-- The attempt on the deque succeeds. -/
theorem Inv.finishDirect (h : Inv s) (hf : s.threads tid = some f)
    (hw : f.point.standing = false) (v : T) :
    Inv (s.finish tid (.direct (exchanged v f.call))) := by
  have hok := (h.present tid).busy f hf
  obtain ⟨hno, hnp⟩ := hok.withdrawn hw
  apply (h.but tid).ofOwn (elsewhere_finish s tid _) (fun _ _ hc => hc)
  · exact .finish (h.past tid) _ (h.outside_busy hf hno)
  · apply (h.past tid).finish
    · intro w hw
      refine ⟨hnp, fun S u hu => ?_⟩
      rw [hok.called] at hu
      simp only [Option.some.injEq, Prod.mk.injEq] at hu
      rw [← Outcome.direct.inj hw, hu.2, exchanged]
    · intro w hw
      cases hw
    · intro p hp hi
      exact absurd ⟨p, hp, hi⟩ hnp

/-- The load of `removePush` or `removePop` finds the mark of a partner. -/
theorem Inv.finishEliminated (h : Inv s) (hf : s.threads tid = some f)
    (hst : f.point.standing = true) (he : (s.table f.side tid).flag = .eliminated) :
    Inv (s.finish tid (.eliminated (exchanged (s.table f.side tid).value f.call))) := by
  have hok := (h.present tid).busy f hf
  have hno : ¬ (s.table f.side tid).Offers := by simp [Slot.Offers, he]
  rcases hok.standing hst with ⟨⟨junk, hx⟩, _⟩ | ⟨_, p, hp, hi, _, hv⟩
  · exact absurd (hx ▸ Slot.inserted_offers junk f.call) hno
  · apply (h.but tid).ofOwn (elsewhere_finish s tid _) (fun _ _ hc => hc)
    · exact .finish (h.past tid) _ (h.outside_busy hf hno)
    · apply (h.past tid).finish
      · intro w hw
        cases hw
      · intro w hw
        exact ⟨p, hp, hi, hv.symm.trans (Outcome.eliminated.inj hw)⟩
      · intro q hq hqi
        rw [h.pair_unique hq hp hqi hi, hv]

theorem Inv.start (h : Inv s) (hf : s.threads tid = none) (S : Side) (c : Call T) :
    Inv (s.start tid S c) := by
  have hnone := (h.present tid).idle hf
  have hout (R : Side) : ¬ (s.table R tid).Offers :=
    (h.present tid).outside R fun f hf' => absurd (hf.symm.trans hf') (by simp)
  apply (h.but tid).ofOwn (elsewhere_start s tid S c)
  · intro id c' hc
    have hne : id ≠ s.op tid := fun he => by simp [he ▸ hnone] at hc
    simp [State.start, hne, hc]
  · constructor
    · intro hn
      simp [State.start] at hn
    · intro f' hf'
      obtain rfl : (⟨S, c, threadCount, .insert⟩ : Frame T threadCount) = f' := by
        simpa [State.start] using hf'
      have hop : (s.start tid S c).op tid = s.op tid := rfl
      constructor
      · simp [State.start, State.op]
      · intro hst
        simp [Point.standing] at hst
      · intro _
        exact ⟨hout S, h.unpaired_of_uncalled hnone⟩
      · intro x hx
        simp [Point.remembered] at hx
    · intro R _
      exact hout R
  · apply (h.past tid).congr
    constructor
    · rfl
    · intro m hm
      simp [State.start, State.op, hm]
    · exact fun _ => rfl
    · exact fun _ _ _ _ => .rfl

/-- The owner of an offered slot stands in the table, unpaired. -/
theorem Inv.offered (h : Inv s) {S : Side} (ho : (s.table S i).Offers) :
    ∃ g, s.threads i = some g ∧ g.side = S ∧ g.point.standing = true ∧
      (∃ junk, s.table S i = inserted junk g.call) ∧ ¬ s.Paired (s.op i) := by
  have hg : ∃ g, s.threads i = some g ∧ g.side = S := by
    by_contra hn
    exact (h.present i).outside S (fun g hg hS => hn ⟨g, hg, hS⟩) ho
  obtain ⟨g, hg, rfl⟩ := hg
  have hok := (h.present i).busy g hg
  cases hst : g.point.standing with
  | false => exact absurd ho (hok.withdrawn hst).1
  | true =>
    rcases hok.standing hst with ⟨hin, hnp⟩ | ⟨hfl, _⟩
    · exact ⟨g, hg, rfl, hst, hin, hnp⟩
    · exact absurd hfl ho.not_eliminated

/-- The pair a successful compare-exchange on a partner's slot makes. -/
theorem State.pair_spec {c d : Call T} {S : Side} {x : Slot T} {junk : T}
    (hc : s.calls (s.op tid) = some (S, c)) (hd : s.calls (s.op i) = some (S, d))
    (hx : x = inserted junk d) (hflag : x.flag = partnerOf c) (junk' : T) :
    ∃ p, s.pair S c tid i x.value = { s with pairs := p :: s.pairs } ∧ p.side = S ∧
      (∀ id, p.Includes id ↔ id = s.op tid ∨ id = s.op i) ∧ p.value = exchanged x.value c ∧
      p.value = exchanged (ElimTable.eliminated junk' c).value d ∧
      s.calls p.pusher = some (p.side, .push p.value) ∧ s.calls p.popper = some (p.side, .pop) := by
  subst hx
  cases c with
  | push v =>
    cases d with
    | push w => cases hflag
    | pop =>
      refine ⟨⟨S, s.op tid, s.op i, v⟩, rfl, rfl, fun id => ?_, rfl, rfl, hc, hd⟩
      exact or_congr eq_comm eq_comm
  | pop =>
    cases d with
    | push w =>
      refine ⟨⟨S, s.op i, s.op tid, w⟩, rfl, rfl, fun id => ?_, rfl, rfl, hd, hc⟩
      exact or_comm.trans (or_congr eq_comm eq_comm)
    | pop => cases hflag

/-- The state after a compare-exchange on a partner's slot has succeeded and
before the call returns. -/
def State.eliminate (s : State T threadCount) (tid i : Fin threadCount) (f : Frame T threadCount)
    (x : Slot T) (junk : T) : State T threadCount :=
  (s.pair f.side f.call tid i x.value).store f.side i (ElimTable.eliminated junk f.call)

theorem State.eliminate_eq {p : Pair T threadCount} {x : Slot T} {junk : T}
    (hp : s.pair f.side f.call tid i x.value = { s with pairs := p :: s.pairs }) :
    s.eliminate tid i f x junk = State.store { s with pairs := p :: s.pairs } f.side i
      (ElimTable.eliminated junk f.call) := by
  rw [State.eliminate, hp]

/-- The partner of an elimination is marked. -/
theorem State.Present.marked {p : Pair T threadCount} {y : Slot T} (hi : s.Present i)
    (hg : s.threads i = some g) (hst : g.point.standing = true) (hy : y.flag = .eliminated)
    (hps : p.side = g.side) (hpi : p.Includes (s.op i)) (hpv : p.value = exchanged y.value g.call) :
    (State.store { s with pairs := p :: s.pairs } g.side i y).Present i := by
  have hok := hi.busy g hg
  constructor
  · intro hn
    exact absurd (hg.symm.trans hn) (by simp)
  · intro g' hg'
    obtain rfl := Option.some.inj (hg.symm.trans hg')
    constructor
    · exact hok.called
    · intro _
      right
      rw [State.table_store]
      exact ⟨hy, p, List.mem_cons_self, hpi, hps, hpv.symm⟩
    · intro hs
      exact absurd (hst.symm.trans hs) (by decide)
    · exact hok.partner
  · intro S hS
    rw [State.table_store_side _ fun he => hS g hg he.symm]
    exact hi.outside S hS

/-- A successful compare-exchange makes one new pair, of the two operations. -/
theorem Inv.eliminate (h : Inv s) (hf : s.threads tid = some f) (hw : f.point.standing = false)
    {x : Slot T} (hx : s.table f.side i = x) (hflag : x.flag = partnerOf f.call) (junk : T) :
    InvBut tid (s.eliminate tid i f x junk) ∧
      (∀ S, ¬ ((s.eliminate tid i f x junk).table S tid).Offers) ∧
      ∃ p ∈ (s.eliminate tid i f x junk).pairs, p.Includes (s.op tid) ∧
        p.value = exchanged x.value f.call ∧
        ∀ q ∈ (s.eliminate tid i f x junk).pairs, q.Includes (s.op tid) → q = p := by
  have hok := (h.present tid).busy f hf
  obtain ⟨hno, hnp⟩ := hok.withdrawn hw
  have ho : (s.table f.side i).Offers := by
    rw [hx, Slot.Offers, hflag]
    cases f.call <;> simp [partnerOf]
  obtain ⟨g, hg, hside, hgst, ⟨junk', hin⟩, hinp⟩ := h.offered ho
  have hne : tid ≠ i := fun he => hno (he ▸ ho)
  have hgok := (h.present i).busy g hg
  obtain ⟨p, hpair, hps, hpi, hpv, hpv', hpush, hpop⟩ :=
    s.pair_spec hok.called (hside ▸ hgok.called) (hx.symm.trans hin) hflag junk
  have hmem {q : Pair T threadCount} {id} (hid : id ≠ s.op tid) (hid' : id ≠ s.op i)
      (hq : q.Includes id) : q ∈ p :: s.pairs ↔ q ∈ s.pairs := by
    rw [List.mem_cons, or_iff_right]
    rintro rfl
    exact ((hpi id).mp hq).elim hid hid'
  rw [State.eliminate_eq hpair]
  refine ⟨?_, ?_, p, List.mem_cons_self, (hpi _).mpr (.inl rfl), hpv, ?_⟩
  · constructor
    · intro k hk
      by_cases hki : k = i
      · subst hki
        rw [← hside]
        exact (h.present k).marked hg hgst (by cases f.call <;> rfl) (hps.trans hside.symm)
          ((hpi _).mpr (.inr rfl)) hpv'
      · have hsame : SamePresent k s (State.store { s with pairs := p :: s.pairs } f.side i
            (ElimTable.eliminated junk f.call)) :=
          ⟨rfl, fun S => State.table_store_ne _ _ _ hki _, rfl, rfl, fun q hq =>
            hmem (fun he => hk (congrArg Prod.fst he)) (fun he => hki (congrArg Prod.fst he)) hq⟩
        exact (h.present k).congr hsame
    · intro k
      have hsame : SamePast k s (State.store { s with pairs := p :: s.pairs } f.side i
          (ElimTable.eliminated junk f.call)) := by
        refine ⟨rfl, fun _ _ => rfl, fun _ => rfl, fun q m hm hq => hmem ?_ ?_ hq⟩ <;>
        · intro he
          obtain ⟨rfl, rfl⟩ := Prod.mk.inj he
          exact lt_irrefl _ hm
      exact (h.past k).congr hsame
    · apply List.Pairwise.cons _ h.distinct
      intro q hq id hpid hqid
      rcases (hpi id).mp hpid with rfl | rfl
      · exact hnp ⟨q, hq, hqid⟩
      · exact hinp ⟨q, hq, hqid⟩
    · intro q hq
      rcases List.mem_cons.mp hq with rfl | hq
      · exact ⟨hpush, hpop⟩
      · exact h.opposite q hq
  · intro S
    rw [State.table_store_ne _ _ _ hne]
    exact h.outside_busy hf hno S
  · intro q hq hqi
    rcases List.mem_cons.mp hq with rfl | hq
    · rfl
    · exact absurd ⟨q, hq, hqi⟩ hnp

/-- The compare-exchange on a partner's slot succeeds. -/
theorem Inv.cas (h : Inv s) (hf : s.threads tid = some f) (hw : f.point.standing = false)
    {x : Slot T} (hx : s.table f.side i = x) (hflag : x.flag = partnerOf f.call) (junk : T) :
    Inv ((s.eliminate tid i f x junk).finish tid (.eliminated (exchanged x.value f.call))) := by
  obtain ⟨hbut, hout, p, hp, hpi, hpv, honly⟩ := h.eliminate hf hw hx hflag junk
  have hop : (s.eliminate tid i f x junk).op tid = s.op tid := by
    unfold State.eliminate State.pair
    cases f.call <;> rfl
  apply hbut.ofOwn (elsewhere_finish _ tid _) (fun _ _ hc => hc)
  · exact .finish (hbut.past tid) _ hout
  · apply (hbut.past tid).finish
    · intro v hv
      cases hv
    · intro v hv
      exact ⟨p, hp, hop ▸ hpi, hpv.trans (Outcome.eliminated.inj hv)⟩
    · intro q hq hqi
      rw [honly q hq (hop ▸ hqi), hpv]

theorem Inv.removeLoad (h : Inv s) (hf : s.threads tid = some f)
    (hst : f.point.standing = true) (hpt : pt.standing = true)
    (hrem : ∀ x, pt.remembered = some x → x.flag = partnerOf f.call) :
    Inv (s.removeLoad tid f pt) := by
  simp only [State.removeLoad]
  split
  case isTrue he => exact h.finishEliminated hf hst he
  case isFalse => exact h.goto hf rfl rfl (hpt.trans hst.symm) hrem

/-- The exchange finds the call in the table, so the test against
`FLAG_INACTIVE` fails. -/
theorem Inv.removeExchange (h : Inv s) (hf : s.threads tid = some f)
    (hst : f.point.standing = true) (hne : (s.table f.side tid).flag ≠ .eliminated) (junk : T)
    (hpt : pt.standing = false)
    (hrem : ∀ x, pt.remembered = some x → x.flag = partnerOf f.call) :
    Inv (s.removeExchange tid f junk pt) := by
  unfold State.removeExchange
  rcases ((h.present tid).busy f hf).standing hst with ⟨⟨junk', hin⟩, _⟩ | ⟨hfl, _⟩
  · have hni : (s.table f.side tid).flag ≠ .inactive := by
      rw [hin]
      cases f.call <;> simp [inserted]
    rw [if_neg hni]
    exact h.withdraw hf hst hne junk hpt hrem
  · exact absurd hfl hne

/-- The random numbers are no part of the invariant. -/
theorem Inv.rand (h : Inv s) (r : Side → Fin threadCount → UInt32) : Inv { s with rand := r } where
  present k := by
    have hsame : SamePresent k s { s with rand := r } :=
      ⟨rfl, fun _ => rfl, rfl, rfl, fun _ _ => .rfl⟩
    exact (h.present k).congr hsame
  past k := by
    have hsame : SamePast k s { s with rand := r } :=
      ⟨rfl, fun _ _ => rfl, fun _ => rfl, fun _ _ _ _ => .rfl⟩
    exact (h.past k).congr hsame
  distinct := h.distinct
  opposite := h.opposite

theorem Inv.callStep [DecidableEq T] (h : Inv s) (c : Choice T) (hf : s.threads tid = some f)
    (hin : InTime (tid, c) s) : Inv (callStep c tid f s) := by
  have hpartner := ((h.present tid).busy f hf).partner
  have htime := hin f hf
  obtain ⟨side, call, count, point⟩ := f
  cases point with
  | insert => exact h.insert hf rfl c.junk rfl rfl
  | removeLoad => exact h.removeLoad hf rfl rfl (by simp [Point.remembered])
  | removeExchange =>
    exact h.removeExchange hf rfl (htime rfl) c.junk rfl (by simp [Point.remembered])
  | attempt =>
    rw [ElimTable.callStep]
    cases c.attempt with
    | none => exact h.goto hf rfl rfl rfl (by simp [Point.remembered])
    | some v => exact h.finishDirect hf rfl v
  | insertAgain => exact h.insert hf rfl c.junk rfl rfl
  | scanStart =>
    exact (h.rand _).goto hf rfl rfl rfl (by simp [Point.remembered])
  | scan todo =>
    cases todo with
    | nil => exact h.goto hf rfl rfl rfl (by simp [Point.remembered])
    | cons i todo =>
      simp only [ElimTable.callStep]
      split
      case isTrue he =>
        have hrem : ∀ x, some (s.table side i) = some x → x.flag = partnerOf call := by
          rintro x ⟨⟩
          exact he
        exact h.goto hf rfl rfl rfl hrem
      case isFalse => exact h.goto hf rfl rfl rfl (by simp [Point.remembered])
  | scanRemoveLoad i x todo => exact h.removeLoad hf rfl rfl hpartner
  | scanRemoveExchange i x todo =>
    exact h.removeExchange hf rfl (htime rfl) c.junk rfl hpartner
  | scanCas i x todo =>
    simp only [ElimTable.callStep]
    split
    case isTrue he => exact h.cas hf rfl he (hpartner x rfl) c.junk
    case isFalse => exact h.goto hf rfl rfl rfl (by simp [Point.remembered])
  | scanInsert i todo => exact h.insert hf rfl c.junk rfl rfl

theorem run_inv [DecidableEq T] (h : (machine threadCount T).Run InTime s) : Inv s := by
  apply h.invariant (fun _ => Inv.init)
  rintro ⟨tid, c⟩ s s' _ hinv hin hs
  simp only [machine, step] at hs
  cases hf : s.threads tid with
  | none =>
    rw [hf] at hs
    exact Option.some.inj hs ▸ hinv.start hf c.call.1 c.call.2
  | some f =>
    rw [hf] at hs
    exact Option.some.inj hs ▸ hinv.callStep c hf hin

/-- In every run in which no exchange of `removePush` or `removePop` finds the
slot marked, a call that withdrew is in no elimination, every call returns either
by its attempt or by exactly one elimination with a call of the opposite kind on
the same side and the same value, and a thread offers nothing outside its calls. -/
theorem elimination_hands_over_once [DecidableEq T]
    (h : (machine threadCount T).Run InTime s) : s.ExactlyOnce :=
  (run_inv h).exactlyOnce

/-- `ElimTable(2)`, with words of value 0. -/
def start : State ℕ 2 where
  table _ _ := ⟨0, .inactive⟩
  rand _ _ := 0
  threads _ := none
  serial _ := 0
  calls _ := none
  outcomes _ := none
  pairs := []

theorem start_init : Init start :=
  ⟨fun _ _ => rfl, fun _ => rfl, fun _ => rfl, fun _ => rfl, fun _ => rfl, rfl⟩

/-- The next `k` steps of a thread calling `left_push(7)` or `left_pop`; its
attempts on the deque succeed or fail. -/
def stepsOf (tid : Fin 2) (call : Call ℕ) (attempt : Option ℕ) (k : ℕ) :
    List (Fin 2 × Choice ℕ) :=
  List.replicate k (tid, ⟨(.left, call), attempt, 0⟩)

theorem push_meets_pop :
    ∃ s, (machine 2 ℕ).Run InTime s ∧ s.outcomes (0, 0) = some (.eliminated 7) ∧
      s.outcomes (1, 0) = some (.eliminated 7) ∧ s.ExactlyOnce := by
  have hexec : ((machine 2 ℕ).exec InTime (stepsOf 0 (.push 7) none 2 ++
      stepsOf 1 .pop none 12 ++ stepsOf 0 (.push 7) none 1) start).map
      (fun s => (s.outcomes (0, 0), s.outcomes (1, 0))) =
      some (some (.eliminated 7), some (.eliminated 7)) := by decide +kernel
  obtain ⟨s, hs, hout⟩ := Option.map_eq_some_iff.mp hexec
  obtain ⟨hpush, hpop⟩ := Prod.mk.inj hout
  have hrun := Machine.Run.exec (.start start_init) hs
  exact ⟨s, hrun, hpush, hpop, elimination_hands_over_once hrun⟩

/-- The partner's compare-exchange falls between the load and the exchange of
`removePush`: the value is returned by the pop and placed in the deque as well. -/
theorem eliminated_push_placed_again :
    ∃ s, (machine 2 ℕ).Reachable s ∧ s.outcomes (1, 0) = some (.eliminated 7) ∧
      s.outcomes (0, 0) = some (.direct 7) ∧ ¬ s.ExactlyOnce := by
  have hexec : ((machine 2 ℕ).exec (fun _ _ => True) (stepsOf 0 (.push 7) none 3 ++
      stepsOf 1 .pop none 12 ++ stepsOf 0 (.push 7) (some 0) 2) start).map
      (fun s => (s.outcomes (1, 0), s.outcomes (0, 0), s.pairs.map Pair.pusher)) =
      some (some (.eliminated 7), some (.direct 7), [(0, 0)]) := by decide +kernel
  obtain ⟨s, hs, hout⟩ := Option.map_eq_some_iff.mp hexec
  simp only [Prod.mk.injEq] at hout
  obtain ⟨hpop, hpush, hpairs⟩ := hout
  refine ⟨s, Machine.Run.exec (.start start_init) hs, hpop, hpush, fun h => ?_⟩
  obtain ⟨p, hp, hpusher⟩ := List.mem_map.mp (hpairs ▸ List.mem_cons_self)
  exact (h.direct _ _ hpush).1 ⟨p, hp, .inl hpusher⟩

end UnboundedDeque.ElimTable
