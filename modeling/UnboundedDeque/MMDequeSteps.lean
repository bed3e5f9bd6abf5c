import UnboundedDeque.MMDequeActions

/-!
# The steps of a call

What a call knows after each of its steps, and the effect of the step on the deque.
-/
namespace UnboundedDeque.MMDeque
open HazardTracker

variable {T : Type*} {n : ℕ} {m m' : Memory T n} {l l' seg : List Node} {tid : Fin n} {a : Anchor}
  {S : Side} {x y node : Node} {prev : Option Node} {c : Choice T} {call : Call T} {h : Helper}
  {k : Exit} {pt : Point T} {p : Option (Point T)} {spurious : Bool}

/-- The effect of a step on the deque: a compare-exchange of the anchor that succeeds. -/
def Point.effect (m : Memory T n) (S : Side) (spurious : Bool) : Point T → Option (Effect T)
  | .casEmpty node a | .casPush node a =>
    if m.anchor = a ∧ spurious = false then some (.add S (m.data node)) else none
  | .casSingle a | .casPop a _ =>
    if m.anchor = a ∧ spurious = false then (a.most S).map fun x => .remove S (m.data x) else none
  | _ => none

/-- A step that changes the deque by its effect and keeps the invariant. -/
structure Sound (m : Memory T n) (l : List Node) (tid : Fin n) (S : Side) (call : Call T)
    (effect : Option (Effect T)) (m' : Memory T n) (l' : List Node) (p : Option (Point T)) :
    Prop where
  shape : m'.Shape l'
  later : Later tid m l m' l'
  changes : Changes effect (l.map m.data) (l'.map m'.data)
  facts : ∀ q, p = some q → q.Facts m' l' tid S call

theorem sound_same (hm : m.Shape l) (hf : pt.Facts m l tid S call) :
    Sound m l tid S call none m l (some pt) where
  shape := hm
  later := .refl tid m l
  changes := rfl
  facts _ hq := Option.some.inj hq ▸ hf

theorem sound_reserve {slot : ℕ} {r : Option Node} (hm : m.Shape l) (hs : slot < 3)
    (hf : pt.Facts (m.reserve r slot tid) l tid S call) :
    Sound m l tid S call none (m.reserve r slot tid) l (some pt) where
  shape := hm.reserve
  later := later_reserve hs
  changes := rfl
  facts _ hq := Option.some.inj hq ▸ hf

section Private

theorem map_data (hd : ∀ x ∈ l, m'.data x = m.data x) : l.map m'.data = l.map m.data :=
  List.map_congr_left hd

theorem sound_alloc (hm : m.Shape l) (hf : m.life c.node = .free) :
    Sound m l tid S call none (m.alloc tid c) l (some (.store c.node)) where
  shape := hm.alloc hf
  later := later_alloc hf
  changes := by
    refine map_data fun x hx => Function.update_of_ne ?_ _ _
    rintro rfl
    exact (hm.past hx).ne_free hf
  facts q hq := by
    cases hq
    exact Function.update_self _ _ _

theorem sound_store {t : T} (hm : m.Shape l) (hf : m.life node = .owned tid) :
    Sound m l tid S (.push t) none (m.store node t) l (some (.pushLoad node)) where
  shape := hm.store
  later := later_store hf
  changes := by
    refine map_data fun x hx => Function.update_of_ne ?_ _ _
    rintro rfl
    exact (hm.past hx).ne_owned hf
  facts q hq := by
    cases hq
    have hdata : (m.store node t).data node = t := Function.update_self _ _ _
    exact ⟨hf, by rw [hdata]⟩

theorem scan_facts {b : Bool} {data : T} (hc : call = .pop) :
    (if b = true then .scan data else .clear 0 data : Point T).Facts m l tid S call := by
  split_ifs
  · exact hc
  · exact ⟨hc, by decide⟩

end Private

section Loads

theorem Exit.Facts.point (hk : k.Facts m tid call) : k.point.Facts m l tid S call := by
  cases k with
  | pushed => trivial
  | push node => exact hk
  | pop => exact hk

theorem stabilize_facts (hk : k.Facts m tid call) :
    (stabilize a k : Point T).Facts m l tid S call := by
  unfold stabilize
  cases hs : a.status with
  | stable => exact hk.point
  | push R => exact ⟨hk, hs⟩

theorem pushLoaded_facts (hp : m.Prepared tid call node) :
    (pushLoaded S node a : Point T).Facts m l tid S call := by
  unfold pushLoaded
  split_ifs with hnone hst
  · exact ⟨hp, hnone⟩
  · exact ⟨hp, hnone, hst⟩
  · exact stabilize_facts (k := .push node) hp

theorem popLoaded_facts (hc : call = .pop) :
    (popLoaded S a : Point T).Facts m l tid S call := by
  unfold popLoaded
  split_ifs with hnone hsame hst
  · trivial
  · exact ⟨hc, hsame, hnone⟩
  · exact ⟨hc, hsame, hst⟩
  · exact stabilize_facts (k := .pop) hc

end Loads

section Validate

/-- An anchor that is found unchanged after both its ends have been reserved. -/
theorem Memory.Shape.validated (hm : m.Shape l) (hlen : 2 ≤ l.length) (ha : a = m.anchor)
    (hr : ∀ R, m.Reserved tid a R) : m.Validated l tid a l where
  nodup := hm.rep.nodup
  length := hlen
  held R := by
    have hne : l ≠ [] := List.ne_nil_of_length_pos (by omega)
    obtain ⟨x, hx⟩ := R.first_ne_none hne
    have hmost : a.most R = some x := by rw [ha, hm.rep.ends, hx]
    exact ⟨x, hmost, hx, hm.held (Side.mem_of_first hx) (slotOf_lt R) ((hr R).trans hmost)⟩
  within _ := List.infix_refl l
  status _ R hst _ := by rw [ha, hst]

/-- The pointer read from an end names its neighbour, unless that end's neighbour is being
linked. -/
theorem Memory.Validated.beside (hm : m.Shape l) (hv : m.Validated l tid a seg)
    (hst : a.status ≠ .push S.opposite) (hx : a.most S = some x) :
    Beside l seg a S (m.link S.opposite x).ptr := by
  intro hb
  have hi := hv.within hb
  obtain ⟨y, hy, hf, -⟩ := hv.held S
  obtain rfl : x = y := Option.some.inj (hx.symm.trans hy)
  obtain ⟨p, hp⟩ := Side.exists_next hf hv.length
  refine ⟨p, x, ?_, hx, hp⟩
  rcases hm.rep.linked _ _ _ (Side.next_opposite.mpr (hp.mono hi)) with hlink | ⟨hs, hfirst⟩
  · exact hlink
  · -- the neighbour would be the node pushed last, which was not there yet
    have hfp : S.opposite.first seg = some p :=
      Side.first_of_infix hi hm.rep.nodup hfirst hp.mem_source
    obtain ⟨z, hz, hfz, -⟩ := hv.held S.opposite
    have hmost : m.anchor.most S.opposite = a.most S.opposite := by
      rw [hm.rep.ends, hfirst, ← hfp, hfz, hz]
    exact absurd (hv.status hb S.opposite hs hmost) hst

/-- With the anchor unchanged, the nodes between its ends are all of them. -/
theorem Memory.Validated.eq (hm : m.Shape l) (hv : m.Validated l tid a seg)
    (ha : m.anchor = a) : seg = l := by
  have hfirst (R : Side) : R.first seg = R.first l := by
    obtain ⟨x, hx, hf, -⟩ := hv.held R
    rw [hf, ← hx, ← ha, hm.rep.ends]
  exact Side.eq_of_infix (hv.within (hm.both ha)) hm.rep.nodup (hfirst .left) (hfirst .right)

end Validate

section Effects

theorem sound_push (hm : m.Shape l) (hp : m.Prepared tid call node)
    (hs : m.anchor.status = .stable) (ha : ∀ R, a.status = .push R → a.most R = some node)
    (hrep : ((m.setAnchor a).setLife node .queued).Represents (S.add node l))
    (hf : pt.Facts ((m.setAnchor a).setLife node .queued) (S.add node l) tid S call) :
    Sound m l tid S call (some (.add S (m.data node)))
      ((m.setAnchor a).setLife node .queued) (S.add node l) (some pt) where
  shape := hm.push hp.owned hrep
  later := later_push hp.owned hs ha
  changes := Side.map_add _ _ _ _
  facts _ hq := Option.some.inj hq ▸ hf

theorem sound_casEmpty (hm : m.Shape l) (hp : m.Prepared tid call node)
    (hnone : m.anchor.most S = none) :
    Sound m l tid S call (some (.add S (m.data node)))
      ((m.setAnchor ⟨some node, some node, m.anchor.status⟩).setLife node .queued)
      (S.add node l) (some (.done .pushed)) := by
  obtain rfl : l = [] := hm.rep.nil_iff.mpr hnone
  have hs : m.anchor.status = .stable := hm.rep.stable_of_short (by simp)
  refine sound_push hm hp hs (fun R hR => ?_) ?_ trivial
  · cases R <;> rfl
  · rw [Side.add_nil]
    exact hm.rep.push_empty

theorem sound_casPush (hm : m.Shape l) (hp : m.Prepared tid call node)
    (hne : m.anchor.most S ≠ none) (hs : m.anchor.status = .stable)
    (hlink : (m.link S.opposite node).ptr = m.anchor.most S) :
    Sound m l tid S call (some (.add S (m.data node)))
      ((m.setAnchor (m.anchor.set S (some node) (.push S))).setLife node .queued)
      (S.add node l) (some (.stabLeft ⟨S, m.anchor.set S (some node) (.push S), .pushed⟩)) := by
  have hnode : node ∉ l := by
    intro hmem
    exact (hm.past hmem).ne_owned hp.owned
  refine sound_push hm hp hs (fun R hR => ?_) (hm.rep.push hs hne hnode hlink) ?_
  · obtain rfl : S = R := by simpa using hR
    exact most_set_self
  · exact ⟨⟨_, hp.data⟩, status_set⟩

theorem sound_pop (hm : m.Shape (S.add x l)) (hs : m.anchor.status = .stable)
    (ha : ∀ R, a.most R = R.first l) (hst : a.status = .stable)
    (hf : pt.Facts ((m.setAnchor a).setLife x (.popped tid)) l tid S call) :
    Sound m (S.add x l) tid S call (some (.remove S (m.data x)))
      ((m.setAnchor a).setLife x (.popped tid)) l (some pt) where
  shape := hm.pop (hm.rep.pop hs ha hst)
  later := later_pop hm hs hst
  changes := Side.map_add _ _ _ _
  facts _ hq := Option.some.inj hq ▸ hf

theorem sound_casSingle (hm : m.Shape l) (hc : call = .pop) (hsame : m.anchor.left = m.anchor.right)
    (hx : m.anchor.most S = some x) :
    Sound m l tid S call (some (.remove S (m.data x)))
      ((m.setAnchor ⟨none, none, m.anchor.status⟩).setLife x (.popped tid)) []
      (some (.read m.anchor)) := by
  have hl : l = S.add x [] := by rw [hm.rep.singleton hsame hx, Side.add_nil]
  have hs : m.anchor.status = .stable := hm.rep.stable_of_short (by simp [hl])
  rw [hl] at hm ⊢
  refine sound_pop hm hs (fun R => ?_) hs ⟨hc, x, hx, Function.update_self _ _ _⟩
  cases R <;> rfl

theorem sound_casPop (hm : m.Shape l) (hc : call = .pop) (hst : m.anchor.status = .stable)
    (hv : m.Validated l tid m.anchor seg) (hb : Beside l seg m.anchor S prev)
    (hx : m.anchor.most S = some x) :
    Sound m l tid S call (some (.remove S (m.data x)))
      ((m.setAnchor (m.anchor.set S prev m.anchor.status)).setLife x (.popped tid)) (S.rest l)
      (some (.read m.anchor)) := by
  obtain rfl := hv.eq hm rfl
  obtain ⟨p, y, rfl, hy, hn⟩ := hb (hm.both rfl)
  obtain rfl : x = y := Option.some.inj (hx.symm.trans hy)
  have hl : seg = S.add x (S.rest seg) := Side.eq_add_of_first ((hm.rep.ends S).symm.trans hx)
  generalize S.rest seg = r at hl ⊢
  subst hl
  have hnodup := Side.nodup_add.mp hm.rep.nodup
  have hfirst : S.first r = some p := by
    rcases Side.next_add.mp hn with hn | ⟨-, hf⟩
    · exact absurd hn.mem_target hnodup.1
    · exact hf
  have hr : r ≠ [] := by
    rintro rfl
    simp at hfirst
  refine sound_pop hm hst (fun R => ?_) (status_set.trans hst) ⟨hc, x, hx, Function.update_self _ _ _⟩
  rcases Side.eq_or_eq_opposite S R with rfl | rfl
  · rw [most_set_self, hfirst]
  · rw [most_set_opposite, hm.rep.ends, Side.first_opposite_add S x hr]

end Effects

section Helping

/-- What a helper knows in a memory that differs in its own steps' words only. -/
theorem Memory.Validated.own (hl : Later tid m l m' l)
    (hs : ∀ R, m'.haz.slots (index 3 tid (slotOf R)) = m.haz.slots (index 3 tid (slotOf R)))
    (hv : ∃ seg, m.Validated l tid a seg ∧ Beside l seg a S prev) :
    ∃ seg, m'.Validated l tid a seg ∧ Beside l seg a S prev := by
  obtain ⟨seg, hv, hb⟩ := hv
  exact ⟨seg, hv.later hl hs, hb.later hl hv⟩

theorem Exit.Facts.congr (hk : k.Facts m tid call) (hlife : m'.life = m.life)
    (hdata : m'.data = m.data) : k.Facts m' tid call := by
  cases k with
  | pushed => exact hk
  | push node => exact ⟨by rw [hlife]; exact hk.owned, by rw [hdata]; exact hk.data⟩
  | pop => exact hk

theorem Exit.Facts.reserve {slot : ℕ} {r : Option Node} (hk : k.Facts m tid call) :
    k.Facts (m.reserve r slot tid) tid call :=
  hk.congr rfl rfl

theorem Memory.Reserved.reserve {slot : ℕ} {r : Option Node} {R : Side} (hr : m.Reserved tid a R)
    (hs : slot < 3) (hne : slotOf R ≠ slot) : (m.reserve r slot tid).Reserved tid a R :=
  (slots_reserve_of_ne (slotOf_lt R) hs hne).trans hr

theorem reserved_both {r : Option Node} (hl : m.Reserved tid a .left) (hr : r = a.right) (R : Side) :
    (m.reserve r 1 tid).Reserved tid a R := by
  cases R with
  | left => exact hl.reserve (by decide) (by decide)
  | right => exact slots_reserve.trans hr

/-- The helper's second look at the anchor protects the neighbour. -/
theorem Memory.Shape.helps (hm : m.Shape l) (hs : h.a.status = .push h.side)
    (hv : ∃ seg, m.Validated l tid h.a seg ∧ Beside l seg h.a h.side prev)
    (hslot : m.haz.slots (index 3 tid 2) = prev) (ha : h.a = m.anchor) : m.Helps l tid h prev := by
  refine ⟨hs, hv, ?_⟩
  obtain ⟨seg, hv, hb⟩ := hv
  obtain ⟨p, x, rfl, -, hn⟩ := hb (hm.both ha.symm)
  rw [hv.eq hm ha.symm] at hn
  exact ⟨p, rfl, hm.held hn.mem_source (by decide) hslot⟩

/-- What a helper knows after its compare-exchange of the link. -/
theorem sound_stabCas (hm : m.Shape l) (hk : h.exit.Facts m tid call) (hh : m.Helps l tid h (some x))
    (ha : m.anchor = h.a) :
    Sound m l tid S call none
      (m.setLink h.side x ⟨h.a.most h.side, (m.link h.side x).sn + 1⟩) l
      (some (.stabSettle h (some x) : Point T)) := by
  obtain ⟨y, hy, hn⟩ := hh.next rfl (hm.both ha)
  rw [hy]
  have hlater := later_setLink tid hm hn
  refine ⟨hm.setLink hn, hlater, rfl, fun q hq => ?_⟩
  obtain rfl := Option.some.inj hq
  obtain ⟨p, hp, hheld⟩ := hh.held
  refine ⟨hk.congr rfl rfl, ⟨hh.status, Memory.Validated.own hlater (fun _ => rfl) hh.knows, p, hp,
    hlater.held_keep rfl hheld⟩, fun p hp _ => ?_⟩
  obtain rfl := Option.some.inj hp
  rw [setLink_self, hy]

theorem sound_stabSettle (hm : m.Shape l) (hk : h.exit.Facts m tid call)
    (hh : m.Helps l tid h prev) (hlink : ∀ p, prev = some p → Both l h.a →
      (m.link h.side p).ptr = h.a.most h.side) (ha : m.anchor = h.a) :
    Sound m l tid S call none (m.setAnchor { h.a with status := .stable }) l
      (some (.stabClear h 0 : Point T)) := by
  obtain ⟨p, hp, -⟩ := hh.held
  obtain ⟨y, hy, hn⟩ := hh.next hp (hm.both ha)
  have hptr := (hlink p hp (hm.both ha)).trans hy
  have hs := hh.status
  rw [← ha] at hs hy ⊢
  refine ⟨hm.settle hs hn hy hptr, later_settle hs hn hy hptr, rfl, fun q hq => ?_⟩
  obtain rfl := Option.some.inj hq
  exact ⟨hk.congr rfl rfl, by decide⟩

end Helping

section Points

theorem casEmpty_sound (hm : m.Shape l) (hf : (Point.casEmpty node a).Facts m l tid S call)
    (hn : next m c tid S call (.casEmpty node a) = some (m', p)) :
    ∃ l', Sound m l tid S call ((Point.casEmpty node a).effect m S c.spurious) m' l' p := by
  obtain ⟨hp, hnone⟩ := hf
  simp only [next] at hn
  simp only [Point.effect]
  split_ifs at hn ⊢ with hcas
  · cases hn
    obtain ⟨rfl, -⟩ := hcas
    exact ⟨_, sound_casEmpty hm hp hnone⟩
  · cases hn
    exact ⟨l, sound_same hm hp⟩

theorem init_sound (hm : m.Shape l) (hf : (Point.init node a).Facts m l tid S call)
    (hn : next m c tid S call (.init node a) = some (m', p)) : Sound m l tid S call none m' l p := by
  obtain ⟨hp, hne, hst⟩ := hf
  cases hn
  refine ⟨hm.init hp.owned, later_init hp.owned, rfl, fun q hq => ?_⟩
  cases hq
  exact ⟨⟨hp.owned, hp.data⟩, hne, hst, by rw [setLink_self]⟩

theorem casPush_sound (hm : m.Shape l) (hf : (Point.casPush node a).Facts m l tid S call)
    (hn : next m c tid S call (.casPush node a) = some (m', p)) :
    ∃ l', Sound m l tid S call ((Point.casPush node a).effect m S c.spurious) m' l' p := by
  obtain ⟨hp, hne, hst, hlink⟩ := hf
  simp only [next] at hn
  simp only [Point.effect]
  split_ifs at hn ⊢ with hcas
  · cases hn
    obtain ⟨rfl, -⟩ := hcas
    exact ⟨_, sound_casPush hm hp hne hst hlink⟩
  · cases hn
    exact ⟨l, sound_same hm hp⟩

theorem casSingle_sound (hm : m.Shape l) (hf : (Point.casSingle a).Facts m l tid S call)
    (hn : next m c tid S call (.casSingle a) = some (m', p)) :
    ∃ l', Sound m l tid S call ((Point.casSingle a : Point T).effect m S c.spurious) m' l' p := by
  obtain ⟨hc, hsame, hne⟩ := hf
  obtain ⟨x, hx⟩ := Option.ne_none_iff_exists'.mp hne
  simp only [next, hx] at hn
  simp only [Point.effect, hx, Option.map_some]
  split_ifs at hn ⊢ with hcas
  · cases hn
    obtain ⟨rfl, -⟩ := hcas
    exact ⟨_, sound_casSingle hm hc hsame hx⟩
  · cases hn
    exact ⟨l, sound_same hm hc⟩

theorem validate_sound (hm : m.Shape l) (hf : (Point.validate a).Facts m l tid S call)
    (hn : next m c tid S call (.validate a) = some (m', p)) :
    Sound m l tid S call none m' l p := by
  obtain ⟨hc, hne, hst, hr⟩ := hf
  simp only [next] at hn
  cases hn
  refine sound_same hm ?_
  split_ifs with ha
  · exact ⟨hc, hst, l, hm.validated (hm.rep.two_le (ha ▸ hne)) ha hr⟩
  · exact hc

theorem casPop_sound (hm : m.Shape l) (hf : (Point.casPop a prev).Facts m l tid S call)
    (hn : next m c tid S call (.casPop a prev) = some (m', p)) :
    ∃ l', Sound m l tid S call ((Point.casPop a prev : Point T).effect m S c.spurious) m' l' p := by
  obtain ⟨hc, hst, seg, hv, hb⟩ := hf
  obtain ⟨x, hx, -⟩ := hv.held S
  simp only [next, hx] at hn
  simp only [Point.effect, hx, Option.map_some]
  split_ifs at hn ⊢ with hcas
  · cases hn
    obtain ⟨rfl, -⟩ := hcas
    exact ⟨_, sound_casPop hm hc hst hv hb hx⟩
  · cases hn
    exact ⟨l, sound_same hm hc⟩

theorem retire_sound (hm : m.Shape l) {data : T} (hf : (Point.retire a data).Facts m l tid S call)
    (hn : next m c tid S call (.retire a data) = some (m', p)) :
    Sound m l tid S call none m' l p := by
  obtain ⟨hc, x, hx, hlife⟩ := hf
  simp only [next, hx, Option.map_some] at hn
  cases hn
  refine ⟨hm.retire hlife, later_retire hm hlife, rfl, fun q hq => ?_⟩
  cases hq
  exact scan_facts hc

theorem stabValidate_sound (hm : m.Shape l) (hf : (Point.stabValidate h).Facts m l tid S call)
    (hn : next m c tid S call (.stabValidate h) = some (m', p)) :
    Sound m l tid S call none m' l p := by
  obtain ⟨hk, hst, hr⟩ := hf
  simp only [next] at hn
  cases hn
  refine sound_same hm ?_
  split_ifs with ha
  · exact ⟨hk, hst, l, hm.validated (hm.rep.pushed h.side (ha ▸ hst)) ha hr⟩
  · exact hk.point

theorem stabPrev_sound (hm : m.Shape l) (hf : (Point.stabPrev h).Facts m l tid S call)
    (hn : next m c tid S call (.stabPrev h) = some (m', p)) :
    Sound m l tid S call none m' l p := by
  obtain ⟨hk, hst, seg, hv⟩ := hf
  obtain ⟨x, hx, -⟩ := hv.held h.side
  simp only [next, hx, Option.map_some] at hn
  cases hn
  refine sound_same hm ⟨hk, hst, seg, hv, hv.beside hm ?_ hx⟩
  rw [hst]
  intro hs
  exact h.side.opposite_ne (Status.push.inj hs).symm

theorem stabReserve_sound (hm : m.Shape l) (hf : (Point.stabReserve h prev).Facts m l tid S call)
    (hn : next m c tid S call (.stabReserve h prev) = some (m', p)) :
    Sound m l tid S call none m' l p := by
  obtain ⟨hk, hst, hv⟩ := hf
  cases hn
  refine sound_reserve hm (by decide) ⟨hk.reserve, hst, ?_, slots_reserve⟩
  refine Memory.Validated.own (later_reserve (by decide)) (fun R => ?_) hv
  exact slots_reserve_of_ne (slotOf_lt R) (by decide) (by cases R <;> decide)

theorem stabRevalidate_sound (hm : m.Shape l)
    (hf : (Point.stabRevalidate h prev).Facts m l tid S call)
    (hn : next m c tid S call (.stabRevalidate h prev) = some (m', p)) :
    Sound m l tid S call none m' l p := by
  obtain ⟨hk, hst, hv, hslot⟩ := hf
  simp only [next] at hn
  cases hn
  refine sound_same hm ?_
  split_ifs with ha
  · exact ⟨hk, hm.helps hst hv hslot ha⟩
  · exact hk.point

theorem stabNext_sound (hm : m.Shape l) (hf : (Point.stabNext h prev).Facts m l tid S call)
    (hn : next m c tid S call (.stabNext h prev) = some (m', p)) :
    Sound m l tid S call none m' l p := by
  obtain ⟨hk, hh⟩ := hf
  obtain ⟨x, rfl, -⟩ := hh.held
  simp only [next, Option.map_some] at hn
  cases hn
  refine sound_same hm ?_
  split_ifs with hlink
  · refine ⟨hk, hh, fun y hy _ => ?_⟩
    cases hy
    exact hlink
  · refine ⟨hk, hh, hlink, fun y hy => ?_⟩
    cases hy
    exact le_rfl

theorem stabCheck_sound (hm : m.Shape l) {prevNext : Link}
    (hf : (Point.stabCheck h prev prevNext).Facts m l tid S call)
    (hn : next m c tid S call (.stabCheck h prev prevNext) = some (m', p)) :
    Sound m l tid S call none m' l p := by
  obtain ⟨hk, hh, hne, hsn⟩ := hf
  simp only [next] at hn
  cases hn
  refine sound_same hm ?_
  split_ifs with ha
  · exact ⟨hk, hh, hne, fun x hx => ⟨hsn x hx, fun _ => ha.symm⟩⟩
  · exact hk.point

theorem stabCas_sound (hm : m.Shape l) {prevNext : Link}
    (hf : (Point.stabCas h prev prevNext).Facts m l tid S call)
    (hn : next m c tid S call (.stabCas h prev prevNext) = some (m', p)) :
    Sound m l tid S call none m' l p := by
  obtain ⟨hk, hh, -, hsn⟩ := hf
  obtain ⟨x, rfl, -⟩ := hh.held
  simp only [next, Option.map_some] at hn
  split_ifs at hn with hlink
  · cases hn
    subst hlink
    exact sound_stabCas hm hk hh ((hsn x rfl).2 rfl)
  · cases hn
    exact sound_same hm hk.point

theorem stabSettle_sound (hm : m.Shape l) (hf : (Point.stabSettle h prev).Facts m l tid S call)
    (hn : next m c tid S call (.stabSettle h prev) = some (m', p)) :
    Sound m l tid S call none m' l p := by
  obtain ⟨hk, hh, hlink⟩ := hf
  simp only [next] at hn
  split_ifs at hn with hcas
  · cases hn
    exact sound_stabSettle hm hk hh hlink hcas.1
  · cases hn
    exact sound_same hm ⟨hk, by decide⟩

end Points

/-- Every step of a call keeps the invariant. -/
theorem next_sound (hm : m.Shape l) (hf : pt.Facts m l tid S call)
    (hn : next m c tid S call pt = some (m', p)) :
    ∃ l', Sound m l tid S call (pt.effect m S c.spurious) m' l' p := by
  cases pt with
  | alloc =>
    simp only [next] at hn
    split_ifs at hn with hfree
    cases hn
    exact ⟨l, sound_alloc hm hfree⟩
  | store node =>
    cases call with
    | push t =>
      cases hn
      exact ⟨l, sound_store hm hf⟩
    | pop => cases hn
  | pushLoad node =>
    cases hn
    exact ⟨l, sound_same hm (pushLoaded_facts hf)⟩
  | casEmpty node a => exact casEmpty_sound hm hf hn
  | init node a => exact ⟨l, init_sound hm hf hn⟩
  | casPush node a => exact casPush_sound hm hf hn
  | popLoad =>
    cases hn
    exact ⟨l, sound_same hm (popLoaded_facts hf)⟩
  | casSingle a => exact casSingle_sound hm hf hn
  | reserveLeft a =>
    cases hn
    obtain ⟨hc, hne, hst⟩ := hf
    exact ⟨l, sound_reserve hm (by decide) ⟨hc, hne, hst, slots_reserve⟩⟩
  | reserveRight a =>
    cases hn
    obtain ⟨hc, hne, hst, hr⟩ := hf
    exact ⟨l, sound_reserve hm (by decide) ⟨hc, hne, hst, reserved_both hr rfl⟩⟩
  | validate a => exact ⟨l, validate_sound hm hf hn⟩
  | neighbor a =>
    obtain ⟨hc, hst, seg, hv⟩ := hf
    obtain ⟨x, hx, -⟩ := hv.held S
    simp only [next, hx, Option.map_some] at hn
    cases hn
    exact ⟨l, sound_same hm ⟨hc, hst, seg, hv, hv.beside hm (by simp [hst]) hx⟩⟩
  | casPop a prev => exact casPop_sound hm hf hn
  | read a =>
    obtain ⟨hc, x, hx, hlife⟩ := hf
    simp only [next, hx, Option.map_some] at hn
    cases hn
    exact ⟨l, sound_same hm ⟨hc, x, hx, hlife⟩⟩
  | retire a data => exact ⟨l, retire_sound hm hf hn⟩
  | scan data =>
    simp only [next] at hn
    cases hn
    refine ⟨l, hm.scan, later_scan hm, rfl, fun q hq => ?_⟩
    cases hq
    exact scan_facts hf
  | clear slot data =>
    obtain ⟨hc, hslot⟩ := hf
    cases hn
    refine ⟨l, sound_reserve hm hslot ?_⟩
    split_ifs with hlt
    · exact ⟨hc, hlt⟩
    · trivial
  | stabLeft h =>
    cases hn
    exact ⟨l, sound_reserve hm (by decide) ⟨hf.1.reserve, hf.2, slots_reserve⟩⟩
  | stabRight h =>
    cases hn
    exact ⟨l, sound_reserve hm (by decide) ⟨hf.1.reserve, hf.2.1, reserved_both hf.2.2 rfl⟩⟩
  | stabValidate h => exact ⟨l, stabValidate_sound hm hf hn⟩
  | stabPrev h => exact ⟨l, stabPrev_sound hm hf hn⟩
  | stabReserve h prev => exact ⟨l, stabReserve_sound hm hf hn⟩
  | stabRevalidate h prev => exact ⟨l, stabRevalidate_sound hm hf hn⟩
  | stabNext h prev => exact ⟨l, stabNext_sound hm hf hn⟩
  | stabCheck h prev prevNext => exact ⟨l, stabCheck_sound hm hf hn⟩
  | stabCas h prev prevNext => exact ⟨l, stabCas_sound hm hf hn⟩
  | stabSettle h prev => exact ⟨l, stabSettle_sound hm hf hn⟩
  | stabClear h slot =>
    obtain ⟨hk, hslot⟩ := hf
    cases hn
    refine ⟨l, sound_reserve hm hslot ?_⟩
    split_ifs with hlt
    · exact ⟨hk.reserve, hlt⟩
    · exact hk.reserve.point
  | done r =>
    cases hn
    exact ⟨l, hm, .refl tid m l, rfl, fun q hq => by cases hq⟩

end UnboundedDeque.MMDeque
