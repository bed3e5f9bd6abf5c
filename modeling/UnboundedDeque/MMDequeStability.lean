import UnboundedDeque.MMDequeInvariant

/-!
# What a call knows stays true

Steps of other threads keep what a call knows at its program point.
-/
namespace UnboundedDeque.MMDeque

variable {T : Type*} {n : ℕ} {m m' : Memory T n} {l l' seg : List Node} {tid q : Fin n}
  {a : Anchor} {S R : Side} {x y node : Node} {prev : Option Node} {call : Call T} {h : Helper}

theorem slotOf_lt (S : Side) : slotOf S < 3 := by
  cases S <;> decide

theorem Later.held_keep (hl : Later tid m l m' l') {slot : ℕ}
    (hs : m'.haz.slots (HazardTracker.index 3 q slot) = m.haz.slots (HazardTracker.index 3 q slot))
    (hx : m.Held q slot x) : m'.Held q slot x :=
  hl.held q slot x (hs.trans hx.guarded.holds) hx

/-- Both ends of a validated anchor were in the deque if they are. -/
theorem Later.both (hl : Later tid m l m' l') (hv : m.Validated l q a seg) (hb : Both l' a) :
    Both l a := by
  intro S x hx
  obtain ⟨y, hy, -, hh⟩ := hv.held S
  obtain rfl : y = x := Option.some.inj (hy.symm.trans hx)
  exact hl.gone y hh.past (hb S y hy)

theorem Memory.Validated.later (hl : Later tid m l m' l')
    (hs : ∀ S, m'.haz.slots (HazardTracker.index 3 q (slotOf S)) =
      m.haz.slots (HazardTracker.index 3 q (slotOf S)))
    (hv : m.Validated l q a seg) : m'.Validated l' q a seg where
  nodup := hv.nodup
  length := hv.length
  held S := by
    obtain ⟨x, hx, hf, hh⟩ := hv.held S
    exact ⟨x, hx, hf, hl.held_keep (hs S) hh⟩
  within hb := by
    obtain ⟨x, hx, hfx, hhx⟩ := hv.held .left
    obtain ⟨y, hy, hfy, hhy⟩ := hv.held .right
    exact hl.within seg x y hfx hfy hhx.past hhy.past (hb .left x hx) (hb .right y hy)
      (hv.within (hl.both hv hb))
  status hb S hst hm := by
    obtain ⟨x, hx, -, hh⟩ := hv.held S
    obtain ⟨hst, hm⟩ := hl.status S x hh.past hst (hm.trans hx)
    exact hv.status (hl.both hv hb) S hst (hm.trans hx.symm)

theorem Beside.later (hl : Later tid m l m' l') (hv : m.Validated l q a seg)
    (hb : Beside l seg a S prev) : Beside l' seg a S prev :=
  fun h => hb (hl.both hv h)

theorem Memory.Prepared.later (hl : Later tid m l m' l') (hq : q ≠ tid)
    (hp : m.Prepared q call node) : m'.Prepared q call node := by
  obtain ⟨hlife, hdata, -⟩ := hl.owned q node hq hp.owned
  exact ⟨hlife, by rw [hdata]; exact hp.data⟩

theorem Exit.Facts.later (hl : Later tid m l m' l') (hq : q ≠ tid) {k : Exit}
    (hk : k.Facts m q call) : k.Facts m' q call := by
  cases k with
  | pushed => exact hk
  | push node => exact Memory.Prepared.later hl hq hk
  | pop => exact hk

theorem Memory.Reserved.later (hl : Later tid m l m' l') (hq : q ≠ tid)
    (hr : m.Reserved q a S) : m'.Reserved q a S :=
  (hl.slots q (slotOf S) hq (slotOf_lt S)).trans hr

theorem Memory.Helps.later (hl : Later tid m l m' l') (hq : q ≠ tid)
    (hh : m.Helps l q h prev) : m'.Helps l' q h prev := by
  obtain ⟨seg, hv, hb⟩ := hh.knows
  obtain ⟨p, hp, hheld⟩ := hh.held
  exact ⟨hh.status, ⟨seg, hv.later hl fun S => hl.slots q _ hq (slotOf_lt S), hb.later hl hv⟩,
    p, hp, hl.held_keep (hl.slots q 2 hq (by decide)) hheld⟩

/-- The neighbour a helper has read is the one in the deque as long as both ends are. -/
theorem Memory.Helps.next (hh : m.Helps l q h prev) {p : Node} (hp : prev = some p)
    (hb : Both l h.a) : ∃ x, h.a.most h.side = some x ∧ h.side.Next l p x := by
  obtain ⟨seg, hv, hbeside⟩ := hh.knows
  obtain ⟨r, x, hr, hx, hn⟩ := hbeside hb
  obtain rfl : p = r := Option.some.inj (hp.symm.trans hr)
  exact ⟨x, hx, hn.mono (hv.within hb)⟩

theorem Memory.Shape.both (hm : m.Shape l) (ha : m.anchor = a) : Both l a := by
  intro S x hx
  rw [← ha, hm.rep.ends S] at hx
  exact Side.mem_of_first hx

/-- A link the helper has found to be right stays so while both ends are in the deque. -/
theorem Memory.Helps.link_later (hm' : m'.Shape l') (hl : Later tid m l m' l') (hq : q ≠ tid)
    (hh : m.Helps l q h prev) {p : Node} (hp : prev = some p)
    (hlink : Both l h.a → (m.link h.side p).ptr = h.a.most h.side) (hb : Both l' h.a) :
    (m'.link h.side p).ptr = h.a.most h.side := by
  obtain ⟨seg, hv, -⟩ := hh.knows
  obtain ⟨r, hr, hheld⟩ := hh.held
  obtain rfl : p = r := Option.some.inj (hp.symm.trans hr)
  obtain ⟨x, hx, hn⟩ := (hh.later hl hq).next hp hb
  rcases hl.link h.side p hheld.past with he | ⟨-, y, hy, hny⟩
  · rw [he]
    exact hlink (hl.both hv hb)
  · rw [hy, hx, hny.unique hm'.rep.nodup hn]

/-- While the link is missing, the anchor stays the one the helper works for. -/
theorem Memory.Helps.anchor_later (hm : m.Shape l) (hl : Later tid m l m' l')
    (hh : m.Helps l q h prev) {p : Node} (hp : prev = some p) (ha : m.anchor = h.a)
    (hlink : (m.link h.side p).ptr ≠ h.a.most h.side) : m'.anchor = h.a := by
  obtain ⟨x, hx, hn⟩ := hh.next hp (hm.both ha)
  rcases hl.settled h.side x (ha ▸ hh.status) (ha ▸ hx) with he | ⟨r, hr, hptr⟩
  · exact he.trans ha
  · rw [hn.unique_source hm.rep.nodup hr, hptr, hx] at hlink
    exact absurd rfl hlink

theorem Point.Facts.later (hm : m.Shape l) (hm' : m'.Shape l') (hl : Later tid m l m' l')
    (hq : q ≠ tid) {pt : Point T} (hf : pt.Facts m l q S call) : pt.Facts m' l' q S call := by
  have hval {a : Anchor} {seg : List Node} (hv : m.Validated l q a seg) :
      m'.Validated l' q a seg := hv.later hl fun R => hl.slots q _ hq (slotOf_lt R)
  cases pt with
  | alloc | popLoad | casSingle | reserveLeft | scan | clear | done => exact hf
  | store node => exact (hl.owned q node hq hf).1
  | pushLoad node => exact Memory.Prepared.later hl hq hf
  | casEmpty node a => exact ⟨hf.1.later hl hq, hf.2⟩
  | init node a => exact ⟨hf.1.later hl hq, hf.2⟩
  | casPush node a =>
    obtain ⟨hp, hne, hst, hlink⟩ := hf
    obtain ⟨-, -, hkeep⟩ := hl.owned q node hq hp.owned
    exact ⟨hp.later hl hq, hne, hst, by rw [hkeep]; exact hlink⟩
  | reserveRight a =>
    obtain ⟨hc, hne, hst, hr⟩ := hf
    exact ⟨hc, hne, hst, hr.later hl hq⟩
  | validate a =>
    obtain ⟨hc, hne, hst, hr⟩ := hf
    exact ⟨hc, hne, hst, fun R => (hr R).later hl hq⟩
  | neighbor a =>
    obtain ⟨hc, hst, seg, hv⟩ := hf
    exact ⟨hc, hst, seg, hval hv⟩
  | casPop a prev =>
    obtain ⟨hc, hst, seg, hv, hb⟩ := hf
    exact ⟨hc, hst, seg, hval hv, hb.later hl hv⟩
  | read a =>
    obtain ⟨hc, x, hx, hlife⟩ := hf
    exact ⟨hc, x, hx, (hl.popped q x hq hlife).1⟩
  | retire a data =>
    obtain ⟨hc, x, hx, hlife⟩ := hf
    exact ⟨hc, x, hx, (hl.popped q x hq hlife).1⟩
  | stabLeft h => exact ⟨hf.1.later hl hq, hf.2⟩
  | stabRight h => exact ⟨hf.1.later hl hq, hf.2.1, hf.2.2.later hl hq⟩
  | stabValidate h => exact ⟨hf.1.later hl hq, hf.2.1, fun R => (hf.2.2 R).later hl hq⟩
  | stabPrev h =>
    obtain ⟨hk, hst, seg, hv⟩ := hf
    exact ⟨hk.later hl hq, hst, seg, hval hv⟩
  | stabReserve h prev =>
    obtain ⟨hk, hst, seg, hv, hb⟩ := hf
    exact ⟨hk.later hl hq, hst, seg, hval hv, hb.later hl hv⟩
  | stabRevalidate h prev =>
    obtain ⟨hk, hst, ⟨seg, hv, hb⟩, hs⟩ := hf
    exact ⟨hk.later hl hq, hst, ⟨seg, hval hv, hb.later hl hv⟩,
      (hl.slots q 2 hq (by decide)).trans hs⟩
  | stabNext h prev => exact ⟨hf.1.later hl hq, hf.2.later hl hq⟩
  | stabCheck h prev prevNext =>
    obtain ⟨hk, hh, hne, hsn⟩ := hf
    refine ⟨hk.later hl hq, hh.later hl hq, hne, fun p hp => ?_⟩
    obtain ⟨r, hr, hheld⟩ := hh.held
    obtain rfl : p = r := Option.some.inj (hp.symm.trans hr)
    rcases hl.link h.side p hheld.past with he | ⟨hlt, -⟩
    · rw [he]
      exact hsn p hp
    · exact (hsn p hp).trans hlt.le
  | stabCas h prev prevNext =>
    obtain ⟨hk, hh, hne, hsn⟩ := hf
    refine ⟨hk.later hl hq, hh.later hl hq, hne, fun p hp => ?_⟩
    obtain ⟨r, hr, hheld⟩ := hh.held
    obtain rfl : p = r := Option.some.inj (hp.symm.trans hr)
    obtain ⟨hle, hanchor⟩ := hsn p hp
    rcases hl.link h.side p hheld.past with he | ⟨hlt, -⟩
    · rw [he]
      exact ⟨hle, fun hlink => hh.anchor_later hm hl hp (hanchor hlink) (by rw [hlink]; exact hne)⟩
    · refine ⟨hle.trans hlt.le, fun hlink => ?_⟩
      rw [hlink] at hlt
      exact absurd hlt hle.not_gt
  | stabSettle h prev =>
    obtain ⟨hk, hh, hlink⟩ := hf
    exact ⟨hk.later hl hq, hh.later hl hq,
      fun p hp hb => hh.link_later hm' hl hq hp (hlink p hp) hb⟩
  | stabClear h slot => exact ⟨hf.1.later hl hq, hf.2⟩

end UnboundedDeque.MMDeque
