import UnboundedDeque.LockFreedom
import UnboundedDeque.MMDequeLinearizability

/-!
# `MMDeque` is lock-free

A call that has to start over has been overtaken: another one has changed the anchor, or has
set the link that it was about to set. Either can happen only a few times before some call
takes effect.
-/
namespace UnboundedDeque.MMDeque
open StepMachine HazardTracker

variable {T : Type*} {n : ℕ} {m m' : Memory T n} {l l' : List Node} {tid q : Fin n} {a : Anchor}
  {S R : Side} {x y node : Node} {prev : Option Node} {c : Choice T} {call : Call T} {h : Helper}
  {k : Exit} {pt pt' : Point T} {p : Option (Point T)} {s t : State T n} {f : Frame T}

/-- 1 before the effect of a call, and 0 after it. -/
def Exit.stage : Exit → ℕ
  | .pushed => 0
  | _ => 1

def Point.stage : Point T → ℕ
  | .read _ | .retire _ _ | .scan _ | .clear _ _ | .done _ => 0
  | .stabLeft h | .stabRight h | .stabValidate h | .stabPrev h | .stabReserve h _
  | .stabRevalidate h _ | .stabNext h _ | .stabCheck h _ _ | .stabCas h _ _ | .stabSettle h _
  | .stabClear h _ => h.exit.stage
  | _ => 1

def frameStage : Option (Frame T) → ℕ
  | none => 2
  | some f => f.point.stage

/-- The steps to a stable anchor: the missing link and the compare-exchange of the anchor. -/
def Memory.unsettled (m : Memory T n) : ℕ :=
  match m.anchor.status with
  | .stable => 0
  | .push S =>
    if (((m.anchor.most S).bind fun x => (m.link S.opposite x).ptr).bind fun p =>
      (m.link S p).ptr) = m.anchor.most S then 1 else 2

/-- A call with an old anchor has to start over. -/
def Memory.lag (m : Memory T n) (a : Anchor) : ℕ := if m.anchor = a then 0 else 20

/-- The steps to the next compare-exchange that succeeds, or to the return of the call. -/
def Point.rank (m : Memory T n) (tid : Fin n) : Point T → ℕ
  | .alloc => 22
  | .store _ => 21
  | .pushLoad _ | .popLoad => 20
  | .casEmpty _ a | .casPush _ a | .casSingle a | .casPop a _ => 1 + m.lag a
  | .init _ a | .neighbor a => 2 + m.lag a
  | .validate a => 3 + m.lag a
  | .reserveRight a => 4 + m.lag a
  | .reserveLeft a => 5 + m.lag a
  | .read _ => 7 + scanBound (n * 3) ((m.haz.retired tid).length + 1) (.compare 0 0)
  | .retire _ _ => 6 + scanBound (n * 3) ((m.haz.retired tid).length + 1) (.compare 0 0)
  | .scan _ => 5 + m.haz.work tid
  | .clear slot _ => 4 - slot
  | .stabLeft h => 11 + m.lag h.a
  | .stabRight h => 10 + m.lag h.a
  | .stabValidate h => 9 + m.lag h.a
  | .stabPrev h => 8 + m.lag h.a
  | .stabReserve h _ => 7 + m.lag h.a
  | .stabRevalidate h _ => 6 + m.lag h.a
  | .stabNext h _ => 5 + m.lag h.a
  | .stabCheck h prev prevNext =>
    3 + if m.anchor = h.a ∧ prev.map (m.link h.side) = some prevNext then 0 else 20
  | .stabCas h prev prevNext => 2 + if prev.map (m.link h.side) = some prevNext then 0 else 20
  | .stabSettle h _ => 4 + m.lag h.a
  | .stabClear _ slot => 23 - slot
  | .done _ => 0

def frameRank (m : Memory T n) (tid : Fin n) : Option (Frame T) → ℕ
  | none => 0
  | some f => f.point.rank m tid

/-- What the steps of other threads leave alone when they neither change the anchor nor set
the missing link. -/
structure Keeps (tid : Fin n) (m m' : Memory T n) : Prop where
  anchor : m'.anchor = m.anchor
  link : ∀ S x, (m.life x).Past → m'.link S x = m.link S x
  retired : ∀ q, q ≠ tid → m'.haz.retired q = m.haz.retired q
  scan : ∀ q, q ≠ tid → m'.haz.scan q = m.haz.scan q

section Work

theorem Keeps.refl (tid : Fin n) (m : Memory T n) : Keeps tid m m :=
  ⟨rfl, fun _ _ _ => rfl, fun _ _ => rfl, fun _ _ => rfl⟩

/-- With a push under way, the new node has its link to the node beside it. -/
theorem Memory.Represents.back (hm : m.Represents l) (hs : m.anchor.status = .push S)
    (hn : S.Next l x y) : (m.link S.opposite y).ptr = some x := by
  rcases hm.linked _ _ _ (Side.next_opposite.mpr hn) with hlink | ⟨ho, -⟩
  · exact hlink
  · exact absurd (Status.push.inj (hs.symm.trans ho)).symm S.opposite_ne

/-- What is missing then is the link to the new node or the new status. -/
theorem Memory.Represents.unsettled (hm : m.Represents l) (hs : m.anchor.status = .push S)
    (hn : S.Next l x y) (hy : m.anchor.most S = some y) :
    m.unsettled = if (m.link S x).ptr = some y then 1 else 2 := by
  simp only [Memory.unsettled, hs, hy, Option.bind_some, hm.back hs hn]

/-- The nodes at the end of an anchor that is not stable. -/
theorem Memory.Represents.pushed_next (hm : m.Represents l) (hs : m.anchor.status = .push S) :
    ∃ x y, S.Next l x y ∧ m.anchor.most S = some y := by
  have hlen := hm.pushed S hs
  obtain ⟨y, hy⟩ := S.first_ne_none (List.ne_nil_of_length_pos (by omega : 0 < l.length))
  obtain ⟨x, hx⟩ := Side.exists_next hy hlen
  exact ⟨x, y, hx, (hm.ends S).trans hy⟩

theorem Keeps.unsettled (hk : Keeps tid m m') (hm : m.Shape l) : m'.unsettled = m.unsettled := by
  cases hs : m.anchor.status with
  | stable => simp only [Memory.unsettled, hk.anchor, hs]
  | push S =>
    obtain ⟨x, y, hn, hy⟩ := hm.rep.pushed_next hs
    simp only [Memory.unsettled, hk.anchor, hs, hy, Option.bind_some, hm.rep.back hs hn,
      hk.link _ y (hm.past hn.mem_target), hk.link _ x (hm.past hn.mem_source)]

theorem Keeps.lag (hk : Keeps tid m m') (a : Anchor) : m'.lag a = m.lag a := by
  rw [Memory.lag, Memory.lag, hk.anchor]

/-- The rank of a call is the same after such a step of another thread. -/
theorem Keeps.rank (hk : Keeps tid m m') (hq : q ≠ tid) (hf : pt.Facts m l q S call) :
    pt.rank m' q = pt.rank m q := by
  have hlink {h : Helper} {prev : Option Node} (hh : m.Helps l q h prev) :
      prev.map (m'.link h.side) = prev.map (m.link h.side) := by
    obtain ⟨p, rfl, hheld⟩ := hh.held
    rw [Option.map_some, Option.map_some, hk.link h.side p hheld.past]
  cases pt with
  | read a => simp only [Point.rank, hk.retired q hq]
  | retire a data => simp only [Point.rank, hk.retired q hq]
  | scan data => simp only [Point.rank, work, hk.retired q hq, hk.scan q hq]
  | stabCheck h prev prevNext => simp only [Point.rank, hk.anchor, hlink hf.2.1]
  | stabCas h prev prevNext => simp only [Point.rank, hlink hf.2.1]
  | _ => simp only [Point.rank, hk.lag]

end Work

section Loads

theorem lag_self : m.lag m.anchor = 0 := if_pos rfl

theorem Exit.stage_point (k : Exit) : (k.point : Point T).stage = k.stage := by
  cases k <;> rfl

theorem Exit.rank_point (m : Memory T n) (tid : Fin n) (k : Exit) : (k.point : Point T).rank m tid ≤ 20 := by
  cases k <;> simp [Exit.point, Point.rank]

theorem stage_stabilize : (stabilize a k : Point T).stage = k.stage := by
  unfold stabilize
  split
  · exact k.stage_point
  · rfl

theorem rank_stabilize (hs : m.anchor.status ≠ .stable) :
    (stabilize m.anchor k : Point T).rank m tid = 11 := by
  unfold stabilize
  split
  · contradiction
  · simp only [Point.rank, lag_self]

theorem pushLoaded_lowers (S : Side) (node : Node) (m : Memory T n) (tid : Fin n) :
    (pushLoaded S node m.anchor : Point T).stage = 1 ∧
    (pushLoaded S node m.anchor : Point T).rank m tid < 20 := by
  unfold pushLoaded
  split_ifs with hnone hst
  · simp [Point.stage, Point.rank, lag_self]
  · simp [Point.stage, Point.rank, lag_self]
  · rw [stage_stabilize, rank_stabilize hst]
    exact ⟨rfl, by decide⟩

theorem popLoaded_lowers (S : Side) (m : Memory T n) (tid : Fin n) :
    (popLoaded S m.anchor : Point T).stage = 0 ∨
    (popLoaded S m.anchor : Point T).stage = 1 ∧
      (popLoaded S m.anchor : Point T).rank m tid < 20 := by
  unfold popLoaded
  split_ifs with hnone hsame hst
  · exact .inl rfl
  · simp [Point.stage, Point.rank, lag_self]
  · simp [Point.stage, Point.rank, lag_self]
  · rw [stage_stabilize, rank_stabilize hst]
    exact .inr ⟨rfl, by decide⟩

end Loads

section Steps

/-- A step of a call has its effect, brings the anchor nearer to a stable one, or is one of
the steps to the next such step. -/
def Gets (tid : Fin n) (m m' : Memory T n) (pt pt' : Point T) : Prop :=
  pt'.stage < pt.stage ∨ pt'.stage = pt.stage ∧
    (m'.unsettled < m.unsettled ∨ Keeps tid m m' ∧ pt'.rank m' tid < pt.rank m tid)

theorem gets_same (hs : pt'.stage = pt.stage) (hr : pt'.rank m tid < pt.rank m tid) :
    Gets tid m m pt pt' :=
  .inr ⟨hs, .inr ⟨.refl tid m, hr⟩⟩

theorem gets_exit (hs : k.stage = pt.stage) (hr : 20 < pt.rank m tid) :
    Gets tid m m pt k.point :=
  gets_same (k.stage_point.trans hs) ((k.rank_point m tid).trans_lt hr)

theorem keeps_reserve {r : Option Node} {slot : ℕ} : Keeps tid m (m.reserve r slot tid) :=
  ⟨rfl, fun _ _ _ => rfl, fun _ _ => rfl, fun _ _ => rfl⟩

theorem keeps_alloc (hfree : m.life c.node = .free) : Keeps tid m (m.alloc tid c) := by
  refine ⟨rfl, fun S x hx => Function.update_of_ne ?_ _ _, fun _ _ => rfl, fun _ _ => rfl⟩
  rintro rfl
  exact hx.ne_free hfree

theorem keeps_init (howned : m.life node = .owned tid) {z : Link} :
    Keeps tid m (m.setLink R node z) := by
  refine ⟨rfl, fun S x hx => setLink_of_ne ?_, fun _ _ => rfl, fun _ _ => rfl⟩
  rintro rfl
  exact hx.ne_owned howned

theorem keeps_retire : Keeps tid m (m.retire x tid) where
  anchor := rfl
  link _ _ _ := rfl
  retired q hq := by
    rw [Memory.retire, retired_retire, Function.update_of_ne hq]
  scan q hq := scan_retire_of_ne hq

theorem keeps_scan : Keeps tid m (m.scan tid) where
  anchor := rfl
  link _ _ _ := rfl
  retired _ hq := retired_empty_of_ne hq
  scan _ hq := scan_empty_of_ne hq

/-- A compare-exchange of the anchor that fails has an old anchor to compare to. -/
theorem lag_of_failed {b : Bool} (hb : b = false) (hcas : ¬(m.anchor = a ∧ b = false)) :
    m.lag a = 20 :=
  if_neg fun h => hcas ⟨h, hb⟩

theorem lag_of_ne (ha : ¬a = m.anchor) : m.lag a = 20 := if_neg (Ne.symm ha)

/-- The compare-exchange of the missing link. -/
theorem unsettled_setLink (hm : m.Shape l) (hh : m.Helps l tid h (some x)) (ha : m.anchor = h.a)
    (hlink : (m.link h.side x).ptr ≠ h.a.most h.side) {z : Link} (hz : z.ptr = h.a.most h.side) :
    (m.setLink h.side x z).unsettled < m.unsettled := by
  obtain ⟨y, hy, hn⟩ := hh.next rfl (hm.both ha)
  have hs : m.anchor.status = .push h.side := ha ▸ hh.status
  rw [hm.rep.unsettled hs hn (ha ▸ hy), if_neg (hy ▸ hlink)]
  have hm' : (m.setLink h.side x z).Shape l := by
    obtain ⟨ptr, sn⟩ := z
    obtain rfl : ptr = some y := hz.trans hy
    exact hm.setLink hn
  rw [hm'.rep.unsettled hs hn (ha ▸ hy), setLink_self, if_pos (hz.trans hy)]
  decide

theorem unsettled_settle (hs : h.a.status = .push h.side) (ha : m.anchor = h.a) :
    (m.setAnchor { h.a with status := .stable }).unsettled < m.unsettled := by
  have hpos : 0 < m.unsettled := by
    simp only [Memory.unsettled, ha, hs]
    split_ifs <;> decide
  exact hpos

/-- The retired list grows by one pointer. -/
theorem work_retire (m : Memory T n) (x : Node) (tid : Fin n) : (m.retire x tid).haz.work tid ≤
    scanBound (n * 3) ((m.haz.retired tid).length + 1) (.compare 0 0) := by
  refine (work_le _ tid).trans ?_
  rw [Memory.retire, retired_retire, Function.update_self, List.length_append,
    List.length_singleton]

/-- `retire` scans as long as it has something to do. -/
theorem gets_scan (hm : m.Shape l) {data : T} :
    Gets tid m (m.scan tid) (.scan data)
      (if ((m.scan tid).haz.scan tid).isSome then .scan data else .clear 0 data) := by
  refine .inr ⟨by split_ifs <;> rfl, .inr ⟨keeps_scan, ?_⟩⟩
  split_ifs with hs
  · have hne : m.haz.scan tid ≠ none := by
      intro hnone
      have he : (m.scan tid).haz = m.haz := by
        change m.haz.empty tid = m.haz
        rw [empty, hnone]
      rw [he, hnone] at hs
      cases hs
    have hwork : (m.scan tid).haz.work tid < m.haz.work tid := work_empty hm.range hne
    simp only [Point.rank]
    omega
  · simp only [Point.rank]
    omega

theorem gets_stabCas (hm : m.Shape l) {z : Link}
    (hf : (Point.stabCas h prev z).Facts m l tid S call)
    (hn : next m c tid S call (.stabCas h prev z) = some (m', some pt')) :
    Gets tid m m' (.stabCas h prev z) pt' := by
  obtain ⟨-, hh, hne, hsn⟩ := hf
  obtain ⟨p, rfl, he⟩ := Option.map_eq_some_iff.mp hn
  split_ifs at he with hlink
  · cases he
    refine .inr ⟨rfl, .inl (unsettled_setLink hm hh ((hsn p rfl).2 hlink) ?_ rfl)⟩
    rw [hlink]
    exact hne
  · cases he
    exact gets_exit rfl (by simp [Point.rank, hlink])

theorem gets_stabClear {slot : ℕ} (hslot : slot < 3) :
    Gets tid m (m.reserve none slot tid) (.stabClear h slot)
      (if slot + 1 < 3 then .stabClear h (slot + 1) else h.exit.point : Point T) := by
  have hexit := h.exit.rank_point (m.reserve none slot tid) tid
  split_ifs with hs
  · exact .inr ⟨rfl, .inr ⟨keeps_reserve, by simp only [Point.rank]; omega⟩⟩
  · refine .inr ⟨h.exit.stage_point, .inr ⟨keeps_reserve, hexit.trans_lt ?_⟩⟩
    simp only [Point.rank]
    omega

theorem next_gets (hm : m.Shape l) (hf : pt.Facts m l tid S call) (hc : c.spurious = false)
    (hn : next m c tid S call pt = some (m', some pt')) : Gets tid m m' pt pt' := by
  cases pt with
  | alloc =>
    simp only [next] at hn
    split_ifs at hn with hfree
    cases hn
    exact .inr ⟨rfl, .inr ⟨keeps_alloc hfree, by simp [Point.rank]⟩⟩
  | store node =>
    cases call with
    | push t =>
      cases hn
      exact .inr ⟨rfl, .inr ⟨⟨rfl, fun _ _ _ => rfl, fun _ _ => rfl, fun _ _ => rfl⟩,
        by simp [Point.rank]⟩⟩
    | pop => cases hn
  | pushLoad node =>
    cases hn
    obtain ⟨hs, hr⟩ := pushLoaded_lowers S node m tid
    exact gets_same hs hr
  | casEmpty node a =>
    simp only [next] at hn
    split_ifs at hn with hcas
    · cases hn
      exact .inl Nat.zero_lt_one
    · cases hn
      exact gets_same rfl (by simp [Point.rank, lag_of_failed hc hcas])
  | init node a =>
    cases hn
    exact .inr ⟨rfl, .inr ⟨keeps_init hf.1.owned, by simp [Point.rank, (keeps_init hf.1.owned).lag]⟩⟩
  | casPush node a =>
    simp only [next] at hn
    split_ifs at hn with hcas
    · cases hn
      exact .inl Nat.zero_lt_one
    · cases hn
      exact gets_same rfl (by simp [Point.rank, lag_of_failed hc hcas])
  | popLoad =>
    cases hn
    rcases popLoaded_lowers S m tid with hs | ⟨hs, hr⟩
    · exact .inl (hs.trans_lt Nat.zero_lt_one)
    · exact gets_same hs hr
  | casSingle a =>
    obtain ⟨x, hx⟩ := Option.ne_none_iff_exists'.mp hf.2.2
    simp only [next, hx] at hn
    split_ifs at hn with hcas
    · cases hn
      exact .inl Nat.zero_lt_one
    · cases hn
      exact gets_same rfl (by simp [Point.rank, lag_of_failed hc hcas])
  | reserveLeft a =>
    cases hn
    exact .inr ⟨rfl, .inr ⟨keeps_reserve, by simp [Point.rank, keeps_reserve.lag]⟩⟩
  | reserveRight a =>
    cases hn
    exact .inr ⟨rfl, .inr ⟨keeps_reserve, by simp [Point.rank, keeps_reserve.lag]⟩⟩
  | validate a =>
    cases hn
    split_ifs with ha
    · exact gets_same rfl (by simp [Point.rank])
    · exact gets_same rfl (by simp [Point.rank, lag_of_ne ha])
  | neighbor a =>
    obtain ⟨x, -, he⟩ := Option.map_eq_some_iff.mp hn
    cases he
    exact gets_same rfl (by simp [Point.rank])
  | casPop a prev =>
    obtain ⟨-, -, seg, hv, -⟩ := hf
    obtain ⟨x, hx, -⟩ := hv.held S
    simp only [next, hx] at hn
    split_ifs at hn with hcas
    · cases hn
      exact .inl Nat.zero_lt_one
    · cases hn
      exact gets_same rfl (by simp [Point.rank, lag_of_failed hc hcas])
  | read a =>
    obtain ⟨x, -, he⟩ := Option.map_eq_some_iff.mp hn
    cases he
    exact gets_same rfl (by simp [Point.rank])
  | retire a data =>
    obtain ⟨x, -, he⟩ := Option.map_eq_some_iff.mp hn
    cases he
    have hwork := work_retire m x tid
    refine .inr ⟨by split_ifs <;> rfl, .inr ⟨keeps_retire, ?_⟩⟩
    split_ifs <;> simp only [Point.rank] <;> omega
  | scan data =>
    cases hn
    exact gets_scan hm
  | clear slot data =>
    cases hn
    have hslot := hf.2
    refine .inr ⟨by split_ifs <;> rfl, .inr ⟨keeps_reserve, ?_⟩⟩
    split_ifs <;> simp only [Point.rank] <;> omega
  | stabLeft h =>
    cases hn
    exact .inr ⟨rfl, .inr ⟨keeps_reserve, by simp [Point.rank, keeps_reserve.lag]⟩⟩
  | stabRight h =>
    cases hn
    exact .inr ⟨rfl, .inr ⟨keeps_reserve, by simp [Point.rank, keeps_reserve.lag]⟩⟩
  | stabValidate h =>
    cases hn
    split_ifs with ha
    · exact gets_same rfl (by simp [Point.rank])
    · exact gets_exit rfl (by simp [Point.rank, lag_of_ne ha])
  | stabPrev h =>
    obtain ⟨x, -, he⟩ := Option.map_eq_some_iff.mp hn
    cases he
    exact gets_same rfl (by simp [Point.rank])
  | stabReserve h prev =>
    cases hn
    exact .inr ⟨rfl, .inr ⟨keeps_reserve, by simp [Point.rank, keeps_reserve.lag]⟩⟩
  | stabRevalidate h prev =>
    cases hn
    split_ifs with ha
    · exact gets_same rfl (by simp [Point.rank])
    · exact gets_exit rfl (by simp [Point.rank, lag_of_ne ha])
  | stabNext h prev =>
    obtain ⟨p, rfl, he⟩ := Option.map_eq_some_iff.mp hn
    cases he
    split_ifs with hlink
    · exact gets_same rfl (by simp [Point.rank])
    · refine gets_same rfl ?_
      simp only [Point.rank, Memory.lag, Option.map_some, and_true]
      split_ifs <;> omega
  | stabCheck h prev prevNext =>
    cases hn
    split_ifs with ha
    · refine gets_same rfl ?_
      simp only [Point.rank, ha.symm, true_and]
      split_ifs <;> omega
    · exact gets_exit rfl (by simp [Point.rank, Ne.symm ha])
  | stabCas h prev prevNext => exact gets_stabCas hm hf hn
  | stabSettle h prev =>
    simp only [next] at hn
    split_ifs at hn with hcas
    · cases hn
      exact .inr ⟨rfl, .inl (unsettled_settle hf.2.1.status hcas.1)⟩
    · cases hn
      exact gets_same rfl (by simp [Point.rank, lag_of_failed hc hcas])
  | stabClear h slot =>
    cases hn
    exact gets_stabClear hf.2
  | done r => cases hn

end Steps

section Runs

/-- A step inside a call lowers what is left to be done. -/
theorem Gets.lowers (hi : Inv s l) (hf : s.frames tid = some f)
    (hg : Gets tid s.mem m' f.point pt) :
    Lowers (fun s q => frameStage (s.frames q)) (fun s q => frameRank s.mem q (s.frames q))
      (fun s => s.mem.unsettled) tid s
      ⟨m', Function.update s.frames tid (some { f with point := pt })⟩ := by
  refine ⟨fun q hq => by simp only [Function.update_of_ne hq], ?_⟩
  simp only [Function.update_self, hf, frameStage, frameRank]
  refine hg.imp_right (And.imp_right (Or.imp_right ?_))
  rintro ⟨hk, hr⟩
  refine ⟨hk.unsettled hi.shape, fun q hq => ?_, hr⟩
  rw [Function.update_of_ne hq]
  cases hfq : s.frames q with
  | none => exact le_rfl
  | some g => exact (hk.rank hq (hi.facts q g hfq)).le

/-- A step returns from a call or lowers what is left to be done. -/
theorem step_lowers (hi : Inv s l) (hc : c.spurious = false) (hs : step (tid, c) s = some t) :
    (∃ f r, s.frames tid = some f ∧ f.point = .done r) ∨
      Lowers (fun s q => frameStage (s.frames q)) (fun s q => frameRank s.mem q (s.frames q))
        (fun s => s.mem.unsettled) tid s t := by
  rcases step_cases hs with ⟨hf, pt, rfl, hp⟩ | ⟨f, m', p, hf, hn, rfl⟩
  · refine .inr ⟨fun q hq => by simp only [Function.update_of_ne hq], .inl ?_⟩
    have hstage : pt.stage = 1 := by rcases hp with ⟨rfl, -⟩ | ⟨rfl, -⟩ <;> rfl
    simp only [Function.update_self, hf, frameStage, hstage]
    decide
  · have hfacts := hi.facts tid f hf
    cases p with
    | none =>
      obtain ⟨r, hr⟩ := next_return hfacts hn
      exact .inl ⟨f, r, hf, hr⟩
    | some pt =>
      exact .inr ((next_gets hi.shape hfacts hc hn).lowers hi hf)

/-- Lock freedom: however the threads are scheduled, calls return again and again, as long as
no weak compare-exchange fails for no reason. -/
theorem lock_free {a : ℕ → Fin n × Choice T} {s : ℕ → State T n}
    (h : (machine T n).Forever (fun a _ => a.2.spurious = false) a s) (i : ℕ) :
    ∃ j, i ≤ j ∧ ∃ r, event (a j) (s j) (s (j + 1)) = some (.ret (a j).1 r) := by
  have hlow : ∀ (a : Fin n × Choice T) (s t : State T n),
      (machine T n).Reachable s → a.2.spurious = false →
        (machine T n).step a s = some t →
        (∃ f r, s.frames a.1 = some f ∧ f.point = .done r) ∨
          Lowers (fun s q => frameStage (s.frames q)) (fun s q => frameRank s.mem q (s.frames q))
            (fun s => s.mem.unsettled) a.1 s t := by
    rintro ⟨tid, c⟩ s t hr hc hs
    obtain ⟨l, hi⟩ := run_inv hr
    exact step_lowers hi hc hs
  obtain ⟨j, hj, f, r, hf, hr⟩ := h.lowers hlow i
  have hs : step (a j) (s j) = some (s (j + 1)) := h.move j
  refine ⟨j, hj, r, ?_⟩
  simp only [step, hf, hr, next, Option.map_some, Option.map_none, Option.some.injEq] at hs
  simp only [event, hf, ← hs, Function.update_self, hr]

end Runs

section Stuck

theorem Exit.point_ne_store (k : Exit) : (k.point : Point T) ≠ .store node := by
  cases k <;> simp [Exit.point]

theorem stabilize_ne_store : (stabilize a k : Point T) ≠ .store node := by
  unfold stabilize
  split
  · exact k.point_ne_store
  · simp

/-- A push writes its value to the block that it has just been given. -/
theorem next_store (hn : next m c tid S call pt = some (m', some (.store node))) :
    pt = .alloc := by
  cases pt with
  | alloc => rfl
  | pushLoad a | popLoad =>
    simp only [next, pushLoaded, popLoaded, Option.some.injEq, Prod.mk.injEq] at hn
    obtain ⟨-, hn⟩ := hn
    split_ifs at hn
    exact absurd hn stabilize_ne_store
  | stabValidate h | stabRevalidate h prev | stabCheck h prev prevNext | stabClear h slot =>
    simp only [next, Option.some.injEq, Prod.mk.injEq] at hn
    obtain ⟨-, hn⟩ := hn
    split_ifs at hn
    exact absurd hn h.exit.point_ne_store
  | stabCas h prev prevNext =>
    obtain ⟨x, -, hx⟩ := Option.map_eq_some_iff.mp hn
    split_ifs at hx
    · cases hx
    · simp only [Prod.mk.injEq, Option.some.injEq] at hx
      exact absurd hx.2 h.exit.point_ne_store
  | store node => cases call <;> cases hn
  | casEmpty node a | casPush node a =>
    simp only [next] at hn
    split_ifs at hn <;> cases hn
  | casSingle a | casPop a prev =>
    simp only [next] at hn
    split at hn
    · split_ifs at hn <;> cases hn
    · cases hn
  | neighbor a | read a | retire a data | stabPrev h | stabNext h prev =>
    obtain ⟨x, -, hx⟩ := Option.map_eq_some_iff.mp hn
    simp only [Prod.mk.injEq, Option.some.injEq] at hx
    obtain ⟨-, hx⟩ := hx
    first
    | cases hx
    | split_ifs at hx
  | validate a | scan data | clear slot data =>
    simp only [next, Option.some.injEq, Prod.mk.injEq] at hn
    obtain ⟨-, hn⟩ := hn
    split_ifs at hn
  | _ => cases hn

/-- A push stores a value. -/
def StoresValue (s : State T n) : Prop :=
  ∀ tid f node, s.frames tid = some f → f.point = .store node → ∃ v, f.call = .push v

theorem run_storesValue (h : (machine T n).Reachable s) : StoresValue s := by
  apply h.invariant
  · intro s hs tid f node hf
    rw [hs.frames] at hf
    cases hf
  · rintro ⟨tid, c⟩ s t hr hp - hs u g node hg hstore
    obtain ⟨l, hi⟩ := run_inv hr
    have hold (hu : u ≠ tid) (ht : t.frames u = s.frames u) : ∃ v, g.call = .push v :=
      hp u g node (ht ▸ hg) hstore
    rcases step_cases hs with ⟨hf, pt, rfl, hpt⟩ | ⟨f, m', p, hf, hn, rfl⟩
    · by_cases hu : u = tid
      · subst hu
        simp only [Function.update_self, Option.some.injEq] at hg
        subst hg
        rcases hpt with ⟨rfl, -⟩ | ⟨rfl, -⟩ <;> cases hstore
      · exact hold hu (Function.update_of_ne hu _ _)
    · by_cases hu : u = tid
      · subst hu
        simp only [Function.update_self] at hg
        obtain ⟨pt, rfl, rfl⟩ := Option.map_eq_some_iff.mp hg
        obtain rfl : pt = .store node := hstore
        have hfacts := hi.facts u f hf
        rw [next_store hn] at hfacts
        exact hfacts
      · exact hold hu (Function.update_of_ne hu _ _)

/-- What a call knows of the next step it can take. -/
theorem next_isSome (hf : pt.Facts m l tid S call) (hfree : pt = .alloc → m.life c.node = .free)
    (hstore : ∀ node, pt = .store node → ∃ v, call = .push v) :
    (next m c tid S call pt).isSome := by
  cases pt with
  | alloc => simp [next, hfree rfl]
  | store node =>
    obtain ⟨v, rfl⟩ := hstore node rfl
    rfl
  | casEmpty node a | casPush node a =>
    simp only [next]
    split_ifs <;> rfl
  | casSingle a =>
    obtain ⟨x, hx⟩ := Option.ne_none_iff_exists'.mp hf.2.2
    simp only [next, hx]
    split_ifs <;> rfl
  | neighbor a =>
    obtain ⟨-, -, seg, hv⟩ := hf
    obtain ⟨x, hx, -⟩ := hv.held S
    simp [next, hx]
  | casPop a prev =>
    obtain ⟨-, -, seg, hv, -⟩ := hf
    obtain ⟨x, hx, -⟩ := hv.held S
    simp only [next, hx]
    split_ifs <;> rfl
  | read a | retire a data =>
    obtain ⟨-, x, hx, -⟩ := hf
    simp [next, hx]
  | stabPrev h =>
    obtain ⟨-, -, seg, hv⟩ := hf
    obtain ⟨x, hx, -⟩ := hv.held h.side
    simp [next, hx]
  | stabNext h prev =>
    obtain ⟨p, rfl, -⟩ := hf.2.held
    rfl
  | stabCas h prev prevNext =>
    obtain ⟨p, rfl, -⟩ := hf.2.1.held
    rfl
  | _ => rfl

/-- No call gets stuck: it never reads at `NULL`, and it only waits for the pool. -/
theorem call_goes_on (h : (machine T n).Reachable s) (tid : Fin n) (c : Choice T)
    (hfree : ∀ f, s.frames tid = some f → f.point = .alloc → s.mem.life c.node = .free) :
    ∃ t, (machine T n).step (tid, c) s = some t := by
  obtain ⟨l, hi⟩ := run_inv h
  cases hf : s.frames tid with
  | none => exact ⟨_, by simp only [machine, step, hf]; rfl⟩
  | some f =>
    have hnext := next_isSome (hi.facts tid f hf) (hfree f hf) fun node hp =>
      run_storesValue h tid f node hf hp
    obtain ⟨x, hx⟩ := Option.isSome_iff_exists.mp hnext
    exact ⟨_, by simp only [machine, step, hf, hx, Option.map_some]; rfl⟩

/-- A second push that is called while the first one is stopped. -/
def pushCalled : State ℕ 2 :=
  ((machine ℕ 2).exec (fun _ _ => True) (halfPush ++ [pushRight (Fin.last 1) 9 3])
    (constructed 2)).getD (constructed 2)

theorem push_goes_on : ∃ t, (machine ℕ 2).step (pushRight (Fin.last 1) 9 3) pushCalled = some t := by
  have hrun : (machine ℕ 2).Reachable pushCalled :=
    Machine.Run.exec_getD _ (.start (init_constructed 2))
  have hfree : pushCalled.mem.life 3 = .free := by decide +kernel
  exact call_goes_on hrun (Fin.last 1) (pushRight (Fin.last 1) 9 3).2 fun _ _ _ => hfree

end Stuck

section Popping

def popLeft : Fin 2 × Choice ℕ :=
  (Fin.last 1, ⟨(.left, .pop), 0, fun _ => ⟨none, 0⟩, 0, false⟩)

def popFrame : ℕ → Option (Frame ℕ)
  | 0 => none
  | 1 => some ⟨.left, .pop, .popLoad⟩
  | 2 => some ⟨.left, .pop, .done .empty⟩
  | i + 3 => popFrame i

/-- The second thread pops the empty deque for ever. -/
def emptyPops (s : State ℕ 2) (i : ℕ) : State ℕ 2 :=
  ⟨s.mem, Function.update s.frames (Fin.last 1) (popFrame i)⟩

variable {s : State ℕ 2}

theorem emptyPops_zero (hs : s.frames (Fin.last 1) = none) : emptyPops s 0 = s := by
  rw [emptyPops, popFrame, ← hs, Function.update_eq_self]

theorem emptyPops_step (hs : s.mem.anchor.left = none) (i : ℕ) :
    (machine ℕ 2).step popLeft (emptyPops s i) = some (emptyPops s (i + 1)) := by
  have hempty : s.mem.anchor.most .left = none := hs
  induction i using Nat.strong_induction_on with
  | _ i ih =>
    match i with
    | 0 => simp [machine, step, emptyPops, popFrame, popLeft]
    | 1 => simp [machine, step, emptyPops, popFrame, popLeft, next, popLoaded, hempty]
    | 2 => simp [machine, step, emptyPops, popFrame, popLeft, next]
    | i + 3 => exact ih i (by omega)

theorem emptyPops_forever (h : (machine ℕ 2).Reachable s) (hs : s.frames (Fin.last 1) = none)
    (hempty : s.mem.anchor.left = none) :
    (machine ℕ 2).Forever (fun a _ => a.2.spurious = false) (fun _ => popLeft) (emptyPops s) where
  start := (emptyPops_zero hs).symm ▸ h
  cond _ := rfl
  move := emptyPops_step hempty

/-- The second thread has helped the push that is stopped and has popped both values. -/
def drained : State ℕ 2 :=
  ((machine ℕ 2).exec (fun _ _ => True) (halfPush ++ List.replicate 36 popLeft)
    (constructed 2)).getD (constructed 2)

theorem emptyPops_return : (drained.frames ⟨0, Nat.two_pos⟩).isSome = true ∧
    ∃ j, 7 ≤ j ∧ ∃ r, event popLeft (emptyPops drained j) (emptyPops drained (j + 1)) =
      some (.ret popLeft.1 r) := by
  have hrun : (machine ℕ 2).Reachable drained :=
    Machine.Run.exec_getD _ (.start (init_constructed 2))
  have hstate : (drained.frames (Fin.last 1)).isNone = true ∧
      drained.mem.anchor.left.isNone = true ∧
      (drained.frames ⟨0, Nat.two_pos⟩).isSome = true := by decide +kernel
  have hidle := Option.isNone_iff_eq_none.mp hstate.1
  have hempty := Option.isNone_iff_eq_none.mp hstate.2.1
  exact ⟨hstate.2.2, lock_free (emptyPops_forever hrun hidle hempty) 7⟩

end Popping

end UnboundedDeque.MMDeque
