import UnboundedDeque.OFDequeMachine
import UnboundedDeque.OFDequeStability

/-!
# What the threads know

Each point of a call comes with facts about the buffers it names. They are
stable under the steps of the other threads, except for the permits before a
second compare-exchange: these hold because a push and a pop at one edge, and
two seals between two buffers, exclude each other.
-/
namespace UnboundedDeque.OFDeque
open StepMachine

variable {τ : Type*} [BufferSize]

/-- A view as `checkEdge` lets it pass. -/
structure Memory.ViewOk (m : Memory τ) (S : Side) (v : View) : Prop where
  hint : m.Published v.hint.buffer
  buffer : m.Published v.buffer
  index : Near S v.index
  near : m.Seen v.buffer v.index v.near
  far : m.Seen v.buffer (v.index + farDirection S) v.far
  notFar : v.near.type ≠ farType S
  «sealed» : v.near.type = .sealed → v.index = farValue S
  inner : v.index ≠ farValue S → v.far.type = farType S
  nearLink : v.index = nearLink S → v.near.type = nearType S

/-- A private buffer is empty except for the two slots `doPush` fills last. -/
def Memory.Clean (m : Memory τ) (S : Side) (n : Address) : Prop :=
  ∀ i, 0 ≤ i → i < bufferSize → i ≠ OFDeque.nearLink S → i ≠ nearValue S →
    m.type n i = farType S

/-- What an attempt knows besides its view. -/
def Attempt.Ready (m : Memory τ) (tid : τ) (S : Side) (call : Call Word) (v : View) :
    Attempt → Prop
  | .interiorPush => (∃ w, call = .push w) ∧ v.index ≠ farValue S
  | .append n => (∃ w, call = .push w ∧ (m.slot n (nearValue S)).word = w) ∧
    v.index = farValue S ∧ v.far.type = farType S ∧ m.Prepared S v.buffer n ∧
    m.owner n = .thread S tid
  | .straddle n reach => (∃ w, call = .push w) ∧ v.index = farValue S ∧ m.Published n ∧
    m.Seen n (nearValue S) reach ∧ reach.type = farType S
  | .interiorPop => call = .pop ∧ v.index ≠ farValue S
  | .seal n reach => call = .pop ∧ v.index = farValue S ∧ v.far.type = .value ∧ v.far.word = n ∧
    m.Published n ∧ m.Linked S v.buffer n ∧ m.Seen n (nearValue S) reach ∧
    reach.type = farType S
  | .remove n => v.index = farValue S ∧ v.far.type = .value ∧ v.far.word = n ∧
    m.Published n ∧ m.SealedTo S v.buffer n
  | .boundaryPop => call = .pop ∧ v.index = farValue S ∧ v.far.type = farType S

/-- A pop goes on after a check for the empty deque only with a near slot that
is not empty or has changed. -/
def Attempt.Checked (m : Memory τ) (S : Side) (v : View) : Attempt → Prop
  | .interiorPop | .boundaryPop =>
    v.near.type = nearType S → m.Stale v.buffer v.index v.near
  | .seal _ _ => v.near.type = nearType S ∨ v.near.type = .sealed →
    m.Stale v.buffer v.index v.near
  | _ => True

/-- What `casSafe` has secured. -/
def Attempt.Permit (m : Memory τ) (S : Side) (v : View) : Attempt → Prop
  | .interiorPush | .append _ => m.PushPermit S v.buffer v.index v.far
  | .interiorPop | .boundaryPop => m.PopPermit S v.buffer v.index v.near
  | .seal n reach => m.SealPermit S v.buffer n reach
  | _ => True

structure Memory.FindOk (m : Memory τ) (f : Find) : Prop where
  hint : m.Published f.hint.buffer
  buffer : m.Published f.buffer

/-- The view with which a pop goes on after `retire`. -/
structure Memory.BoundaryOk (m : Memory τ) (S : Side) (v : View) : Prop extends
    m.ViewOk S v where
  atEnd : v.index = farValue S

structure Memory.AppendOk (m : Memory τ) (S : Side) (call : Call Word) (v : View) : Prop extends
    m.BoundaryOk S v where
  isFar : v.far.type = farType S
  isPush : ∃ w, call = .push w

structure Memory.StraddleOk (m : Memory τ) (S : Side) (v : View) : Prop extends
    m.BoundaryOk S v where
  isLink : v.far.type = .value
  linked : m.Linked S v.buffer v.far.word
  neighbor : m.Published v.far.word

structure Memory.UpdateOk (m : Memory τ) (S : Side) (v : View) (u : Update) : Prop extends
    m.BoundaryOk S v where
  updHint : m.Published u.hint.buffer
  updBuffer : m.Published u.buffer

/-- The facts a thread has at a point. -/
def Point.Facts (m : Memory τ) (tid : τ) (S : Side) (call : Call Word) : Point → Prop
  | .hintLoad => True
  | .hintReserve h | .hintCheck h => m.Published h.buffer
  | .findLocal f => m.FindOk f
  | .findSlot f i => m.FindOk f ∧ 0 ≤ i ∧ i ≤ bufferSize - 1
  | .findPeek f i => m.FindOk f ∧ Near S i
  | .findSealed f k => m.FindOk f ∧
    ((k = .sealedFar ∧ m.type f.buffer (farValue S) = .sealed) ∨
      (k = .sealedNear ∧ m.type f.buffer (nearValue S) = .sealed))
  | .findReserve f n _ | .findValidate f n _ | .findNeighbor f n _ => m.FindOk f ∧ m.Published n
  | .failed => False
  | .near h b i => m.Published h.buffer ∧ m.Published b ∧ Near S i
  | .far h b i x => m.Published h.buffer ∧ m.Published b ∧ Near S i ∧ m.Seen b i x
  | .alloc v => m.AppendOk S call v
  | .initLeft v n | .initRight v n => m.AppendOk S call v ∧ m.owner n = .thread S tid
  | .fill v n i => m.AppendOk S call v ∧ m.owner n = .thread S tid ∧
    ∀ j, 0 ≤ j → j < i → m.type n j = farType S
  | .insertLink v n => m.AppendOk S call v ∧ m.owner n = .thread S tid ∧ m.Clean S n
  | .insertValue v n => m.AppendOk S call v ∧ m.owner n = .thread S tid ∧ m.Clean S n ∧
    m.IsLink n (nearLink S) v.buffer
  | .reach v => m.StraddleOk S v
  | .back v x => m.StraddleOk S v ∧ m.Seen v.far.word (nearValue S) x ∧
    (x.type = .sealed → m.type v.far.word (nearValue S) = .sealed)
  | .recheck v k => call = .pop ∧ m.ViewOk S v ∧ k.Ready m tid S call v
  | .safe v k => m.ViewOk S v ∧ k.Ready m tid S call v ∧ k.Checked m S v
  | .effect v k => m.ViewOk S v ∧ k.Ready m tid S call v ∧ k.Checked m S v ∧
    match k with
    | .seal _ _ | .remove _ => m.Seen v.buffer v.index v.countNear.near
    | _ => True
  | .addLocal _ _ _ => True
  | .casHint _ b _ => m.Published b
  | .updThreshold v _ _ | .updLoad v _ _ _ => m.BoundaryOk S v
  | .updFirst v _ u => m.UpdateOk S v u
  | .updSecond v _ u n0 => m.UpdateOk S v u ∧
    (n0.type = .sealed → m.type u.buffer 1 = .sealed)
  | .updThird v _ u n0 n1 => m.UpdateOk S v u ∧
    (n0.type = .sealed → m.type u.buffer 1 = .sealed) ∧
    (n1.type = .sealed → m.type u.buffer (bufferSize - 2) = .sealed)
  | .updLink v _ u i => m.UpdateOk S v u ∧
    ∃ R, i = farLink R ∧ m.type u.buffer (farValue R) = .sealed
  | .updReserve v _ u p | .updValidate v _ u p => m.UpdateOk S v u ∧ m.Published p
  | .updCas v _ u => m.UpdateOk S v u
  | .retire v _ => m.BoundaryOk S v
  | .clearFirst _ | .clearSecond _ => True

/-- The permit of a thread about to change the content or to seal. -/
def Point.Permit (m : Memory τ) (S : Side) : Point → Prop
  | .effect v k => k.Permit m S v
  | _ => True

namespace Frame

/-- The view of a push at the end `S` that holds its permit. -/
def pushing (f : Frame) : Option View :=
  match f.point with
  | .effect v .interiorPush | .effect v (.append _) => some v
  | _ => none

def popping (f : Frame) : Option View :=
  match f.point with
  | .effect v .interiorPop | .effect v .boundaryPop => some v
  | _ => none

def sealing (f : Frame) : Option (View × Address × Slot) :=
  match f.point with
  | .effect v (.seal n reach) => some (v, n, reach)
  | _ => none

/-- Of two permits for one edge at most one is current. -/
structure Exclusive (m : Memory τ) (f g : Frame) : Prop where
  pushPop : ∀ v w, f.pushing = some v → g.popping = some w → f.side = g.side →
    v.buffer = w.buffer → v.index = w.index →
    ¬ ((m.slot v.buffer (v.index + farDirection f.side)).count = v.far.count ∧
      (m.slot w.buffer w.index).count = w.near.count)
  seals : ∀ v n x w p y, f.sealing = some (v, n, x) → g.sealing = some (w, p, y) →
    f.side = g.side.opposite → v.buffer = p → w.buffer = n →
    ¬ ((m.slot n (nearValue f.side)).count = x.count ∧
      (m.slot p (nearValue g.side)).count = y.count)

end Frame

/-- The invariant of the machine. -/
structure Inv (s : State τ) : Prop where
  shape : Shape s.mem
  clean : ∀ S tid n, s.mem.cache S tid = some n → s.mem.Clean S n
  facts : ∀ tid f, s.frames tid = some f → f.point.Facts s.mem tid f.side f.call
  permit : ∀ tid f, s.frames tid = some f → f.point.Permit s.mem f.side
  exclusive : ∀ p q f g, s.frames p = some f → s.frames q = some g → f.Exclusive s.mem g

section Stability

variable {m m' : Memory τ} {S : Side} {tid : τ} {call : Call Word} {v : View} {n : Address}

theorem Memory.ViewOk.later (h : Later m m') (hv : m.ViewOk S v) : m'.ViewOk S v :=
  { hv with
    hint := h.published _ hv.hint
    buffer := h.published _ hv.buffer
    near := h.seen hv.buffer hv.near
    far := h.seen hv.buffer hv.far }

theorem Memory.FindOk.later {f : Find} (h : Later m m') (hf : m.FindOk f) : m'.FindOk f :=
  ⟨h.published _ hf.hint, h.published _ hf.buffer⟩

theorem Memory.BoundaryOk.later (h : Later m m') (hv : m.BoundaryOk S v) : m'.BoundaryOk S v :=
  ⟨hv.toViewOk.later h, hv.atEnd⟩

theorem Memory.AppendOk.later (h : Later m m') (hv : m.AppendOk S call v) :
    m'.AppendOk S call v :=
  ⟨hv.toBoundaryOk.later h, hv.isFar, hv.isPush⟩

theorem Memory.StraddleOk.later (h : Later m m') (hv : m.StraddleOk S v) : m'.StraddleOk S v :=
  ⟨hv.toBoundaryOk.later h, hv.isLink, h.linked_of hv.buffer hv.linked,
    h.published _ hv.neighbor⟩

theorem Memory.UpdateOk.later {u : Update} (h : Later m m') (hv : m.UpdateOk S v u) :
    m'.UpdateOk S v u :=
  ⟨hv.toBoundaryOk.later h, h.published _ hv.updHint, h.published _ hv.updBuffer⟩

/-- What belongs to a thread alone is unchanged. -/
def KeepsPrivate (tid : τ) (m m' : Memory τ) : Prop :=
  ∀ n S, m.owner n = .thread S tid → m'.owner n = .thread S tid ∧ m'.slot n = m.slot n

theorem Memory.Clean.congr (hs : m'.slot n = m.slot n) (hn : m.Clean S n) : m'.Clean S n := by
  intro i h₀ h₁ h₂ h₃
  rw [Memory.type, hs]
  exact hn i h₀ h₁ h₂ h₃

theorem Memory.Prepared.congr {b : Address} (hs : m'.slot n = m.slot n)
    (hn : m.Prepared S b n) : m'.Prepared S b n := by
  obtain ⟨h₁, h₂, h₃, h₄⟩ := hn
  have ht : m'.type n = m.type n := by
    funext i
    rw [Memory.type, hs, Memory.type]
  refine ⟨?_, by rw [ht, h₂], by rw [ht, h₃], fun i hi hne => by rw [ht, h₄ i hi hne]⟩
  rw [Memory.IsLink, ht, hs]
  exact h₁

theorem Attempt.Ready.later {k : Attempt} (h : Later m m') (hp : KeepsPrivate tid m m')
    (hb : m.Published v.buffer) (hk : k.Ready m tid S call v) : k.Ready m' tid S call v := by
  cases k with
  | interiorPush => exact hk
  | append n =>
    obtain ⟨⟨w, hw, hword⟩, hi, hf, hprep, ho⟩ := hk
    obtain ⟨ho', hs⟩ := hp n S ho
    exact ⟨⟨w, hw, by rw [hs, hword]⟩, hi, hf, hprep.congr hs, ho'⟩
  | straddle n reach =>
    obtain ⟨hw, hi, hn, hr, ht⟩ := hk
    exact ⟨hw, hi, h.published n hn, h.seen hn hr, ht⟩
  | interiorPop => exact hk
  | «seal» n reach =>
    obtain ⟨hc, hi, hf, hw, hn, hl, hr, ht⟩ := hk
    exact ⟨hc, hi, hf, hw, h.published n hn, h.linked_of hb hl, h.seen hn hr, ht⟩
  | remove n =>
    obtain ⟨hi, hf, hw, hn, hs⟩ := hk
    exact ⟨hi, hf, hw, h.published n hn, h.sealedTo hn hs⟩
  | boundaryPop => exact hk

theorem Attempt.Checked.later {k : Attempt} (h : Later m m') (hb : m.Published v.buffer)
    (hk : k.Checked m S v) : k.Checked m' S v := by
  cases k with
  | interiorPop => exact fun ht => h.stale hb (hk ht)
  | boundaryPop => exact fun ht => h.stale hb (hk ht)
  | «seal» n reach => exact fun ht => h.stale hb (hk ht)
  | _ => trivial

/-- The facts of a thread are stable under the steps of the others. -/
theorem Point.Facts.later {pt : Point} (h : Later m m') (hp : KeepsPrivate tid m m')
    (hpt : pt.Facts m tid S call) : pt.Facts m' tid S call := by
  have hsealed {b : Address} (hb : m.Published b) (R : Side) := h.sealed b R hb
  cases pt with
  | hintLoad => trivial
  | hintReserve x => exact h.published x.buffer hpt
  | hintCheck x => exact h.published x.buffer hpt
  | findLocal f => exact Memory.FindOk.later h hpt
  | findSlot f i => exact ⟨hpt.1.later h, hpt.2⟩
  | findPeek f i => exact ⟨hpt.1.later h, hpt.2⟩
  | findSealed f k =>
    obtain ⟨hf, hk⟩ := hpt
    refine ⟨hf.later h, hk.imp (fun hk => ⟨hk.1, hsealed hf.buffer S hk.2⟩) fun hk => ⟨hk.1, ?_⟩⟩
    exact hsealed hf.buffer S.opposite hk.2
  | findReserve f n k => exact ⟨hpt.1.later h, h.published _ hpt.2⟩
  | findValidate f n k => exact ⟨hpt.1.later h, h.published _ hpt.2⟩
  | findNeighbor f n k => exact ⟨hpt.1.later h, h.published _ hpt.2⟩
  | failed => exact hpt
  | near x b i => exact ⟨h.published _ hpt.1, h.published _ hpt.2.1, hpt.2.2⟩
  | far x b i y =>
    obtain ⟨hx, hb, hi, hy⟩ := hpt
    exact ⟨h.published _ hx, h.published _ hb, hi, h.seen hb hy⟩
  | alloc v => exact Memory.AppendOk.later h hpt
  | initLeft v n => exact ⟨hpt.1.later h, (hp n S hpt.2).1⟩
  | initRight v n => exact ⟨hpt.1.later h, (hp n S hpt.2).1⟩
  | fill v n i =>
    obtain ⟨hv, ho, hf⟩ := hpt
    obtain ⟨ho', hs⟩ := hp n S ho
    refine ⟨hv.later h, ho', fun j hj hji => ?_⟩
    rw [Memory.type, hs]
    exact hf j hj hji
  | insertLink v n =>
    obtain ⟨hv, ho, hc⟩ := hpt
    obtain ⟨ho', hs⟩ := hp n S ho
    exact ⟨hv.later h, ho', hc.congr hs⟩
  | insertValue v n =>
    obtain ⟨hv, ho, hc, hl⟩ := hpt
    obtain ⟨ho', hs⟩ := hp n S ho
    refine ⟨hv.later h, ho', hc.congr hs, ?_⟩
    rw [Memory.IsLink, Memory.type, hs]
    exact hl
  | reach v => exact Memory.StraddleOk.later h hpt
  | back v x =>
    obtain ⟨hv, hx, hs⟩ := hpt
    exact ⟨hv.later h, h.seen hv.neighbor hx, fun ht => hsealed hv.neighbor S.opposite (hs ht)⟩
  | recheck v k =>
    obtain ⟨hc, hv, hr⟩ := hpt
    exact ⟨hc, hv.later h, hr.later h hp hv.buffer⟩
  | safe v k =>
    obtain ⟨hv, hr, hc⟩ := hpt
    exact ⟨hv.later h, hr.later h hp hv.buffer, hc.later h hv.buffer⟩
  | effect v k =>
    obtain ⟨hv, hr, hc, hn⟩ := hpt
    refine ⟨hv.later h, hr.later h hp hv.buffer, hc.later h hv.buffer, ?_⟩
    cases k with
    | «seal» n reach => exact h.seen hv.buffer hn
    | remove n => exact h.seen hv.buffer hn
    | _ => trivial
  | addLocal b d r => trivial
  | casHint x b r => exact h.published b hpt
  | updThreshold v n R => exact Memory.BoundaryOk.later h hpt
  | updLoad v n R t => exact Memory.BoundaryOk.later h hpt
  | updFirst v n u => exact Memory.UpdateOk.later h hpt
  | updSecond v n u x =>
    exact ⟨hpt.1.later h, fun hx => hsealed hpt.1.updBuffer .left (hpt.2 hx)⟩
  | updThird v n u x y =>
    exact ⟨hpt.1.later h, fun hx => hsealed hpt.1.updBuffer .left (hpt.2.1 hx),
      fun hy => hsealed hpt.1.updBuffer .right (hpt.2.2 hy)⟩
  | updLink v n u i =>
    obtain ⟨hu, R, hi, hs⟩ := hpt
    exact ⟨hu.later h, R, hi, hsealed hu.updBuffer R hs⟩
  | updReserve v n u p => exact ⟨hpt.1.later h, h.published _ hpt.2⟩
  | updValidate v n u p => exact ⟨hpt.1.later h, h.published _ hpt.2⟩
  | updCas v n u => exact Memory.UpdateOk.later h hpt
  | retire v n => exact Memory.BoundaryOk.later h hpt
  | clearFirst r => trivial
  | clearSecond r => trivial

variable [DecidableEq τ]

/-- The steps of a thread leave the private buffers of the others alone. -/
theorem Shape.keepsPrivate (h : Shape m) {a : Action} (ha : m.Allowed tid a) {k : τ}
    (hk : k ≠ tid) : KeepsPrivate k m (m.act tid a) := by
  intro n S ho
  have hnp := h.not_published ho
  have hcas {b : Address} (hb : m.Published b) (i : ℤ) (w : Word) (t : SlotType) :
      (m.cas b i w t).slot n = m.slot n := by
    funext j
    exact m.slot_cas_ne b n i j w t (.inl fun he => hnp (he ▸ hb))
  cases a with
  | casSafe b i => exact ⟨ho, hcas ha i _ _⟩
  | push R b i w => exact ⟨ho, hcas ha.1 i _ _⟩
  | append R b c =>
    have hne : n ≠ c := by
      rintro rfl
      have := ha.2.2.2.2.symm.trans ho
      simp only [Owner.thread.injEq] at this
      exact hk this.2.symm
    refine ⟨?_, hcas ha.1 _ _ _⟩
    change Function.update m.owner c .published n = _
    rw [Function.update_of_ne hne, ho]
  | pop R b i w => exact ⟨ho, hcas ha.1 i _ _⟩
  | «seal» R c w =>
    obtain ⟨-, b, hb, hj, -⟩ := ha
    exact ⟨ho, hcas (h.target b R c hb hj.1) _ _ _⟩
  | unlink R b c w => exact ⟨ho, hcas ha.1 _ _ _⟩
  | alloc R c =>
    have hne : n ≠ c := by
      rintro rfl
      cases ho.symm.trans ha
    refine ⟨?_, rfl⟩
    change Function.update m.owner c _ n = _
    rw [Function.update_of_ne hne, ho]
  | store c i x =>
    obtain ⟨R, hc⟩ := ha
    have hne : n ≠ c := by
      rintro rfl
      have := hc.symm.trans ho
      simp only [Owner.thread.injEq] at this
      exact hk this.2.symm
    exact ⟨ho, funext fun j => m.slot_set_ne c n i j (.inl hne)⟩
  | _ => exact ⟨ho, rfl⟩

end Stability
end UnboundedDeque.OFDeque
