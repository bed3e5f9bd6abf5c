import UnboundedDeque.SoloRun
import UnboundedDeque.OFDequeHints

/-!
# A thread that runs alone

The memory and the point of one thread, with no steps of the others in between. The
hint repair of `retire` ends this way: `findActiveBuffer` goes from a buffer to one
unlinked later or to a live one.
-/
namespace UnboundedDeque.OFDeque
open StepMachine

section Solo

variable {τ : Type*} [DecidableEq τ] [BufferSize] {m m' : Memory τ} {S R : Side} {tid : τ}
  {call : Call Word} {v : View} {b n : Address} {i : ℤ} {c : Choice} {a : Action}
  {p q : Point} {s t : State τ} {f : Frame} {u : Update}

/-- The steps of a call from its start to its last point. -/
def solo (tid : τ) (S : Side) (call : Call Word) : Machine Choice (Memory τ × Point) where
  init _ := False
  step c x := (next x.1 c tid S call x.2).bind fun (a, q) => q.map fun q => (x.1.act tid a, q)

/-- A call that runs alone comes, through points with `V`, to a memory and a point
with `Q`. -/
def Solo (tid : τ) (S : Side) (call : Call Word) (V : Point → Prop)
    (Q : Memory τ → Point → Prop) (m : Memory τ) (p : Point) : Prop :=
  (solo tid S call).Leads (fun _ => True) (fun x => V x.2) (fun x => Q x.1 x.2) (m, p)

variable {V : Point → Prop} {Q : Memory τ → Point → Prop}

/-- No condition on the points a call comes through. -/
abbrev anyPoint : Point → Prop := fun _ => True

theorem solo_step : (solo tid S call).step c (m, p) = some (m', q) ↔
    ∃ a, next m c tid S call p = some (a, some q) ∧ m' = m.act tid a := by
  simp only [solo, Option.bind_eq_some_iff, Option.map_eq_some_iff, Prod.mk.injEq]
  constructor
  · rintro ⟨⟨a, q'⟩, hn, q, rfl, rfl, rfl⟩
    exact ⟨a, hn, rfl⟩
  · rintro ⟨a, hn, rfl⟩
    exact ⟨(a, some q), hn, q, rfl, rfl, rfl⟩

theorem Solo.done (h : Q m p) : Solo tid S call V Q m p := Machine.Leads.done h

theorem Solo.trans {Q' : Memory τ → Point → Prop} (h : Solo tid S call V Q m p)
    (hq : ∀ m p, Q m p → Solo tid S call V Q' m p) : Solo tid S call V Q' m p :=
  Machine.Leads.trans h fun x hx => hq x.1 x.2 hx

/-- A step whose outcome may depend on what it leaves open. -/
theorem Solo.stepVia (h₀ : ∃ c a q, next m c tid S call p = some (a, some q))
    (h : ∀ c a q, next m c tid S call p = some (a, some q) → Solo tid S call V Q (m.act tid a) q)
    (hv : V p) : Solo tid S call V Q m p := by
  refine Machine.Leads.step hv ?_ ?_
  · obtain ⟨c, a, q, hn⟩ := h₀
    exact ⟨c, (m.act tid a, q), trivial, solo_step.mpr ⟨a, hn, rfl⟩⟩
  · rintro c ⟨m', q⟩ - hstep
    obtain ⟨a, hn, rfl⟩ := solo_step.mp hstep
    exact h c a q hn

/-- A step that leaves the memory as it is. -/
theorem Solo.skipVia (h : Solo tid S call V Q m q)
    (hn : ∀ c, OFDeque.next m c tid S call p = some (.skip, some q)) (hv : V p) :
    Solo tid S call V Q m p := by
  refine .stepVia ⟨⟨(S, call), 0, 0, 0⟩, .skip, q, hn _⟩ (fun c a' q' hn' => ?_) hv
  obtain ⟨rfl, hq⟩ := Prod.mk.inj (Option.some.inj ((hn c).symm.trans hn'))
  exact Option.some.inj hq ▸ h

/-- A step of a call that may come through any point. -/
theorem Solo.step (h₀ : ∃ c a q, next m c tid S call p = some (a, some q))
    (h : ∀ c a q, next m c tid S call p = some (a, some q) →
      Solo tid S call anyPoint Q (m.act tid a) q) : Solo tid S call anyPoint Q m p :=
  .stepVia h₀ h trivial

/-- A step with one outcome. -/
theorem Solo.next (hn : ∀ c, next m c tid S call p = some (a, some q))
    (h : Solo tid S call anyPoint Q (m.act tid a) q) : Solo tid S call anyPoint Q m p := by
  refine .step ⟨⟨(S, call), 0, 0, 0⟩, a, q, hn _⟩ fun c a' q' hn' => ?_
  obtain ⟨rfl, hq⟩ := Prod.mk.inj (Option.some.inj ((hn c).symm.trans hn'))
  exact Option.some.inj hq ▸ h

theorem Solo.skip (h : Solo tid S call anyPoint Q m q)
    (hn : ∀ c, OFDeque.next m c tid S call p = some (.skip, some q)) :
    Solo tid S call anyPoint Q m p :=
  .skipVia h hn trivial

/-- Whether a call returns at a point does not depend on what the step leaves open. -/
theorem next_isSome {c c' : Choice} {a' : Action} {o : Option Point}
    (hn : next m c tid S call p = some (a, some q)) (hn' : next m c' tid S call p = some (a', o)) :
    ∃ q', o = some q' := by
  cases o with
  | some q' => exact ⟨q', rfl⟩
  | none =>
    exfalso
    cases p with
    | clearSecond r => cases hn
    | failed => cases hn'
    | alloc v =>
      simp only [OFDeque.next] at hn'
      split_ifs at hn'
      cases hn'
    | fill v n i =>
      simp only [OFDeque.next] at hn'
      split_ifs at hn' <;> cases hn'
    | safe v k =>
      simp only [OFDeque.next] at hn'
      split_ifs at hn' <;> cases hn'
    | effect v k =>
      simp only [OFDeque.next] at hn'
      split_ifs at hn' <;> cases hn'
    | updCas v n u =>
      simp only [OFDeque.next] at hn'
      split_ifs at hn' <;> cases hn'
    | _ => cases hn'

/-- What a call comes to when it runs alone, it comes to among paused threads. -/
theorem leads_of_solo (hf : s.frames tid = some f)
    (h : Solo tid f.side f.call V Q s.mem f.point) :
    (machine τ).Leads (fun a => a.1 = tid)
      (fun t => ∃ g, t.frames tid = some g ∧ V g.point) (fun t => ∃ p, t.frames =
        Function.update s.frames tid (some { f with point := p }) ∧ Q t.mem p) s := by
  refine Machine.Leads.map (R := fun x t => t.mem = x.1 ∧
    t.frames = Function.update s.frames tid (some { f with point := x.2 })) ?_ ?_ ?_ ?_ h ?_
  · rintro ⟨m, p⟩ t ⟨rfl, ht⟩ hq
    exact ⟨p, ht, hq⟩
  · rintro ⟨m, p⟩ t ⟨rfl, ht⟩ hv
    exact ⟨{ f with point := p }, by rw [ht, Function.update_self], hv⟩
  · rintro ⟨m, p⟩ t c ⟨m', q⟩ ⟨rfl, ht⟩ - hstep
    obtain ⟨a, hn, rfl⟩ := solo_step.mp hstep
    refine ⟨(tid, c), ⟨t.mem.act tid a, Function.update t.frames tid (some { f with point := q })⟩,
      rfl, ?_⟩
    have hft : t.frames tid = some { f with point := p } := by rw [ht, Function.update_self]
    simp only [machine, OFDeque.step, hft, hn, Option.map_some]
  · rintro ⟨m, p⟩ t ⟨k, c⟩ t' ⟨rfl, ht⟩ ⟨c', ⟨m', q⟩, -, henabled⟩ rfl hstep
    obtain ⟨a, hn, -⟩ := solo_step.mp henabled
    have hft : t.frames k = some { f with point := p } := by rw [ht, Function.update_self]
    rcases step_cases hstep with ⟨hnone, -⟩ | ⟨g, a', o, hg, hn', rfl⟩
    · rw [hft] at hnone
      cases hnone
    · obtain rfl := Option.some.inj (hft.symm.trans hg)
      obtain ⟨q', rfl⟩ := next_isSome hn hn'
      refine ⟨c, (t.mem.act k a', q'), trivial, solo_step.mpr ⟨a', hn', rfl⟩, rfl, ?_⟩
      rw [ht, Function.update_idem]
      rfl
  · exact ⟨rfl, by rw [← hf, Function.update_eq_self]⟩

section Repair

/-- `isSealed` run alone. -/
def Memory.isSealed (m : Memory τ) (b : Address) : ℤ :=
  sealedIndex (m.slot b 1) (m.slot b (bufferSize - 2))

/-- The buffer `findActiveBuffer` goes to from a sealed one. -/
def Memory.follow (m : Memory τ) (S : Side) (b : Address) : Option Address :=
  if m.isSealed b = -1 then none
  else if m.isSealed b = farValue S then some (m.slot b (farLink S)).word
  else if m.isSealed b = nearValue S then some (m.slot b (nearLink S)).word
  else none

/-- The latest unlinked buffers have the lowest rank after the live ones. -/
def Memory.rank (m : Memory τ) (b : Address) : ℕ :=
  if b ∈ m.dead then m.dead.idxOf b + 2 else if m.isSealed b = -1 then 0 else 1

omit [DecidableEq τ] in
theorem Memory.isSealed_eq_neg_one (h : m.isSealed b = -1) (S : Side) :
    m.type b (farValue S) ≠ .sealed := by
  obtain ⟨h₀, h₁⟩ := sealedIndex_eq h
  cases S with
  | left => exact h₀
  | right => exact h₁

omit [DecidableEq τ] in
/-- A published buffer is sealed at one end at most. -/
theorem Shape.isSealed_of_sealed (h : Shape m) (hb : m.Published b)
    (hs : m.type b (farValue S) = .sealed) : m.isSealed b = farValue S := by
  have hok := h.buffer b hb
  cases S with
  | left => exact if_pos hs
  | right =>
    have hl : (m.slot b 1).type ≠ .sealed := by
      intro hl
      have hfar := (hok.farLink_of_sealed (S := .right) hl).1
      exact farType_ne_sealed .right (hfar.symm.trans hs)
    rw [Memory.isSealed, sealedIndex, if_neg hl]
    exact if_pos hs

omit [DecidableEq τ] in
theorem Shape.sealed_of_isSealed (hi : m.isSealed b ≠ -1) :
    ∃ R, m.type b (farValue R) = .sealed := by
  unfold Memory.isSealed sealedIndex at hi
  split_ifs at hi with h₀ h₁
  · exact ⟨.left, h₀⟩
  · exact ⟨.right, h₁⟩
  · exact absurd rfl hi

omit [DecidableEq τ] in
/-- `findActiveBuffer` follows the link beside the sealed slot. -/
theorem Shape.follow_of_sealed (h : Shape m) (hb : m.Published b)
    (hs : m.type b (farValue R) = .sealed) (S : Side) :
    m.follow S b = some (m.slot b (farLink R)).word := by
  have hsize := four_le_bufferSize
  have hne : farValue R ≠ -1 := by
    obtain ⟨h₁, -⟩ := inner_farValue R
    omega
  rw [Memory.follow, h.isSealed_of_sealed hb hs, if_neg hne]
  rcases S.eq_or_eq_opposite R with rfl | rfl
  · rw [if_pos rfl]
  · have hfar : farValue S.opposite ≠ farValue S := nearValue_ne_farValue S
    rw [if_neg hfar]
    exact if_pos rfl

omit [DecidableEq τ] in
theorem follow_none (h : Shape m) (hb : m.Published b) (hf : m.follow S b = none) :
    m.isSealed b = -1 ∧ b ∈ m.chain := by
  by_cases hi : m.isSealed b = -1
  · refine ⟨hi, live_of_unsealed h hb ?_ ?_⟩
    · exact Memory.isSealed_eq_neg_one hi .left
    · exact Memory.isSealed_eq_neg_one hi .right
  · obtain ⟨R, hs⟩ := Shape.sealed_of_isSealed hi
    rw [h.follow_of_sealed hb hs S] at hf
    cases hf

omit [DecidableEq τ] in
/-- The neighbour of a live sealed buffer is not sealed. -/
theorem Shape.neighbor_unsealed (h : Shape m) (hb : b ∈ m.chain) (hj : m.Joined R b n)
    (hs : m.type b (farValue R) = .sealed) : m.isSealed n = -1 := by
  have hn := (h.live_joined (.inl hb) hj).2
  by_contra hi
  obtain ⟨S, hsn⟩ := Shape.sealed_of_isSealed hi
  rcases R.eq_or_eq_opposite S with rfl | rfl
  · have hl := (h.buffer n (.inl hn)).farLink_of_sealed (S := S.opposite)
      (by rwa [nearValue_opposite])
    rw [farLink_opposite, farType_opposite] at hl
    exact nearType_ne_value S (hl.2.symm.trans hj.2.1)
  · exact h.apart R b n (.inl hb) hj hs hsn

omit [DecidableEq τ] in
theorem follow_rank (h : Shape m) (hb : m.Published b) (hf : m.follow S b = some n) :
    m.Published n ∧ m.rank n < m.rank b := by
  have hi : m.isSealed b ≠ -1 := by
    intro hi
    rw [Memory.follow, if_pos hi] at hf
    cases hf
  obtain ⟨R, hs⟩ := Shape.sealed_of_isSealed hi
  rw [h.follow_of_sealed hb hs S] at hf
  have hl : m.IsLink b (farLink R) n := ⟨(h.buffer b hb).sealedLink R hs, Option.some.inj hf⟩
  refine ⟨h.target b R n hb hl, ?_⟩
  by_cases hd : b ∈ m.dead
  · obtain ⟨l, k, hk⟩ := List.append_of_mem hd
    obtain ⟨R', n', hs', hl', hn', -⟩ := h.dead l b k hk
    have hR : R' = R := by
      have he := (h.isSealed_of_sealed hb hs').symm.trans (h.isSealed_of_sealed hb hs)
      rcases R.eq_or_eq_opposite R' with rfl | rfl
      · rfl
      · exact absurd he (nearValue_ne_farValue R)
    subst hR
    obtain rfl : n' = n := hl'.2.symm.trans hl.2
    have hnd := h.nodup.of_append_right
    have hb' : m.dead.idxOf b = l.length := by
      rw [hk] at hnd ⊢
      have hbl : b ∉ l := fun hm => (List.nodup_append.mp hnd).2.2 b hm b (by simp) rfl
      simp [List.idxOf_append_of_notMem hbl]
    rw [Memory.rank, Memory.rank, if_pos hd, hb']
    rcases hn' with hc | hm
    · rw [if_neg (not_dead_of_live h hc)]
      split_ifs <;> omega
    · have hmem : n' ∈ m.dead := by
        rw [hk]
        exact List.mem_append.mpr (.inl hm)
      have hlt : m.dead.idxOf n' < l.length := by
        rw [hk, List.idxOf_append_of_mem hm]
        exact List.idxOf_lt_length_of_mem hm
      rw [if_pos hmem]
      omega
  · have hlive := Shape.live_of_not_dead hb hd
    have hj := h.joined_of_link hlive hl
    have hn := (h.live_joined hb hj).2
    rw [Memory.rank, Memory.rank, if_neg hd, if_neg hi, if_neg (not_dead_of_live h hn),
      if_pos (h.neighbor_unsealed hlive hj hs)]
    exact Nat.zero_lt_one

/-- The buffer is live and neither end of it is sealed. -/
def Memory.Unsealed (m : Memory τ) (b : Address) : Prop := m.isSealed b = -1 ∧ b ∈ m.chain

/-- `isSealed` run alone reads the two slots once. -/
theorem solo_isSealed (h : Solo tid S call anyPoint Q m (updSealed v n u (m.isSealed u.buffer))) :
    Solo tid S call anyPoint Q m (.updFirst v n u) := by
  refine .skip (.skip (.skip h fun c => ?_) fun c => rfl) fun c => rfl
  simp only [OFDeque.next, if_pos]
  rfl

/-- `findActiveBuffer` run alone comes to an unsealed buffer, or finds that the hint
has changed since it was loaded. -/
theorem solo_findActiveBuffer (h : Shape m) (hb : m.Published u.buffer) (hz : u.hazSlot ≠ none)
    (hload : u.hint.count ≠ (m.hint u.side).count →
      Solo tid S call anyPoint Q m (.updLoad v n u.side u.threshold))
    (hcas : ∀ b z, m.Unsealed b →
      Solo tid S call anyPoint Q m (.updCas v n { u with buffer := b, hazSlot := z })) :
    Solo tid S call anyPoint Q m (.updFirst v n u) := by
  induction hr : m.rank u.buffer using Nat.strong_induction_on generalizing u with
  | _ r ih =>
    apply solo_isSealed
    obtain ⟨z, hz'⟩ := Option.ne_none_iff_exists'.mp hz
    by_cases hi : m.isSealed u.buffer = -1
    · have hf : m.follow S u.buffer = none := if_pos hi
      have hnext : updSealed v n u (m.isSealed u.buffer) = .updCas v n u := by
        simp only [updSealed, hz', if_pos hi]
      rw [hnext]
      exact hcas u.buffer u.hazSlot (follow_none h hb hf)
    · obtain ⟨R, hs⟩ := Shape.sealed_of_isSealed hi
      have hfollow := h.follow_of_sealed hb hs u.side
      obtain ⟨hp, hlt⟩ := follow_rank h hb hfollow
      have hnext : updSealed v n u (m.isSealed u.buffer) = .updLink v n u (farLink R) := by
        have hR := h.isSealed_of_sealed hb hs
        simp only [updSealed, hz', if_neg hi]
        rw [hR]
        rcases u.side.eq_or_eq_opposite R with rfl | rfl
        · rw [if_pos rfl]
        · have hne : farValue u.side.opposite ≠ farValue u.side := nearValue_ne_farValue u.side
          rw [if_neg hne]
          exact if_pos rfl
      rw [hnext]
      refine .skip (.skip ?_ fun c => rfl) fun c => rfl
      by_cases hc : u.hint.count ≠ (m.hint u.side).count
      · exact .skip (hload hc) fun c => by simp only [OFDeque.next, if_pos hc]
      · refine .skip ?_ fun c => by simp only [OFDeque.next, if_neg hc]; rfl
        exact ih _ (hr ▸ hlt) hp (by simp [hz']) hload hcas rfl

/-- What `updateHint` has done when it is through with a side. -/
structure Memory.Updated (m : Memory τ) (R : Side) (m' : Memory τ) : Prop where
  hint : m' = { m with hint := Function.update m.hint R (m'.hint R) }
  shape : Shape m'
  live : m'.Unsealed (m'.hint R).buffer

/-- `updateHint` from a loaded hint that is still current. -/
theorem solo_updFirst (h : Shape m) (hu : u.hint = m.hint u.side) (hb : u.buffer = u.hint.buffer)
    (hz : u.hazSlot = none)
    (hdone : ∀ m', m.Updated u.side m' → Solo tid S call anyPoint Q m' (updDone v n u.side)) :
    Solo tid S call anyPoint Q m (.updFirst v n u) := by
  have hpub : m.Published u.buffer := by
    rw [hb, hu]
    exact h.hint u.side
  have hcas (b : Address) (z : Option Bool) (hl : m.Unsealed b) :
      Solo tid S call anyPoint Q m (.updCas v n { u with buffer := b, hazSlot := z }) := by
    refine .next (a := .setHint u.side ⟨b, u.hint.count + 1⟩) (q := updDone v n u.side)
      (fun c => ?_) (hdone _ ?_)
    · simp only [OFDeque.next, if_pos hu.symm]
    · have hset : (m.act tid (.setHint u.side ⟨b, u.hint.count + 1⟩)).hint u.side =
          ⟨b, u.hint.count + 1⟩ := Function.update_self _ _ _
      refine ⟨?_, h.setHint (.inl hl.2), ?_⟩
      · rw [hset]
        rfl
      · rw [hset]
        exact hl
  have hkeep (hl : m.Unsealed (m.hint u.side).buffer) : m.Updated u.side m :=
    ⟨by rw [Function.update_eq_self], h, hl⟩
  apply solo_isSealed
  by_cases hi : m.isSealed u.buffer = -1
  · have hl := follow_none (S := S) h hpub (if_pos hi)
    by_cases ht : u.threshold < u.hint.count
    · have hnext : updSealed v n u (m.isSealed u.buffer) = updDone v n u.side := by
        simp only [updSealed, hz, if_pos hi, if_pos ht]
      rw [hnext]
      apply hdone m (hkeep _)
      rw [← hu, ← hb]
      exact hl
    · have hnext : updSealed v n u (m.isSealed u.buffer) = .updCas v n u := by
        simp only [updSealed, hz, if_pos hi, if_neg ht]
      rw [hnext]
      exact hcas u.buffer u.hazSlot hl
  · have hnext : updSealed v n u (m.isSealed u.buffer) =
        .updFirst v n { u with hazSlot := some true } := by
      simp only [updSealed, hz, if_neg hi]
    rw [hnext]
    exact solo_findActiveBuffer h hpub (by simp) (fun hc => absurd (by rw [hu]) hc) hcas

theorem solo_updLoad (h : Shape m) {threshold : ℕ}
    (hdone : ∀ m', m.Updated R m' → Solo tid S call anyPoint Q m' (updDone v n R)) :
    Solo tid S call anyPoint Q m (.updLoad v n R threshold) :=
  .skip (solo_updFirst h rfl rfl rfl hdone) fun _ => rfl

theorem solo_updThreshold (h : Shape m)
    (hdone : ∀ m', m.Updated R m' → Solo tid S call anyPoint Q m' (updDone v n R)) :
    Solo tid S call anyPoint Q m (.updThreshold v n R) :=
  .skip (solo_updLoad h hdone) fun _ => rfl

/-- After `updateHint` of a side come that of the other side and the retirement. -/
theorem solo_updDone (h : Shape m) (R : Side)
    (hdone : ∀ m', (m' = m ∨ m.Updated .right m') →
      Solo tid S call anyPoint Q (m'.act tid (.retire n)) (afterRemove S call v)) :
    Solo tid S call anyPoint Q m (updDone v n R) := by
  have hretire (m' : Memory τ) (hm : m' = m ∨ m.Updated .right m') :
      Solo tid S call anyPoint Q m' (.retire v n) := .next (fun _ => rfl) (hdone m' hm)
  cases R with
  | left => exact solo_updThreshold h fun m' hm => hretire m' (.inr hm)
  | right => exact hretire m (.inl rfl)

section Interrupted

variable (hend : ∀ m', Shape m' → ∀ R, Solo tid S call anyPoint Q m' (updDone v n R))
include hend

theorem solo_updCas (h : Shape m) (hb : m.Published u.buffer) :
    Solo tid S call anyPoint Q m (.updCas v n u) := by
  by_cases hh : m.hint u.side = u.hint
  · have hs : Shape (m.act tid (.setHint u.side ⟨u.buffer, u.hint.count + 1⟩)) := h.setHint hb
    refine .next (q := updDone v n u.side) (fun c => ?_) (hend _ hs u.side)
    simp only [OFDeque.next, if_pos hh]
  · refine .skip (q := .updLoad v n u.side u.threshold)
      (solo_updLoad h fun m' hm => hend m' hm.shape u.side) fun c => ?_
    simp only [OFDeque.next, if_neg hh]

/-- `updateHint` goes on from a hint that may have changed since it was loaded. -/
theorem solo_updFirst_stale (h : Shape m) (hb : m.Published u.buffer) :
    Solo tid S call anyPoint Q m (.updFirst v n u) := by
  have hload : Solo tid S call anyPoint Q m (.updLoad v n u.side u.threshold) :=
    solo_updLoad h fun m' hm => hend m' hm.shape u.side
  have hfind (z : Option Bool) (hz : z ≠ none) :
      Solo tid S call anyPoint Q m (.updFirst v n { u with hazSlot := z }) :=
    solo_findActiveBuffer h hb hz (fun _ => hload) fun b z hl => solo_updCas hend h (.inl hl.2)
  cases hz : u.hazSlot with
  | some z => exact hfind u.hazSlot (by simp [hz])
  | none =>
    apply solo_isSealed
    simp only [updSealed, hz]
    split_ifs
    · exact hend m h u.side
    · exact solo_updCas hend h hb
    · exact hfind (some true) (by simp)

theorem solo_updValidate (h : Shape m) (hb : m.Published b) :
    Solo tid S call anyPoint Q m (.updValidate v n u b) := by
  by_cases hc : u.hint.count ≠ (m.hint u.side).count
  · refine .skip (q := .updLoad v n u.side u.threshold)
      (solo_updLoad h fun m' hm => hend m' hm.shape u.side) fun c => ?_
    simp only [OFDeque.next, if_pos hc]
  · refine .skip (solo_updFirst_stale hend h (u := { u with buffer := b }) hb) fun c => ?_
    simp only [OFDeque.next, if_neg hc]

theorem solo_updLink (h : Shape m) (hb : m.Published (m.slot u.buffer i).word) :
    Solo tid S call anyPoint Q m (.updLink v n u i) :=
  .skip (.skip (solo_updValidate hend h hb) fun _ => rfl) fun _ => rfl

/-- `updSealed` with a result of `isSealed` that may be old. -/
theorem solo_updSealed (h : Shape m) (hu : m.UpdateOk S v u) {n0 n1 : Slot}
    (h0 : n0.type = .sealed → m.type u.buffer 1 = .sealed)
    (h1 : n1.type = .sealed → m.type u.buffer (bufferSize - 2) = .sealed) :
    Solo tid S call anyPoint Q m (updSealed v n u (sealedIndex n0 n1)) := by
  have hknows : (updSealed v n u (sealedIndex n0 n1)).Facts m tid S call :=
    (updSealed_knows hu h0 h1).1
  have hlink {i : ℤ} (hk : (Point.updLink v n u i).Facts m tid S call) :
      Solo tid S call anyPoint Q m (.updLink v n u i) := by
    obtain ⟨hu, R, rfl, hs⟩ := hk
    have hl : m.IsLink u.buffer (farLink R) (m.slot u.buffer (farLink R)).word :=
      ⟨(h.buffer _ hu.updBuffer).sealedLink R hs, rfl⟩
    exact solo_updLink hend h (h.target _ R _ hu.updBuffer hl)
  unfold updSealed at hknows ⊢
  cases hz : u.hazSlot with
  | none =>
    dsimp only
    split_ifs
    · exact hend m h u.side
    · exact solo_updCas hend h hu.updBuffer
    · exact solo_updFirst_stale hend h hu.updBuffer
  | some z =>
    rw [hz] at hknows
    dsimp only at hknows ⊢
    split_ifs at hknows ⊢
    · exact solo_updCas hend h hu.updBuffer
    · exact hlink hknows
    · exact hlink hknows
    · exact hknows.elim

theorem solo_updThird (h : Shape m) (hu : m.UpdateOk S v u) {n0 n1 : Slot}
    (h0 : n0.type = .sealed → m.type u.buffer 1 = .sealed)
    (h1 : n1.type = .sealed → m.type u.buffer (bufferSize - 2) = .sealed) :
    Solo tid S call anyPoint Q m (.updThird v n u n0 n1) := by
  by_cases hc : n0.count = (m.slot u.buffer 1).count
  · refine .skip (q := updSealed v n u (sealedIndex n0 n1)) (solo_updSealed hend h hu h0 h1)
      fun c => ?_
    simp only [OFDeque.next, if_pos hc]
  · refine .skip (q := .updFirst v n u) (solo_updFirst_stale hend h hu.updBuffer) fun c => ?_
    simp only [OFDeque.next, if_neg hc]

end Interrupted

/-- A thread anywhere in `retire` comes to the point after it. -/
theorem solo_retiring_on (hafter : ∀ v m', Solo tid S call anyPoint Q m' (afterRemove S call v))
    (h : Shape m) (hf : p.Facts m tid S call) (hr : p.retiring = some n) :
    Solo tid S call anyPoint Q m p := by
  have hend (v : View) (n : Address) (m' : Memory τ) (h' : Shape m') (R : Side) :
      Solo tid S call anyPoint Q m' (updDone v n R) := solo_updDone h' R fun m'' _ => hafter v _
  cases p with
  | updThreshold v n' R => exact solo_updThreshold h fun m' hm => hend v n' m' hm.shape R
  | updLoad v n' R t => exact solo_updLoad h fun m' hm => hend v n' m' hm.shape R
  | updFirst v n' u => exact solo_updFirst_stale (hend v n') h hf.updBuffer
  | updSecond v n' u n0 => exact .skip (solo_updThird (hend v n') h hf.1 hf.2 id) fun _ => rfl
  | updThird v n' u n0 n1 => exact solo_updThird (hend v n') h hf.1 hf.2.1 hf.2.2
  | updLink v n' u i =>
    obtain ⟨hu, R, rfl, hs⟩ := hf
    have hl : m.IsLink u.buffer (farLink R) (m.slot u.buffer (farLink R)).word :=
      ⟨(h.buffer _ hu.updBuffer).sealedLink R hs, rfl⟩
    exact solo_updLink (hend v n') h (h.target _ R _ hu.updBuffer hl)
  | updReserve v n' u b => exact .skip (solo_updValidate (hend v n') h hf.2) fun _ => rfl
  | updValidate v n' u b => exact solo_updValidate (hend v n') h hf.2
  | updCas v n' u => exact solo_updCas (hend v n') h hf.updBuffer
  | retire v n' => exact .next (fun _ => rfl) (hafter v _)
  | _ => cases hr

/-- A thread anywhere in `retire` comes to its end. -/
theorem solo_retiring (h : Shape m) (hf : p.Facts m tid S call) (hr : p.retiring = some n) :
    Solo tid S call anyPoint (fun _ q => q.retiring = none) m p :=
  solo_retiring_on (fun _ _ => .done (retiring_of_goes goes_afterRemove)) h hf hr

end Repair

section Active

/-- In every reachable state `findActiveBuffer` goes from any buffer, live or
unlinked, to a live one that is not sealed, visiting none twice; so `retire` run
alone ends. -/
theorem active_buffer_found (h : (machine τ).Reachable s) :
    (∀ S b, s.mem.Published b → ∃ l e, (b :: l).IsChain (fun x y => s.mem.follow S x = some y) ∧
      (b :: l).Nodup ∧ (b :: l).getLast? = some e ∧ e ∈ s.mem.chain ∧ s.mem.isSealed e = -1) ∧
      ∀ tid f n, s.frames tid = some f → f.point.retiring = some n →
        (machine τ).Leads (fun a => a.1 = tid) (fun _ => True)
          (fun t => ∃ g, t.frames tid = some g ∧ g.point.retiring = none) s := by
  have hi := run_inv h
  constructor
  · intro S b hb
    have hkeep (x y : Address) (hx : s.mem.Published x) (hy : s.mem.follow S x = some y) :
        s.mem.Published y ∧ s.mem.rank y < s.mem.rank x := follow_rank hi.shape hx hy
    obtain ⟨l, e, hl, hn, he, hp, hf⟩ := exists_path hkeep hb
    obtain ⟨hs, hc⟩ := follow_none hi.shape hp hf
    exact ⟨l, e, hl, hn, he, hc, hs⟩
  · intro tid f n hf hr
    have hsolo := solo_retiring hi.shape (hi.facts tid f hf) hr
    apply ((leads_of_solo hf hsolo).through fun _ _ => trivial).mono
    rintro t ⟨p, ht, hp⟩
    exact ⟨{ f with point := p }, by rw [ht, Function.update_self], hp⟩

end Active

end Solo

section InRetire

attribute [local instance] four

/-- Two left pushes, of which the second one appends a buffer, and two right pops,
of which the second one is about to move the hints off the first buffer. -/
def inRetire : State ℕ :=
  ((machine ℕ).exec (fun _ _ => True) (steps 40 0 .left (.push 11) 1 ++ steps 33 1 .right .pop 1)
    (constructed ℕ)).getD (constructed ℕ)

theorem inRetire_found : 0 ∈ inRetire.mem.dead ∧
    (∃ l e, (0 :: l).IsChain (fun x y => inRetire.mem.follow .left x = some y) ∧ (0 :: l).Nodup ∧
      (0 :: l).getLast? = some e ∧ e ∈ inRetire.mem.chain ∧ inRetire.mem.isSealed e = -1) ∧
      (machine ℕ).Leads (fun a => a.1 = 1) (fun _ => True)
        (fun t => ∃ g, t.frames 1 = some g ∧ g.point.retiring = none) inRetire := by
  have hrun : (machine ℕ).Reachable inRetire := Machine.Run.exec_getD _ (.start init_constructed)
  have hd : 0 ∈ inRetire.mem.dead := by decide +kernel
  have hr : ((inRetire.frames 1).bind fun f => f.point.retiring) = some 0 := by decide +kernel
  obtain ⟨f, hf, hn⟩ := Option.bind_eq_some_iff.mp hr
  exact ⟨hd, (active_buffer_found hrun).1 .left 0 (.inr hd),
    (active_buffer_found hrun).2 1 f 0 hf hn⟩

end InRetire
end UnboundedDeque.OFDeque
