import UnboundedDeque.OFDequeAstray
import UnboundedDeque.OFDequeCall

/-!
# A call that runs alone among paused calls

From any point a thread that runs alone comes to its return or to the start of a round.
A round whose hint does not lead astray gets on: it returns, or it unlinks a sealed buffer
and repairs the hints. A round whose hint leads astray comes back to its start and has
changed nothing.
-/
namespace UnboundedDeque.OFDeque
open StepMachine

section Progress

variable {τ : Type*} [BufferSize] {m m' : Memory τ} {S R : Side} {tid : τ}
  {call : Call Word} {v : View} {b c n : Address} {i : ℤ} {k : Attempt} {p q : Point}
  {x : Slot} {k' : LinkKind} {hint : Hint} {Q : Memory τ → Point → Prop} {s t : State τ}

section Check

/-- A view that `checkEdge` lets pass. -/
structure View.Fits (S : Side) (v : View) : Prop where
  notFar : v.near.type ≠ farType S
  «sealed» : v.near.type = .sealed → v.index = farValue S
  inner : v.index ≠ farValue S → v.far.type = farType S
  first : v.index = nearLink S → v.near.type = nearType S

theorem View.Fits.check (h : v.Fits S) (cache : Option Address) :
    checkEdge S call cache v = passEdge S call cache v := by
  have h₁ : ¬(v.near.type = farType S ∨ v.near.type = .sealed ∧ v.index ≠ farValue S) := by
    rintro (ht | ⟨ht, hne⟩)
    · exact h.notFar ht
    · exact hne (h.sealed ht)
  have h₂ : ¬(v.index + farDirection S ≠ farLink S ∧ v.far.type ≠ farType S) := by
    rintro ⟨hne, ht⟩
    refine ht (h.inner fun hv => hne ?_)
    rw [hv, farValue_add]
  have h₃ : ¬(v.index = nearLink S ∧ v.near.type ≠ nearType S) := fun hl => hl.2 (h.first hl.1)
  refine (if_neg h₁).trans ((if_neg h₂).trans ((if_neg h₃).trans ?_))
  cases call <;> rfl

/-- The point after an edge at the end of a buffer has passed the check. -/
theorem passEdge_reach (hi : v.index = farValue S) (hf : v.far.type ≠ farType S)
    (cache : Option Address) : passEdge S call cache v = .reach v := by
  cases call with
  | push w => exact (if_neg (not_not.mpr hi)).trans (if_neg hf)
  | pop => exact (if_neg (not_not.mpr hi)).trans (if_pos hf)

variable [DecidableEq τ]

/-- From the slot where the search has ended to the check. -/
theorem solo_near (h : Solo tid S call anyPoint Q m (checkEdge S call (m.cache S tid)
      ⟨hint, b, i, m.slot b i, m.slot b (i + farDirection S)⟩)) :
    Solo tid S call anyPoint Q m (.near hint b i) :=
  .skip (.skip h fun _ => rfl) fun _ => rfl

/-- A slot without an edge sends a round back to its start. -/
theorem solo_stuck (hs : m.Stuck S b n) (h : Solo tid S call anyPoint Q m .hintLoad) :
    Solo tid S call anyPoint Q m (.near hint b (farValue S)) := by
  let v : View := ⟨hint, b, farValue S, m.slot b (farValue S),
    m.slot b (farValue S + farDirection S)⟩
  have hfar : v.far = m.slot b (farLink S) := congrArg (m.slot b) (farValue_add S)
  have hvalue : v.far.type ≠ farType S := by
    rw [hfar, show (m.slot b (farLink S)).type = .value from hs.link.1]
    exact (farType_ne_value S).symm
  have hword : v.far.word = n := by
    rw [hfar]
    exact hs.link.2
  have hfits : v.Fits S := ⟨hs.notFar, fun _ => rfl, fun hne => absurd rfl hne,
    fun he => absurd he.symm (nearLink_ne_farValue S)⟩
  have hcheck : checkEdge S call (m.cache S tid) v = .reach v := by
    rw [hfits.check, passEdge_reach rfl hvalue]
  refine solo_near ?_
  change Solo tid S call anyPoint Q m (checkEdge S call (m.cache S tid) v)
  rw [hcheck]
  refine .skip (q := .back v (m.slot n (nearValue S))) ?_ fun _ => by
    simp only [OFDeque.next, hword]
  refine .skip h fun _ => ?_
  by_cases hb : (m.slot n (nearLink S)).word ≠ b
  · simp only [OFDeque.next, hword]
    rw [if_pos hb]
  · have hr : m.reads n (nearValue S) ≠ farType S := hs.wrong.resolve_left hb
    have hnf : (m.slot n (nearValue S)).type ≠ farType S := fun ht =>
      hr (Memory.reads_of_type ht)
    have hns : (m.slot n (nearValue S)).type ≠ .sealed := fun ht =>
      hr (Memory.reads_sealed_near ht)
    have hafter : afterBack S call v n (m.slot n (nearValue S)) = .hintLoad := by
      cases call with
      | push w => exact (if_neg hnf).trans (if_neg hns)
      | pop => exact (if_neg hnf).trans ((if_neg hns).trans (if_neg hvalue))
    simp only [OFDeque.next, hword]
    rw [if_neg hb, ← hafter]
    cases call <;> rfl

end Check

section Finds

variable {f : Find}

/-- Where the switch of `findEdge` goes. -/
theorem findSwitch_cases (h : (findSwitch S f i x).Facts m tid S call) :
    (x.type = farType S ∧ findSwitch S f i x = .findSlot f (i - farDirection S) ∧
      0 ≤ i - farDirection S ∧ i - farDirection S ≤ bufferSize - 1) ∨
    (∃ n k, findSwitch S f i x = .findReserve f n k ∧ m.Published n) ∨
    (∃ k, findSwitch S f i x = .findSealed f k ∧ (Point.findSealed f k).Facts m tid S call) ∨
    findSwitch S f i x = .findPeek f i ∧ Near S i := by
  unfold findSwitch at h ⊢
  split_ifs at h ⊢ with h₁ h₂ h₃ h₄ h₅ h₆ h₇ h₈ h₉
  · exact .inl ⟨h₂, rfl, h.2⟩
  · exact .inr (.inl ⟨_, _, rfl, h.2⟩)
  · exact .inr (.inr (.inr ⟨rfl, h.2⟩))
  · exact .inr (.inl ⟨_, _, rfl, h.2⟩)
  · exact h.elim
  · exact .inl ⟨h₆, rfl, h.2⟩
  · exact .inr (.inr (.inl ⟨_, rfl, h⟩))
  · exact .inr (.inr (.inl ⟨_, rfl, h⟩))
  · exact h.elim
  · exact .inr (.inr (.inr ⟨rfl, h.2⟩))

variable [DecidableEq τ] (h : Shape m)
  (hnear : ∀ hint b i, Solo tid S call anyPoint Q m (.near hint b i))
  (hload : Solo tid S call anyPoint Q m .hintLoad)

section Walk

variable (hf : m.FindOk f)
  (hres : ∀ n k, m.Published n → Solo tid S call anyPoint Q m (.findReserve f n k))

include h hf hres

theorem solo_findSealed (hs : (Point.findSealed f k').Facts m tid S call) :
    Solo tid S call anyPoint Q m (.findSealed f k') := by
  have hlink (R : Side) (ht : m.type f.buffer (farValue R) = .sealed) :
      m.Published (m.slot f.buffer (farLink R)).word :=
    h.target f.buffer R _ hf.buffer ⟨(h.buffer _ hf.buffer).sealedLink R ht, rfl⟩
  rcases hs.2 with ⟨rfl, ht⟩ | ⟨rfl, ht⟩
  · exact .skip (hres _ .sealedFar (hlink S ht)) fun _ => rfl
  · exact .skip (hres _ .sealedNear (hlink S.opposite ht)) fun _ => rfl

include hnear

/-- Towards the side a walk does not turn back. -/
theorem solo_peek_any (hi : Near S i) : Solo tid S call anyPoint Q m (.findPeek f i) := by
  induction hk : ((farLink S - i) * farDirection S).toNat using Nat.strong_induction_on
    generalizing i with
  | _ k ih =>
    by_cases ht : m.type f.buffer (i + farDirection S) = farType S
    · refine .skip (q := .near f.hint f.buffer i) (hnear _ _ _) fun _ => ?_
      simp only [OFDeque.next, if_pos ht]
    · refine .skip (q := .findSlot f (i + farDirection S)) ?_
        fun _ => by simp only [OFDeque.next, if_neg ht]
      obtain ⟨h₀, h₁⟩ := hi.next_range
      have hknows : (findSwitch S f (i + farDirection S)
          (m.slot f.buffer (i + farDirection S))).Facts m tid S call :=
        (findSwitch_knows h hf h₀ h₁).1
      refine .skip ?_ fun _ => rfl
      rcases findSwitch_cases hknows with ⟨hfar, -⟩ | ⟨n, k', hn, hpub⟩ | ⟨k', hn, hs⟩ | ⟨hn, hi'⟩
      · exact absurd hfar ht
      · rw [hn]
        exact hres n k' hpub
      · rw [hn]
        exact solo_findSealed h hf hres hs
      · rw [hn]
        refine ih _ ?_ hi' rfl
        obtain ⟨h₂, h₃, h₄⟩ := hi
        rw [← hk]
        cases S <;> simp only [farLink, farDirection] at * <;> omega

/-- A walk from any slot of a buffer comes to its end. -/
theorem solo_slot_any (h₀ : 0 ≤ i) (h₁ : i ≤ bufferSize - 1) :
    Solo tid S call anyPoint Q m (.findSlot f i) := by
  induction hk : ((i - nearLink S) * farDirection S).toNat using Nat.strong_induction_on
    generalizing i with
  | _ k ih =>
    have hknows : (findSwitch S f i (m.slot f.buffer i)).Facts m tid S call :=
      (findSwitch_knows h hf h₀ h₁).1
    refine .skip ?_ fun _ => rfl
    rcases findSwitch_cases hknows with ⟨-, hn, h₂, h₃⟩ | ⟨n, k', hn, hpub⟩ | ⟨k', hn, hs⟩ |
      ⟨hn, hi⟩
    · rw [hn]
      refine ih _ ?_ h₂ h₃ rfl
      rw [← hk]
      cases S <;> simp only [nearLink, Side.opposite, farLink, farDirection] at * <;> omega
    · rw [hn]
      exact hres n k' hpub
    · rw [hn]
      exact solo_findSealed h hf hres hs
    · rw [hn]
      exact solo_peek_any h hnear hf hres hi

end Walk

include hload in
theorem solo_findValidate
    (hgo : f.hint.count = (m.hint S).count →
      Solo tid S call anyPoint Q m (.findNeighbor f n k')) :
    Solo tid S call anyPoint Q m (.findValidate f n k') := by
  by_cases hc : f.hint.count = (m.hint S).count
  · exact .skip (hgo hc) fun _ => by simp only [OFDeque.next, hc, ne_eq, not_true, if_false]
  · refine .skip hload fun _ => ?_
    simp only [OFDeque.next, ne_eq, hc, not_false_eq_true, if_true]

include hnear in
theorem solo_findNeighbor
    (hgo : ∀ f' : Find, f'.hint = f.hint → f'.buffer = n →
      Solo tid S call anyPoint Q m (.findLocal f')) :
    Solo tid S call anyPoint Q m (.findNeighbor f n k') := by
  cases he : k'.edge S f.buffer n (m.type n (k'.probe S)) with
  | some b => exact .skip (hnear f.hint b (farValue S)) fun _ => by simp only [OFDeque.next, he]
  | none =>
    refine .skip (q := .findLocal { f with buffer := n }) (hgo _ rfl rfl) fun _ => ?_
    simp only [OFDeque.next, he]

include h hnear

/-- At a neighbour that is a live or an unlinked buffer. -/
theorem solo_slots_any (hf : m.FindOk f)
    (hres : ∀ n k, m.Published n → Solo tid S call anyPoint Q m (.findReserve f n k)) :
    Solo tid S call anyPoint Q m (.findLocal f) := by
  obtain ⟨h₀, h₁⟩ := (clamp_inner (m.localHint S f.buffer)).range
  exact .skip (solo_slot_any h hnear hf hres h₀ h₁) fun _ => rfl

include hload

/-- The search from a buffer with a hint that has changed or not. -/
theorem solo_findLocal_any (hf : m.FindOk f) : Solo tid S call anyPoint Q m (.findLocal f) := by
  by_cases hc : f.hint.count = (m.hint S).count
  · exact solo_search (fun _ _ => trivial) h hc hf.buffer rfl fun c i _ => hnear _ c i
  · refine solo_slots_any h hnear hf fun n k' hn => ?_
    refine .skip (q := .findValidate { f with hazSlot := !f.hazSlot } n k') ?_ fun _ => rfl
    exact solo_findValidate hload fun hc' => absurd hc' hc

/-- From any point of `findEdge` a thread alone comes to a slot or to the start of a round. -/
theorem solo_finds (hk : p.Facts m tid S call) (hp : p.finds = true) :
    Solo tid S call anyPoint Q m p := by
  have hneighbor {f : Find} {n : Address} (k' : LinkKind) (hf : m.FindOk f)
      (hn : m.Published n) : Solo tid S call anyPoint Q m (.findNeighbor f n k') := by
    refine solo_findNeighbor hnear fun f' hh hb => ?_
    exact solo_findLocal_any h hnear hload ⟨hh ▸ hf.hint, hb ▸ hn⟩
  have hvalidate {f : Find} {n : Address} (k' : LinkKind) (hf : m.FindOk f)
      (hn : m.Published n) : Solo tid S call anyPoint Q m (.findValidate f n k') :=
    solo_findValidate hload fun _ => hneighbor k' hf hn
  have hres {f : Find} (hf : m.FindOk f) (n : Address) (k' : LinkKind) (hn : m.Published n) :
      Solo tid S call anyPoint Q m (.findReserve f n k') :=
    .skip (hvalidate (f := { f with hazSlot := !f.hazSlot }) k' ⟨hf.hint, hf.buffer⟩ hn)
      fun _ => rfl
  cases p with
  | findLocal f => exact solo_findLocal_any h hnear hload hk
  | findSlot f i => exact solo_slot_any h hnear hk.1 (hres hk.1) hk.2.1 hk.2.2
  | findPeek f i => exact solo_peek_any h hnear hk.1 (hres hk.1) hk.2
  | findSealed f k' => exact solo_findSealed h hk.1 (hres hk.1) hk
  | findReserve f n k' => exact hres hk.1 n k' hk.2
  | findValidate f n k' => exact hvalidate k' hk.1 hk.2
  | findNeighbor f n k' => exact hneighbor k' hk.1 hk.2
  | _ => cases hp

end Finds

section Boundary

variable [DecidableEq τ] {P : Memory τ → Prop}
  (hend : ∀ m r, Solo tid S call anyPoint Q m (.clearFirst r))
  (hload : ∀ m, P m → Solo tid S call anyPoint Q m .hintLoad)
  (hcas : ∀ m b i, P m → P (m.act tid (.casSafe b i)))

/-- A second compare-exchange succeeds or not. -/
theorem solo_effect_any (hmiss : Solo tid S call anyPoint Q m (k.missedNext S call v))
    (hdone : ∀ w, Solo tid S call anyPoint Q (m.act tid (k.action S call v w)) (k.doneNext S v)) :
    Solo tid S call anyPoint Q m (.effect v k) := by
  by_cases hs : m.slot (k.target S v).1 (k.target S v).2.1 = (k.target S v).2.2
  · refine .free (f := fun c => k.action S call v c.junk) (g := fun _ => k.doneNext S v)
      (fun _ => ?_) fun c => hdone c.junk
    simp only [OFDeque.next, if_pos hs]
  · refine .skip hmiss fun _ => ?_
    simp only [OFDeque.next, if_neg hs]

/-- `casSafe` succeeds or not. -/
theorem solo_safe_any (hfail : Solo tid S call anyPoint Q m (k.unsafeNext S call v))
    (hgo : Solo tid S call anyPoint Q (m.act tid (.casSafe (k.safe S v).1 (k.safe S v).2.1))
      (.effect v k)) : Solo tid S call anyPoint Q m (.safe v k) := by
  by_cases hs : m.slot (k.safe S v).1 (k.safe S v).2.1 = (k.safe S v).2.2
  · refine .next (a := .casSafe (k.safe S v).1 (k.safe S v).2.1) (q := .effect v k)
      (fun _ => ?_) hgo
    simp only [OFDeque.next, if_pos hs]
  · refine .skip hfail fun _ => ?_
    simp only [OFDeque.next, if_neg hs]

theorem solo_recheck_any (hempty : Solo tid S call anyPoint Q m (.clearFirst .empty))
    (hgo : Solo tid S call anyPoint Q m (.safe v k)) :
    Solo tid S call anyPoint Q m (.recheck v k) := by
  by_cases hc : (m.slot v.buffer v.index).count = v.near.count
  · exact .skip hempty fun _ => by simp only [OFDeque.next, if_pos hc]
  · exact .skip hgo fun _ => by simp only [OFDeque.next, if_neg hc]

include hend

theorem solo_casHint_any {r : Result Word} :
    Solo tid S call anyPoint Q m (.casHint hint b r) := by
  by_cases hh : m.hint S = hint
  · refine .next (a := .setHint S ⟨b, hint.count + 1⟩) (fun _ => ?_) (hend _ r)
    simp only [OFDeque.next, if_pos hh]
  · refine .skip (hend _ r) fun _ => ?_
    simp only [OFDeque.next, if_neg hh]

theorem solo_addLocal_any {d : ℤ} {r : Result Word} :
    Solo tid S call anyPoint Q m (.addLocal b d r) := .next (fun _ => rfl) (hend _ r)

include hload

/-- A compare-exchange with which a round ends. -/
theorem solo_last_effect (hm : P m) (hk : k.missedNext S call v = .hintLoad)
    (hd : (∃ b d r, k.doneNext S v = .addLocal b d r) ∨ ∃ x b r, k.doneNext S v = .casHint x b r) :
    Solo tid S call anyPoint Q m (.effect v k) := by
  refine solo_effect_any ?_ fun w => ?_
  · rw [hk]
    exact hload m hm
  · rcases hd with ⟨b, d, r, hd⟩ | ⟨x, b, r, hd⟩
    · rw [hd]
      exact solo_addLocal_any hend
    · rw [hd]
      exact solo_casHint_any hend

include hcas

theorem solo_boundary_safe (hm : P m) : Solo tid S call anyPoint Q m (.safe v .boundaryPop) :=
  solo_safe_any (hload m hm)
    (solo_last_effect hend hload (hcas m _ _ hm) rfl (.inr ⟨_, _, _, rfl⟩))

theorem solo_popBoundary (hm : P m) : Solo tid S call anyPoint Q m (popBoundary S v) := by
  unfold popBoundary
  split_ifs
  · exact solo_recheck_any (hend m .empty) (solo_boundary_safe hend hload hcas hm)
  · exact solo_boundary_safe hend hload hcas hm
  · exact hload m hm

theorem solo_afterRemove (hm : P m) : Solo tid S call anyPoint Q m (afterRemove S call v) := by
  cases call with
  | push w => exact hload m hm
  | pop => exact solo_popBoundary hend hload hcas hm

end Boundary

section Prepare

variable [DecidableEq τ]

/-- A new buffer is filled and the slots of the others are kept. -/
theorem solo_insertLink
    (hgo : ∀ m', (∀ b ≠ n, m'.slot b = m.slot b) →
      Solo tid S call anyPoint Q m' (.safe v (.append n))) :
    Solo tid S call anyPoint Q m (.insertLink v n) := by
  refine .free (fun _ => rfl) fun _ => .free (fun _ => rfl) fun _ => hgo _ fun b hb => ?_
  funext j
  exact (Memory.slot_set_ne _ _ _ _ _ (.inl hb)).trans (m.slot_set_ne _ _ _ _ (.inl hb))

theorem solo_fill_any
    (hgo : ∀ m', (∀ b ≠ n, m'.slot b = m.slot b) →
      Solo tid S call anyPoint Q m' (.safe v (.append n))) :
    Solo tid S call anyPoint Q m (.fill v n i) := by
  induction hk : (bufferSize - i).toNat generalizing m i with
  | zero =>
    refine .next (a := .cache S n) (q := .insertLink v n) (fun _ => ?_) (solo_insertLink hgo)
    simp only [OFDeque.next, if_neg (show ¬i < bufferSize by omega)]
  | succ k ih =>
    refine .free (f := fun c => .store n i ⟨c.junk, c.junkCount, farType S⟩)
      (g := fun _ => .fill v n (i + 1)) (fun _ => ?_) fun c => ih (fun m' hm' => ?_) (by omega)
    · simp only [OFDeque.next, if_pos (show i < bufferSize by omega)]
    · refine hgo m' fun b hb => (hm' b hb).trans ?_
      exact funext fun j => m.slot_set_ne _ _ _ _ (.inl hb)

/-- `BlockPool::alloc` gives some buffer that is not in use. -/
theorem solo_alloc (hroom : {n | m.owner n ≠ .unused}.Finite)
    (hgo : ∀ m' n, m.owner n = .unused → (∀ b ≠ n, m'.slot b = m.slot b) →
      Solo tid S call anyPoint Q m' (.safe v (.append n))) :
    Solo tid S call anyPoint Q m (.alloc v) := by
  obtain ⟨n, hn⟩ := hroom.exists_notMem
  have hfree : m.owner n = .unused := not_not.mp hn
  refine .step ⟨⟨(S, call), n, 0, 0⟩, .alloc S n, .initLeft v n, ?_⟩ fun c a q hq => ?_
  · simp only [OFDeque.next, if_pos hfree]
  · simp only [OFDeque.next] at hq
    split_ifs at hq with hc
    cases hq
    exact .next (fun _ => rfl) (.next (fun _ => rfl) (solo_fill_any fun m' hm => hgo m' _ hc hm))

end Prepare

section Rounds

variable [DecidableEq τ]

/-- From any memory a call comes to `Q` at its end and at the start of a round. -/
structure Stops (tid : τ) (S : Side) (call : Call Word) (Q : Memory τ → Point → Prop) : Prop where
  finish : ∀ m r, Solo tid S call anyPoint Q m (.clearFirst r)
  again : ∀ m, Solo tid S call anyPoint Q m .hintLoad

/-- It also does where it has unlinked a buffer. -/
structure Stops₂ (tid : τ) (S : Side) (call : Call Word) (Q : Memory τ → Point → Prop) : Prop
    extends Stops tid S call Q where
  repair : ∀ m v n, Solo tid S call anyPoint Q m (.updThreshold v n .left)

theorem Stops.popBoundary (h : Stops tid S call Q) :
    Solo tid S call anyPoint Q m (popBoundary S v) :=
  solo_popBoundary (P := fun _ => True) h.finish (fun m _ => h.again m) (fun _ _ _ h => h) trivial

theorem Stops.afterRemove (h : Stops tid S call Q) :
    Solo tid S call anyPoint Q m (afterRemove S call v) :=
  solo_afterRemove (P := fun _ => True) h.finish (fun m _ => h.again m) (fun _ _ _ h => h) trivial

variable (hq : Stops₂ tid S call Q)
include hq

theorem solo_effect_remove : Solo tid S call anyPoint Q m (.effect v (.remove n)) :=
  solo_effect_any (hq.afterRemove) fun _ => hq.repair _ _ _

theorem solo_safe_remove : Solo tid S call anyPoint Q m (.safe v (.remove n)) :=
  solo_safe_any (hq.afterRemove) (solo_effect_remove hq)

theorem solo_popRemove_any : Solo tid S call anyPoint Q m (popRemove S v n x) := by
  unfold popRemove
  split_ifs
  · exact solo_recheck_any (hq.finish m .empty) (solo_safe_remove hq)
  · exact solo_safe_remove hq
  · exact hq.popBoundary

/-- From a second compare-exchange. -/
theorem solo_effects : Solo tid S call anyPoint Q m (.effect v k) := by
  have hlast {k : Attempt} (hk : k.missedNext S call v = .hintLoad)
      (hd : (∃ b d r, k.doneNext S v = .addLocal b d r) ∨
        ∃ x b r, k.doneNext S v = .casHint x b r) : Solo tid S call anyPoint Q m (.effect v k) :=
    solo_last_effect (P := fun _ => True) hq.finish (fun m _ => hq.again m) trivial hk hd
  cases k with
  | interiorPush => exact hlast rfl (.inl ⟨_, _, _, rfl⟩)
  | append n => exact hlast rfl (.inr ⟨_, _, _, rfl⟩)
  | straddle n reach => exact hlast rfl (.inr ⟨_, _, _, rfl⟩)
  | interiorPop => exact hlast rfl (.inl ⟨_, _, _, rfl⟩)
  | «seal» n reach =>
    exact solo_effect_any (solo_popRemove_any hq) fun _ =>
      solo_popRemove_any hq
  | remove n => exact solo_effect_remove hq
  | boundaryPop => exact hlast rfl (.inr ⟨_, _, _, rfl⟩)

/-- From `casSafe`. -/
theorem solo_safes : Solo tid S call anyPoint Q m (.safe v k) := by
  refine solo_safe_any ?_ (solo_effects hq)
  cases k with
  | «seal» n reach => exact solo_popRemove_any hq
  | remove n => exact hq.afterRemove
  | _ => exact hq.again m

theorem solo_rechecks : Solo tid S call anyPoint Q m (.recheck v k) :=
  solo_recheck_any (hq.finish m .empty) (solo_safes hq)

theorem solo_afterBack : Solo tid S call anyPoint Q m (afterBack S call v n x) := by
  cases call with
  | push w =>
    change Solo tid S (.push w) anyPoint Q m (pushStraddle S v n x)
    unfold pushStraddle
    split_ifs
    · exact solo_safes hq
    · exact solo_safes hq
    · exact hq.again m
  | pop =>
    change Solo tid S .pop anyPoint Q m (popSeal S v n x)
    unfold popSeal
    split_ifs
    · exact solo_rechecks hq
    · exact solo_safes hq
    · exact solo_popRemove_any hq

theorem solo_back : Solo tid S call anyPoint Q m (.back v x) := by
  by_cases hb : (m.slot v.far.word (nearLink S)).word ≠ v.buffer
  · exact .skip (hq.again m) fun _ => by simp only [OFDeque.next, if_pos hb]
  · refine .skip (q := afterBack S call v v.far.word x) (solo_afterBack hq) fun _ => ?_
    simp only [OFDeque.next, if_neg hb]
    cases call <;> rfl

/-- From an edge that passes the check or not. -/
theorem solo_checkEdge (hroom : {n | m.owner n ≠ .unused}.Finite) {cache : Option Address} :
    Solo tid S call anyPoint Q m (checkEdge S call cache v) := by
  have hsafe {m' : Memory τ} {k : Attempt} : Solo tid S call anyPoint Q m' (.safe v k) :=
    solo_safes hq
  have hreach : Solo tid S call anyPoint Q m (.reach v) :=
    .skip (solo_back hq) fun _ => rfl
  unfold checkEdge
  split_ifs
  · exact hq.again m
  · exact hq.again m
  · exact hq.again m
  · cases call with
    | push w =>
      change Solo tid S (.push w) anyPoint Q m (pushEdge S cache v)
      unfold pushEdge
      split_ifs
      · exact hsafe
      · cases cache with
        | none => exact solo_alloc hroom fun _ _ _ _ => hsafe
        | some n => exact solo_insertLink fun _ _ => hsafe
      · exact hreach
    | pop =>
      change Solo tid S .pop anyPoint Q m (popEdge S v)
      unfold popEdge
      split_ifs
      · exact solo_rechecks hq
      · exact hsafe
      · exact hreach
      · exact hq.popBoundary

/-- From any point outside `retire` and before the end of a call. -/
theorem solo_points (h : Shape m) (hroom : {n | m.owner n ≠ .unused}.Finite)
    (hk : p.Facts m tid S call) (hr : p.retiring = none)
    (hlast : ∀ r, Solo tid S call anyPoint Q m (.clearSecond r)) :
    Solo tid S call anyPoint Q m p := by
  have hsafe {m' : Memory τ} {v : View} {k : Attempt} : Solo tid S call anyPoint Q m' (.safe v k) :=
    solo_safes hq
  have hcheck {v : View} : Solo tid S call anyPoint Q m (checkEdge S call (m.cache S tid) v) :=
    solo_checkEdge hq hroom
  have hnear (hint : Hint) (b : Address) (i : ℤ) :
      Solo tid S call anyPoint Q m (.near hint b i) := solo_near hcheck
  have hhint (x : Hint) (hx : m.Published x.buffer) :
      Solo tid S call anyPoint Q m (.hintCheck x) := by
    by_cases hc : x.count = (m.hint S).count
    · refine .skip (q := .findLocal ⟨x, true, x.buffer⟩) ?_ fun _ => ?_
      · exact solo_findLocal_any h hnear (hq.again m) ⟨hx, hx⟩
      · simp only [OFDeque.next, if_pos hc]
    · refine .skip (hq.again m) fun _ => ?_
      simp only [OFDeque.next, if_neg hc]
  by_cases hp : p.finds = true
  · exact solo_finds h hnear (hq.again m) hk hp
  cases p with
  | hintLoad => exact hq.again m
  | hintReserve x => exact .skip (hhint x hk) fun _ => rfl
  | hintCheck x => exact hhint x hk
  | failed => exact hk.elim
  | near x b i => exact hnear x b i
  | far x b i y => exact .skip hcheck fun _ => rfl
  | alloc v => exact solo_alloc hroom fun _ _ _ _ => hsafe
  | initLeft v n =>
    exact .next (fun _ => rfl) (.next (fun _ => rfl) (solo_fill_any fun _ _ => hsafe))
  | initRight v n => exact .next (fun _ => rfl) (solo_fill_any fun _ _ => hsafe)
  | fill v n i => exact solo_fill_any fun _ _ => hsafe
  | insertLink v n => exact solo_insertLink fun _ _ => hsafe
  | insertValue v n => exact .free (fun _ => rfl) fun _ => hsafe
  | reach v => exact .skip (solo_back hq) fun _ => rfl
  | back v x => exact solo_back hq
  | recheck v k => exact solo_rechecks hq
  | safe v k => exact hsafe
  | effect v k => exact solo_effects hq
  | addLocal b d r => exact solo_addLocal_any hq.finish
  | casHint x b r => exact solo_casHint_any hq.finish
  | clearFirst r => exact hq.finish m r
  | clearSecond r => exact hlast r
  | findLocal _ | findSlot _ _ | findPeek _ _ | findSealed _ _ | findReserve _ _ _
  | findValidate _ _ _ | findNeighbor _ _ _ => exact absurd rfl hp
  | _ => cases hr

end Rounds

section Start

/-- The call only has its result to return. -/
inductive Point.Ended : Point → Prop
  | first (r : Result Word) : Ended (.clearFirst r)
  | second (r : Result Word) : Ended (.clearSecond r)

variable [DecidableEq τ]

/-- From any point a call alone comes to its end or to the start of a round. -/
theorem solo_to_round (hg : Grounded tid S call m p) : Solo tid S call anyPoint
    (fun m p => (p.Ended ∨ p = .hintLoad) ∧ Grounded tid S call m p) m p := by
  have hretire {m : Memory τ} {p : Point} {n : Address} (hg : Grounded tid S call m p)
      (hr : p.retiring = some n) :
      Solo tid S call anyPoint (fun _ p => p.Ended ∨ p = .hintLoad) m p := by
    refine solo_retiring_on (fun v m' => ?_) hg.shape hg.knows.1 hr
    exact Stops.afterRemove ⟨fun _ r => .done (.inl (.first r)), fun _ => .done (.inr rfl)⟩
  refine Solo.ground ?_ hg
  cases hr : p.retiring with
  | some n => exact hretire hg hr
  | none =>
    have hfirst : Solo tid S call anyPoint (fun _ p => p.Ended ∨ p = .hintLoad ∨
        ∃ v n, p = .updThreshold v n .left) m p :=
      solo_points ⟨⟨fun _ r => .done (.inl (.first r)), fun _ => .done (.inr (.inl rfl))⟩,
        fun _ v n => .done (.inr (.inr ⟨v, n, rfl⟩))⟩ hg.shape hg.room hg.knows.1 hr
        fun r => .done (.inl (.second r))
    refine (hfirst.ground hg).trans ?_
    rintro m' p' ⟨hp | hp | ⟨v, n, rfl⟩, hg'⟩
    · exact .done (.inl hp)
    · exact .done (.inr hp)
    · exact hretire hg' rfl

end Start

end Progress
end UnboundedDeque.OFDeque
