import UnboundedDeque.OFDequeProgress

/-!
# Obstruction freedom up to a hint that leads astray

A round alone whose hint does not lead astray returns, or it unlinks a sealed buffer and
repairs the hints. The chain gets shorter each time, so the call returns. A round whose
hint leads astray changes nothing and comes back to its start.
-/
namespace UnboundedDeque.OFDeque
open StepMachine

section Obstruction

variable {τ : Type*} [BufferSize] {m m₀ : Memory τ} {S : Side} {tid : τ}
  {call : Call Word} {v : View} {b n : Address} {i : ℤ} {k : Attempt} {p : Point}
  {Q : Memory τ → Point → Prop} {s t : State τ} {f : Frame}

section Pass

/-- A slot from which a round gets on passes the check. -/
theorem Memory.Passes.check (hp : m.Passes S b i) (cache : Option Address) :
    checkEdge S call cache (m.viewAt S b i) = passEdge S call cache (m.viewAt S b i) :=
  View.Fits.check ⟨hp.notFar, hp.sealed, hp.inner, hp.first⟩ cache

variable [DecidableEq τ]

/-- A round alone comes to a slot from which it gets on. -/
theorem solo_round_passes (h : Shape m) (hlost : ¬m.Astray S (m.hint S).buffer)
    (hgo : ∀ b i, m.Passes S b i →
      Solo tid S call anyPoint Q m (passEdge S call (m.cache S tid) (m.viewAt S b i))) :
    Solo tid S call anyPoint Q m .hintLoad := by
  refine .skip (.skip (.skip (q := .findLocal ⟨m.hint S, true, (m.hint S).buffer⟩) ?_ fun _ => ?_)
    fun _ => rfl) fun _ => rfl
  · refine solo_search (fun _ _ => trivial) h rfl (h.hint S) rfl fun c i hf => ?_
    have hp : m.Passes S c i := hf.passes h hlost
    refine solo_near ?_
    change Solo tid S call anyPoint Q m (checkEdge S call (m.cache S tid) (m.viewAt S c i))
    rw [hp.check]
    exact hgo c i hp
  · simp only [OFDeque.next, if_true]

/-- The call has its result, or it has unlinked a buffer and begins to repair the hints. -/
inductive GotOn (m₀ m : Memory τ) : Point → Prop
  | ended {p : Point} (ended : p.Ended) : GotOn m₀ m p
  | unlinked (v : View) (n : Address) (shorter : m.chain.length < m₀.chain.length) :
      GotOn m₀ m (.updThreshold v n .left)

theorem solo_empty (hc : (m.slot v.buffer v.index).count = v.near.count) :
    Solo tid S call anyPoint (GotOn m₀) m (.recheck v k) :=
  .skip (q := .clearFirst .empty) (.done (.ended (.first .empty))) fun _ => by
    simp only [OFDeque.next, if_pos hc]

/-- An attempt with which a call ends. -/
theorem solo_ends (hc : m.Current₂ S v k)
    (hd : (∃ b d r, k.doneNext S v = .addLocal b d r) ∨ ∃ x b r, k.doneNext S v = .casHint x b r) :
    Solo tid S call anyPoint (GotOn m₀) m (.safe v k) := by
  have hend (m : Memory τ) (r : Result Word) :
      Solo tid S call anyPoint (GotOn m₀) m (.clearFirst r) := .done (.ended (.first r))
  refine solo_attempt hc fun w => ?_
  rcases hd with ⟨b, d, r, hd⟩ | ⟨x, b, r, hd⟩
  · rw [hd]
    exact solo_addLocal_any hend
  · rw [hd]
    exact solo_casHint_any hend

/-- Unlinking a sealed buffer makes the chain shorter. -/
theorem solo_unlinks (hg : Grounded tid S call m (.safe v (.remove n)))
    (hc : m.Current₂ S v (.remove n)) (hm : m.chain = m₀.chain) :
    Solo tid S call anyPoint (GotOn m₀) m (.safe v (.remove n)) := by
  have hsafe := hg.next (hc.next_safe ⟨(S, call), 0, 0, 0⟩)
  refine solo_attempt hc fun w => .done (.unlinked _ n ?_)
  obtain ⟨hb, hj, -⟩ := (hg.attempt hc w).1
  have hn : n ∈ m.chain := (hsafe.shape.live_joined hb hj).2
  change (m.chain.erase n).length < m₀.chain.length
  rw [← hm, List.length_erase_of_mem hn]
  exact Nat.sub_lt (List.length_pos_of_mem hn) Nat.zero_lt_one

omit [DecidableEq τ] in
/-- Both slots of an edge that has just been read are current. -/
theorem Memory.Current₂.near_far (hn : m.slot v.buffer v.index = v.near)
    (hf : m.slot v.buffer (v.index + farDirection S) = v.far)
    (hk : k.safe S v = (v.buffer, v.index, v.near))
    (ht : k.target S v = (v.buffer, v.index + farDirection S, v.far)) : m.Current₂ S v k := by
  refine ⟨by rw [hk, hn], by rw [ht, hf], .inr ?_⟩
  rw [hk, ht]
  exact fun he => farDirection_ne_zero S (add_eq_left.mp he)

omit [DecidableEq τ] in
theorem Memory.Current₂.far_near (hn : m.slot v.buffer v.index = v.near)
    (hf : m.slot v.buffer (v.index + farDirection S) = v.far)
    (hk : k.safe S v = (v.buffer, v.index + farDirection S, v.far))
    (ht : k.target S v = (v.buffer, v.index, v.near)) : m.Current₂ S v k := by
  refine ⟨by rw [hk, hf], by rw [ht, hn], .inr ?_⟩
  rw [hk, ht]
  exact fun he => farDirection_ne_zero S (left_eq_add.mp he)

omit [DecidableEq τ] in
/-- An edge at the end of a buffer and the first slot of the next one. -/
theorem Memory.Current₂.reaching {x : Slot} (hi : v.index = farValue S)
    (hn : m.slot v.buffer v.index = v.near) (hx : m.slot n (nearValue S) = x)
    (hk : k.safe S v = (v.buffer, v.index, v.near)) (ht : k.target S v = (n, nearValue S, x)) :
    m.Current₂ S v k := by
  refine ⟨by rw [hk, hn], by rw [ht, hx], .inr ?_⟩
  rw [hk, ht, hi]
  exact nearValue_ne_farValue S

section Straddle

variable {w : Word}
  (ht : m.type n (nearValue S) = farType S ∨ m.type n (nearValue S) = .sealed)
include ht

/-- A push after the back pointer test: into the empty neighbour, or it unlinks the sealed
one. -/
theorem solo_straddle_push (hg : Grounded tid S (.push w) m
      (afterBack S (.push w) (m.viewAt S b (farValue S)) n (m.slot n (nearValue S)))) :
    Solo tid S (.push w) anyPoint (GotOn m) m
      (afterBack S (.push w) (m.viewAt S b (farValue S)) n (m.slot n (nearValue S))) := by
  by_cases hf : m.type n (nearValue S) = farType S
  · have hgo : afterBack S (.push w) (m.viewAt S b (farValue S)) n (m.slot n (nearValue S)) =
        .safe (m.viewAt S b (farValue S)) (.straddle n (m.slot n (nearValue S))) := if_pos hf
    rw [hgo]
    exact solo_ends (.reaching rfl rfl rfl rfl rfl) (.inr ⟨_, _, _, rfl⟩)
  · have hs : m.type n (nearValue S) = .sealed := ht.resolve_left hf
    have hgo : afterBack S (.push w) (m.viewAt S b (farValue S)) n (m.slot n (nearValue S)) =
        .safe (m.viewAt S b (farValue S)) (.remove n) := (if_neg hf).trans (if_pos hs)
    rw [hgo] at hg ⊢
    exact solo_unlinks hg (.near_far rfl rfl rfl rfl) rfl

/-- A pop after the back pointer test: it finds the deque empty, or it seals the empty
neighbour and unlinks it. -/
theorem solo_straddle_pop (hg : Grounded tid S .pop m
      (afterBack S .pop (m.viewAt S b (farValue S)) n (m.slot n (nearValue S)))) :
    Solo tid S .pop anyPoint (GotOn m) m
      (afterBack S .pop (m.viewAt S b (farValue S)) n (m.slot n (nearValue S))) := by
  let v : View := m.viewAt S b (farValue S)
  let x : Slot := m.slot n (nearValue S)
  by_cases hf : m.type n (nearValue S) = farType S
  · by_cases he : v.near.type = nearType S ∨ v.near.type = .sealed
    · have hgo : afterBack S .pop v n x = .recheck v (.seal n x) :=
        (if_pos hf).trans (if_pos he)
      rw [hgo]
      exact solo_empty rfl
    · have hgo : afterBack S .pop v n x = .safe v (.seal n x) := (if_pos hf).trans (if_neg he)
      rw [hgo] at hg ⊢
      have hc : m.Current₂ S v (.seal n x) := .reaching rfl rfl rfl rfl rfl
      refine solo_attempt hc fun w => ?_
      have hdone : Attempt.doneNext S v (.seal n x) = .safe v.countNear (.remove n) := by
        have hnear : ¬v.countNear.near.type = nearType S := fun hn => he (.inl hn)
        simp only [Attempt.doneNext, popRemove, if_true, if_neg hnear]
      have hg' := (hg.attempt hc w).2
      rw [hdone] at hg' ⊢
      have hslot (j : ℤ) (hj : j ≠ nearValue S) : (m.attempt tid S .pop v (.seal n x) w).slot b j =
          (m.act tid (.casSafe b (farValue S))).slot b j :=
        Memory.slot_cas_ne _ _ _ _ _ _ _ (.inr hj)
      refine solo_unlinks hg' (.near_far ?_ ?_ rfl rfl) rfl
      · change (m.attempt tid S .pop v (.seal n x) w).slot b (farValue S) = _
        rw [hslot _ (nearValue_ne_farValue S).symm, slot_casSafe]
        rfl
      · change (m.attempt tid S .pop v (.seal n x) w).slot b (farValue S + farDirection S) =
          m.slot b (farValue S + farDirection S)
        rw [hslot _ ?_]
        · exact m.slot_cas_ne b b _ _ _ _ (.inr fun he => farDirection_ne_zero S
            (add_eq_left.mp he))
        · rw [farValue_add]
          exact ((inner_nearValue S).ne_farLink S).symm
  · have hs : m.type n (nearValue S) = .sealed := ht.resolve_left hf
    have hrest : afterBack S .pop v n x = popRemove S v n x := if_neg hf
    by_cases he : v.near.type = nearType S
    · have hgo : afterBack S .pop v n x = .recheck v (.remove n) :=
        hrest.trans ((if_pos hs).trans (if_pos he))
      rw [hgo]
      exact solo_empty rfl
    · have hgo : afterBack S .pop v n x = .safe v (.remove n) :=
        hrest.trans ((if_pos hs).trans (if_neg he))
      rw [hgo] at hg ⊢
      exact solo_unlinks hg (.near_far rfl rfl rfl rfl) rfl

/-- A round with the link of its edge read. -/
theorem solo_pass_reach (hl : m.IsLink b (farLink S) n) (hback : (m.slot n (nearLink S)).word = b)
    (hg : Grounded tid S call m (.reach (m.viewAt S b (farValue S)))) :
    Solo tid S call anyPoint (GotOn m) m (.reach (m.viewAt S b (farValue S))) := by
  have hword : (m.viewAt S b (farValue S)).far.word = n := by
    change (m.slot b (farValue S + farDirection S)).word = n
    rw [farValue_add]
    exact hl.2
  have hgo : Solo tid S call anyPoint (fun m' p => m' = m ∧ p =
      afterBack S call (m.viewAt S b (farValue S)) n (m.slot n (nearValue S))) m
        (.reach (m.viewAt S b (farValue S))) := solo_linked hword hback (.done ⟨rfl, rfl⟩)
  refine (hgo.ground hg).trans ?_
  rintro m' p ⟨⟨rfl, rfl⟩, hg'⟩
  cases call with
  | push w => exact solo_straddle_push ht hg'
  | pop => exact solo_straddle_pop ht hg'

end Straddle

section Edge

variable (hp : m.Passes S b i)
include hp

/-- A push at an edge without a link after it. -/
theorem solo_pass_push {w : Word}
    (hg : Grounded tid S (.push w) m (pushEdge S (m.cache S tid) (m.viewAt S b i)))
    (hf : i = farValue S → m.type b (i + farDirection S) = farType S) :
    Solo tid S (.push w) anyPoint (GotOn m) m
      (pushEdge S (m.cache S tid) (m.viewAt S b i)) := by
  by_cases hi : i = farValue S
  · have happend (n : Address) (hb : b ≠ n) (m' : Memory τ)
        (hm : ∀ c ≠ n, m'.slot c = m.slot c) :
        Solo tid S (.push w) anyPoint (GotOn m) m' (.safe (m.viewAt S b i) (.append n)) := by
      refine solo_ends (.near_far ?_ ?_ rfl rfl) (.inr ⟨_, _, _, rfl⟩)
      · exact congrFun (hm b hb) _
      · exact congrFun (hm b hb) _
    have hown : m.owner b = .published := hg.shape.owner b hp.published
    cases hc : m.cache S tid with
    | none =>
      have hgo : pushEdge S none (m.viewAt S b i) = .alloc (m.viewAt S b i) :=
        (if_neg (not_not.mpr hi)).trans (if_pos (hf hi))
      rw [hgo]
      refine solo_alloc hg.room fun m' n hn hm => happend n ?_ m' hm
      rintro rfl
      cases hown.symm.trans hn
    | some n =>
      have hgo : pushEdge S (some n) (m.viewAt S b i) = .insertLink (m.viewAt S b i) n :=
        (if_neg (not_not.mpr hi)).trans (if_pos (hf hi))
      rw [hgo]
      refine solo_insertLink fun m' hm => happend n ?_ m' hm
      rintro rfl
      cases hown.symm.trans (hg.shape.cache S tid _ hc)
  · have hgo : pushEdge S (m.cache S tid) (m.viewAt S b i) =
        .safe (m.viewAt S b i) .interiorPush := if_pos hi
    rw [hgo]
    exact solo_ends (.near_far rfl rfl rfl rfl) (.inl ⟨_, _, _, rfl⟩)

omit hp in
/-- A pop at an edge without a link after it. -/
theorem solo_pass_pop (hf : i = farValue S → m.type b (i + farDirection S) = farType S) :
    Solo tid S .pop anyPoint (GotOn m) m (popEdge S (m.viewAt S b i)) := by
  have hat {k : Attempt} (hk : k = .interiorPop ∨ k = .boundaryPop) :
      Solo tid S .pop anyPoint (GotOn m) m (if (m.viewAt S b i).near.type = nearType S
        then .recheck (m.viewAt S b i) k else .safe (m.viewAt S b i) k) := by
    split_ifs
    · exact solo_empty rfl
    · rcases hk with rfl | rfl
      · exact solo_ends (.far_near rfl rfl rfl rfl) (.inl ⟨_, _, _, rfl⟩)
      · exact solo_ends (.far_near rfl rfl rfl rfl) (.inr ⟨_, _, _, rfl⟩)
  by_cases hi : i = farValue S
  · have hfar : (m.viewAt S b i).far.type = farType S := hf hi
    have hgo : popEdge S (m.viewAt S b i) = if (m.viewAt S b i).near.type = nearType S
        then .recheck (m.viewAt S b i) .boundaryPop else .safe (m.viewAt S b i) .boundaryPop :=
      ((if_neg (not_not.mpr hi)).trans (if_neg (not_not.mpr hfar))).trans (if_pos hfar)
    rw [hgo]
    exact hat (.inr rfl)
  · have hgo : popEdge S (m.viewAt S b i) = if (m.viewAt S b i).near.type = nearType S
        then .recheck (m.viewAt S b i) .interiorPop else .safe (m.viewAt S b i) .interiorPop :=
      if_pos hi
    rw [hgo]
    exact hat (.inl rfl)

/-- From a slot from which a round gets on. -/
theorem solo_passes (hg : Grounded tid S call m (passEdge S call (m.cache S tid) (m.viewAt S b i))) :
    Solo tid S call anyPoint (GotOn m) m
      (passEdge S call (m.cache S tid) (m.viewAt S b i)) := by
  have hedge (hf : i = farValue S → m.type b (i + farDirection S) = farType S) :
      Solo tid S call anyPoint (GotOn m) m
        (passEdge S call (m.cache S tid) (m.viewAt S b i)) := by
    cases call with
    | push w => exact solo_pass_push hp hg hf
    | pop => exact solo_pass_pop hf
  by_cases hi : i = farValue S
  · subst hi
    rcases hp.last rfl with hf | ⟨n, hl, hback, ht⟩
    · refine hedge fun _ => ?_
      rw [farValue_add]
      exact hf
    · have hvalue : (m.viewAt S b (farValue S)).far.type ≠ farType S := by
        change m.type b (farValue S + farDirection S) ≠ farType S
        rw [farValue_add, hl.1]
        exact (farType_ne_value S).symm
      rw [passEdge_reach rfl hvalue] at hg ⊢
      exact solo_pass_reach ht hl hback hg
  · exact hedge fun he => absurd he hi

end Edge

/-- A round whose hint does not lead astray gets on. -/
theorem solo_gets_on (hg : Grounded tid S call m .hintLoad)
    (hlost : ¬m.Astray S (m.hint S).buffer) :
    Solo tid S call anyPoint (GotOn m) m .hintLoad := by
  have hround : Solo tid S call anyPoint (fun m' p => m' = m ∧ ∃ b i, m.Passes S b i ∧
      p = passEdge S call (m.cache S tid) (m.viewAt S b i)) m .hintLoad :=
    solo_round_passes hg.shape hlost fun b i hp => .done ⟨rfl, b, i, hp, rfl⟩
  refine (hround.ground hg).trans ?_
  rintro m' p ⟨⟨rfl, b, i, hp, rfl⟩, hg'⟩
  exact solo_passes hp hg'

end Pass

section Returns

variable [DecidableEq τ]

/-- A round whose hint does not lead astray comes to the end of the call. -/
theorem solo_returns (hg : Grounded tid S call m .hintLoad)
    (hlost : ¬m.Astray S (m.hint S).buffer) :
    Solo tid S call anyPoint (fun _ p => p.Ended) m .hintLoad := by
  induction hk : m.chain.length using Nat.strong_induction_on generalizing m with
  | _ k ih =>
    refine ((solo_gets_on hg hlost).ground hg).trans ?_
    rintro m₁ p ⟨hp | ⟨v, n, hlt⟩, hg₁⟩
    · exact .done hp
    -- the buffer is unlinked, and both hints are live before the next round
    · have hretire : Solo tid S call anyPoint (fun m' p => p.Ended ∨ p = .hintLoad ∧
          m'.chain = m₁.chain ∧ (m'.hint S).buffer ∈ m'.chain) m₁ (.updThreshold v n .left) := by
        refine solo_retire hg₁.shape fun m₂ h₂ => ?_
        refine solo_afterRemove
          (P := fun m' => m'.chain = m₁.chain ∧ (m'.hint S).buffer ∈ m'.chain)
          (fun _ r => .done (.inl (.first r))) (fun m' hm => .done (.inr ⟨rfl, hm⟩))
          (fun _ _ _ hm => hm) ⟨h₂.chain, ?_⟩
        rw [h₂.chain]
        exact h₂.hint S
      refine (hretire.ground hg₁).trans ?_
      rintro m' p ⟨hp | ⟨rfl, hchain, hlive⟩, hg'⟩
      · exact .done hp
      · refine ih m'.chain.length ?_ hg' (fun ha => ?_) rfl
        · rw [hchain, ← hk]
          exact hlt
        · exact not_dead_of_live hg'.shape hlive ha.dead

/-- From any point a call alone comes to its end or to a hint that leads astray. -/
theorem solo_any (hg : Grounded tid S call m p) : Solo tid S call anyPoint
    (fun m p => p.Ended ∨ p = .hintLoad ∧ m.Astray S (m.hint S).buffer) m p := by
  refine (solo_to_round hg).trans ?_
  rintro m' p' ⟨hp | rfl, hg'⟩
  · exact .done (.inl hp)
  · by_cases hlost : m'.Astray S (m'.hint S).buffer
    · exact .done (.inr ⟨rfl, hlost⟩)
    · exact (solo_returns hg' hlost).trans fun _ _ hp => .done (.inl hp)

/-- A round whose hint leads astray comes back to its start and changes nothing. -/
theorem solo_back_to_start (h : Shape m) (hlost : m.Astray S (m.hint S).buffer) :
    Solo tid S call anyPoint (fun m' p => m' = m ∧ p = .hintLoad) m (.hintReserve (m.hint S)) := by
  refine .skip (.skip (q := .findLocal ⟨m.hint S, true, (m.hint S).buffer⟩) ?_ fun _ => ?_)
    fun _ => rfl
  · refine solo_search (fun _ _ => trivial) h rfl (h.hint S) rfl fun c i hf => ?_
    obtain ⟨rfl, n, hs⟩ := hf.stuck h hlost
    exact solo_stuck hs (.done ⟨rfl, rfl⟩)
  · simp only [OFDeque.next, if_true]

end Returns

section Machine

variable [DecidableEq τ]

/-- The thread alone returns from its call. -/
def State.ReturnsAlone (s : State τ) (tid : τ) : Prop :=
  (machine τ).Leads (fun a => a.1 = tid) (fun _ => True) (fun t => t.frames tid = none) s

/-- The thread is about to load a hint that leads astray. -/
def State.Misled (s : State τ) (tid : τ) : Prop :=
  ∃ f, s.frames tid = some f ∧ f.point = .hintLoad ∧
    s.mem.Astray f.side (s.mem.hint f.side).buffer

/-- In a reachable state finitely many addresses are in use. -/
theorem room_of_reachable (h : (machine τ).Reachable s) : {n | s.mem.owner n ≠ .unused}.Finite := by
  apply h.invariant (P := fun s => {n | s.mem.owner n ≠ .unused}.Finite)
  · intro s hs
    obtain ⟨b, -, -, hrest, -⟩ := hs.mem.buffer
    apply (Set.finite_singleton b).subset
    intro c hc
    by_contra hne
    exact hc (hrest c hne)
  · rintro ⟨k, c⟩ s t - hs - hstep
    rcases step_cases hstep with ⟨-, rfl⟩ | ⟨f, a, o, hf, hn, rfl⟩
    · exact hs
    · exact room_act hs a

theorem grounded_of_reachable (h : (machine τ).Reachable s) (hf : s.frames tid = some f) :
    Grounded tid f.side f.call s.mem f.point := by
  have hi := run_inv h
  exact ⟨hi.shape, hi.clean, room_of_reachable h, hi.facts tid f hf, hi.permit tid f hf⟩

/-- A call that has its result returns. -/
theorem leads_ended {Q : State τ → Prop} (hf : s.frames tid = some f) (hp : f.point.Ended)
    (hq : ∀ t, t.frames tid = none → Q t) :
    (machine τ).Leads (fun a => a.1 = tid) (fun _ => True) Q s := by
  have hwho : ∃ a : τ × Choice, a.1 = tid := ⟨(tid, ⟨(f.side, f.call), 0, 0, 0⟩), rfl⟩
  have hlast {s : State τ} {f : Frame} {r : Result Word} (hf : s.frames tid = some f)
      (hp : f.point = .clearSecond r) :
      (machine τ).Leads (fun a => a.1 = tid) (fun _ => True) Q s := by
    refine .forced (t := ⟨s.mem, Function.update s.frames tid none⟩) trivial hwho ?_ ?_
    · rintro ⟨k, c⟩ rfl
      simp only [machine, OFDeque.step, hf, hp, OFDeque.next, Option.map_some, Option.map_none]
      rfl
    · exact .done (hq _ (Function.update_self _ _ _))
  generalize hr : f.point = p at hp
  cases hp with
  | first r =>
    refine .forced (t := ⟨s.mem, Function.update s.frames tid
      (some { f with point := .clearSecond r })⟩) trivial hwho ?_ ?_
    · rintro ⟨k, c⟩ rfl
      simp only [machine, OFDeque.step, hf, hr, OFDeque.next, Option.map_some]
      rfl
    · exact hlast (Function.update_self _ _ _) rfl
  | second r => exact hlast hf hr

/-- A thread alone comes to its return or to a hint that leads astray. -/
theorem leads_or_misled (h : (machine τ).Reachable s) (hf : s.frames tid = some f) :
    (machine τ).Leads (fun a => a.1 = tid) (fun _ => True)
      (fun t => t.frames tid = none ∨ t.Misled tid) s := by
  have hsolo := solo_any (grounded_of_reachable h hf)
  apply ((leads_of_solo hf hsolo).through fun _ _ => trivial).trans
  rintro t ⟨p, ht, hp⟩
  have hft : t.frames tid = some { f with point := p } := by rw [ht, Function.update_self]
  rcases hp with hp | ⟨rfl, hlost⟩
  · exact leads_ended hft hp fun u hu => .inl hu
  · exact .done (.inr ⟨_, hft, rfl, hlost⟩)

/-- A thread alone whose hint leads astray does not return. -/
theorem misled_forever (h : Shape s.mem) (hs : s.Misled tid) : ¬s.ReturnsAlone tid := by
  obtain ⟨f, hf, hp, hlost⟩ := hs
  refine Machine.Leads.not_of_back (B := fun t => t.mem = s.mem ∧ t.frames tid = some f) ?_
    (.done ⟨rfl, hf⟩)
  rintro t ⟨hm, hft⟩
  refine ⟨by rw [hft]; exact Option.some_ne_none f, ?_⟩
  rintro ⟨k, c⟩ u rfl hu
  obtain rfl : u = ⟨s.mem, Function.update t.frames k
      (some { f with point := .hintReserve (s.mem.hint f.side) })⟩ := by
    simp only [machine, OFDeque.step, hft, hp, OFDeque.next, Option.map_some, Option.some.injEq,
      hm] at hu
    exact hu.symm
  have hback := leads_of_solo (f := { f with point := .hintReserve (s.mem.hint f.side) })
    (s := ⟨s.mem, Function.update t.frames k
      (some { f with point := .hintReserve (s.mem.hint f.side) })⟩) (Function.update_self _ _ _)
    (solo_back_to_start h hlost)
  refine (hback.through ?_).mono ?_
  · rintro w ⟨g, hg, -⟩
    rw [hg]
    exact Option.some_ne_none g
  · rintro w ⟨p, hw, hmw, rfl⟩
    refine ⟨hmw, ?_⟩
    rw [hw, Function.update_self, ← hp]

/-- A thread at the start of a round returns unless its hint leads astray. -/
theorem returns_iff_not_misled (h : (machine τ).Reachable s) (hf : s.frames tid = some f)
    (hp : f.point = .hintLoad) : s.ReturnsAlone tid ↔ ¬s.Misled tid := by
  refine ⟨fun hr hm => misled_forever (run_inv h).shape hm hr, fun hm => ?_⟩
  have hg := grounded_of_reachable h hf
  rw [hp] at hg
  have hlost : ¬s.mem.Astray f.side (s.mem.hint f.side).buffer := fun ha => hm ⟨f, hf, hp, ha⟩
  have hsolo := solo_returns hg hlost
  rw [← hp] at hsolo
  apply ((leads_of_solo hf hsolo).through fun _ _ => trivial).trans
  rintro t ⟨p, ht, hp⟩
  refine leads_ended (f := { f with point := p }) ?_ hp fun _ hu => hu
  rw [ht, Function.update_self]

theorem exists_start (hf : s.frames tid = none) (c : Choice) :
    ∃ t, (machine τ).step (tid, c) s = some t := by
  simp only [machine, OFDeque.step, hf]
  exact ⟨_, rfl⟩

theorem started (hf : s.frames tid = none) {c : Choice}
    (hs : (machine τ).step (tid, c) s = some t) :
    t.mem = s.mem ∧ t.frames tid = some ⟨c.call.1, c.call.2, .hintLoad⟩ := by
  rcases step_cases hs with ⟨-, rfl⟩ | ⟨g, a, o, hg, -⟩
  · exact ⟨rfl, Function.update_self _ _ _⟩
  · cases hf.symm.trans hg

/-- The next call of an idle thread returns unless the hint of its side leads astray. -/
theorem started_returns_iff (h : (machine τ).Reachable s) (hf : s.frames tid = none) {c : Choice}
    (hs : (machine τ).step (tid, c) s = some t) :
    t.ReturnsAlone tid ↔ ¬s.mem.Astray c.call.1 (s.mem.hint c.call.1).buffer := by
  obtain ⟨hm, hft⟩ := started hf hs
  refine (returns_iff_not_misled (h.step trivial hs) hft rfl).trans (not_congr ?_)
  constructor
  · rintro ⟨g, hg, -, ha⟩
    obtain rfl := Option.some.inj (hft.symm.trans hg)
    rwa [hm] at ha
  · intro ha
    refine ⟨_, hft, rfl, ?_⟩
    rwa [hm]

/-- From any reachable state a thread alone returns from the call it is in, if and only if
it loads no hint on its way that leads astray. The next call of an idle thread returns, if
and only if the hint of its side does not lead astray. -/
theorem returns_unless_misled (h : (machine τ).Reachable s) (tid : τ) :
    (s.frames tid ≠ none → (s.ReturnsAlone tid ↔
      ∀ l t, (machine τ).exec (fun a u => a.1 = tid ∧ (u.frames tid).isSome) l s = some t →
        ¬t.Misled tid)) ∧
    ∀ c t, s.frames tid = none → (machine τ).step (tid, c) s = some t →
      (t.ReturnsAlone tid ↔ ¬s.mem.Astray c.call.1 (s.mem.hint c.call.1).buffer) := by
  constructor
  · intro hf
    obtain ⟨f, hf⟩ := Option.ne_none_iff_exists'.mp hf
    constructor
    · intro hr l t he hm
      have ht : (machine τ).Reachable t := h.exec_stronger (fun _ _ _ => trivial) he
      refine misled_forever (run_inv ht).shape hm (hr.along (fun a u ha => ⟨ha.1, ?_⟩) he)
      intro hu
      rw [hu] at ha
      cases ha.2
    · intro hq
      refine (leads_or_misled h hf).unless (fun a u ha hu => ⟨ha, ?_⟩) hq
      exact Option.isSome_iff_ne_none.mpr hu
  · exact fun c t hf hs => started_returns_iff h hf hs

end Machine

end Obstruction

section Misled

attribute [local instance] four

/-- Thread 0 has appended a buffer and is about to move the left hint to it. Thread 1 has
unlinked the buffer this hint names and is about to move the hints off it. Thread 2 has
popped the last value. -/
def hintLeftBehind : State ℕ :=
  ((machine ℕ).exec (fun _ _ => True) (steps 14 0 .left (.push 11) 1 ++
    steps 21 0 .left (.push 12) 1 ++ List.replicate 32 (1, ⟨(.right, .pop), 1, 7, 0⟩) ++
    steps 20 2 .left .pop 2) (constructed ℕ)).getD (constructed ℕ)

theorem reachable_hintLeftBehind : (machine ℕ).Reachable hintLeftBehind :=
  Machine.Run.exec_getD _ (.start init_constructed)

/-- The neighbour of the unlinked buffer is empty and does not link back. -/
theorem left_astray : hintLeftBehind.mem.Astray .left 0 :=
  .far (n := 1) ⟨by decide +kernel, by decide +kernel, by decide +kernel, by decide +kernel⟩
    (by decide +kernel) (by decide +kernel)

theorem right_not_astray : ¬hintLeftBehind.mem.Astray .right 0 :=
  not_astray_of_last (n := 1) (by decide +kernel) (by decide +kernel) (by decide +kernel)
    (by decide +kernel)

/-- Of the next calls of thread 2 a push on the right returns, and one on the left does
not. -/
theorem hintLeftBehind_calls : hintLeftBehind.frames 2 = none ∧
    (∀ c t, c.call = (.right, .push 13) → (machine ℕ).step (2, c) hintLeftBehind = some t →
      t.ReturnsAlone 2) ∧
    ∀ c t, c.call = (.left, .push 13) → (machine ℕ).step (2, c) hintLeftBehind = some t →
      ¬t.ReturnsAlone 2 := by
  have hidle : hintLeftBehind.frames 2 = none := Option.isNone_iff_eq_none.mp (by decide +kernel)
  have hhint (S : Side) : (hintLeftBehind.mem.hint S).buffer = 0 := by
    cases S <;> decide +kernel
  have hcalls := (returns_unless_misled reachable_hintLeftBehind 2).2
  refine ⟨hidle, fun c t hc hs => ?_, fun c t hc hs hr => ?_⟩
  · refine (hcalls c t hidle hs).mpr ?_
    rw [hhint, hc]
    exact right_not_astray
  · refine (hcalls c t hidle hs).mp hr ?_
    rw [hhint, hc]
    exact left_astray

/-- The deque is not obstruction-free. -/
theorem alone_forever : ¬∀ s, (machine ℕ).Reachable s → ∀ tid, s.ReturnsAlone tid := by
  intro h
  have hidle : hintLeftBehind.frames 2 = none := Option.isNone_iff_eq_none.mp (by decide +kernel)
  have hhint : (hintLeftBehind.mem.hint .left).buffer = 0 := by decide +kernel
  obtain ⟨t, hs⟩ := exists_start hidle ⟨(.left, .push 13), 2, 0, 0⟩
  have ht : (machine ℕ).Reachable t := reachable_hintLeftBehind.step trivial hs
  refine (started_returns_iff reachable_hintLeftBehind hidle hs).mp (h t ht 2) ?_
  rw [hhint]
  exact left_astray

end Misled
end UnboundedDeque.OFDeque
