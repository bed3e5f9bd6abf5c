import UnboundedDeque.OFDequeRecycling
import UnboundedDeque.OFDequeWraparound

/-!
# Compare-exchanges that come too late

A thread is paused while others push and pop `2 ^ 30` times at an end, or while the pool
frees a buffer and hands it out again. Its compare-exchange then succeeds on a slot that has
come back to its old contents.
-/
namespace UnboundedDeque.OFDeque
open StepMachine

section Bits

variable {τ : Type*}

theorem View.wrap_wrap (v : View) : v.wrap.wrap = v.wrap := by
  simp only [View.wrap, Slot.wrap_wrap]

theorem Attempt.wrap_wrap (k : Attempt) : k.wrap.wrap = k.wrap := by
  cases k <;> simp only [Attempt.wrap, Slot.wrap_wrap]

theorem Point.wrap_wrap (p : Point) : p.wrap.wrap = p.wrap := by
  cases p <;> simp only [Point.wrap, View.wrap_wrap, Attempt.wrap_wrap, Slot.wrap_wrap]

theorem Frame.wrap_wrap (f : Frame) : f.wrap.wrap = f.wrap := by
  simp only [Frame.wrap, Point.wrap_wrap]

/-- All counts, also the ones that threads have read, have their bits. -/
def State.Cut (s : State τ) : Prop := s.wrap = s

theorem State.wrap_wrap (s : State τ) : s.wrap.Cut := by
  simp only [State.Cut, State.wrap, Memory.wrap_wrap, Option.map_map, Function.comp_def,
    Frame.wrap_wrap]

variable {s : State τ}

theorem State.Cut.mem (h : s.Cut) : s.mem.Cut := congrArg State.mem h

theorem State.Cut.frames (h : s.Cut) (tid : τ) : (s.frames tid).map Frame.wrap = s.frames tid :=
  congrFun (congrArg State.frames h) tid

variable [DecidableEq τ] [BufferSize]

theorem run_cut (h : (wrapped τ).Reachable s) : s.Cut := by
  apply h.invariant
  · intro s ⟨hinit, hcount⟩
    obtain ⟨b, -, -, -, hhint, -⟩ := hinit.mem.buffer
    have hslot (b : Address) (i : ℤ) : (s.mem.slot b i).wrap = s.mem.slot b i := by
      rw [Slot.wrap, Nat.mod_eq_of_lt (hcount b i)]
    have hzero (S : Side) : (s.mem.hint S).wrap = s.mem.hint S := by
      rw [hhint, Hint.wrap, Nat.zero_mod]
    have hmem : s.mem.wrap = s.mem := by
      simp only [Memory.wrap, hslot, hzero]
    have hframes : (fun tid => (s.frames tid).map Frame.wrap) = s.frames := by
      funext tid
      rw [hinit.frames, Option.map_none]
    rw [State.Cut, State.wrap, hmem, hframes]
  · intro a s t _ _ _ hs
    obtain ⟨t', -, rfl⟩ := Option.map_eq_some_iff.mp hs
    exact t'.wrap_wrap

/-- Every run has its account. -/
theorem exists_notes (h : (wrapped τ).Reachable s) : ∃ k, (versioned τ).Reachable (s, k) := by
  apply h.invariant
  · intro s hs
    exact ⟨_, .start ⟨hs, rfl⟩⟩
  · intro a s t _ ⟨k, hk⟩ _ hs
    exact ⟨_, hk.step (a := a) trivial (Machine.account_step.mpr ⟨hs, rfl⟩)⟩

end Bits

section Cycle

variable {α : Type*} {f : α → Option α} {b c : α}

/-- Two places that lead to each other are never left. -/
theorem mem_cycle (hb : f b = some c) (hc : f c = some b) {l : List α}
    (h : (b :: l).IsChain fun x y => f x = some y) : ∀ e ∈ b :: l, e = b ∨ e = c := by
  induction l generalizing b c with
  | nil => exact fun e he => .inl (List.mem_singleton.mp he)
  | cons d l ih =>
    obtain ⟨hd, hl⟩ := List.isChain_cons_cons.mp h
    obtain rfl : c = d := Option.some.inj (hb.symm.trans hd)
    intro e he
    rcases List.mem_cons.mp he with rfl | he
    · exact .inl rfl
    · exact (ih hc hb hl e he).symm

end Cycle

section Rounds

variable {τ : Type*} {m : Memory τ} {s : State τ} {S : Side}
  {b c : Address} {i j l : ℤ} {tid : τ} {n : ℕ} {w : Word} {t : SlotType} {δ : ℤ}
  {f : ℤ → Slot}

/-- The slots of a buffer after a number of rounds between two interior edges. -/
def spunSlot (S : Side) (i : ℤ) (n : ℕ) (f : ℤ → Slot) (j : ℤ) : Slot :=
  if j = i then ⟨(f j).word, ((f j).count + n) % countBound, (f j).type⟩
  else if j = i + farDirection S then ⟨0, ((f j).count + 2 * n) % countBound, farType S⟩
  else if j = i + farDirection S + farDirection S then
    ⟨(f j).word, ((f j).count + n) % countBound, (f j).type⟩
  else f j

/-- The memory after a number of rounds. -/
def Memory.spun (m : Memory τ) (S : Side) (b : Address) (i : ℤ) (n : ℕ) : Memory τ :=
  { m with slot := Function.update m.slot b (spunSlot S i n (m.slot b)) }

theorem spunSlot_succ : spunSlot S i 1 (spunSlot S i n f) = spunSlot S i (n + 1) f := by
  funext j
  unfold spunSlot
  split_ifs <;> simp only [Nat.mod_add_mod, Nat.add_assoc, Nat.mul_add]

theorem Memory.spun_succ : (m.spun S b i n).spun S b i 1 = m.spun S b i (n + 1) := by
  simp only [Memory.spun, Function.update_self, Function.update_idem, spunSlot_succ]

/-- The slot the second compare-exchange of an interior call stores to. -/
theorem Memory.stepped_slot_second (hne : j ≠ i) : (m.stepped S b i j w t δ).wrap.slot b j =
    ⟨w, ((m.slot b j).count + 1) % countBound, t⟩ := by
  have hslot : (m.stepped S b i j w t δ).slot b j = ⟨w, (m.slot b j).count + 1, t⟩ := by
    refine (Memory.slot_cas _ b j w t).trans ?_
    rw [Memory.slot_cas_ne _ _ _ _ _ _ _ (.inr hne)]
  rw [Memory.slot_wrap, hslot, Slot.wrap]

theorem Memory.stepped_slot_buffer (hm : m.Cut) (hc : c ≠ b) :
    (m.stepped S b i j w t δ).wrap.slot c l = m.slot c l := by
  have hslot : (m.stepped S b i j w t δ).slot c l = m.slot c l := by
    refine (Memory.slot_cas_ne _ b c j l w t (.inl hc)).trans ?_
    exact m.slot_cas_ne b c i l _ _ (.inl hc)
  rw [Memory.slot_wrap, hslot, hm.slot]

variable [BufferSize]

theorem Memory.Swings.spun_zero (h : m.Swings S b i)
    (hw : (m.slot b (i + farDirection S)).word = 0) : m.spun S b i 0 = m := by
  have hslot : spunSlot S i 0 (m.slot b) = m.slot b := by
    funext j
    have hcount : (m.slot b j).count % countBound = (m.slot b j).count :=
      congrArg Slot.count (h.cut.slot b j)
    unfold spunSlot
    split_ifs with h₀ h₁ h₂
    · rw [Nat.add_zero, hcount]
    · rw [Nat.mul_zero, Nat.add_zero, hcount, h₁, ← hw, ← h.far]
    · rw [Nat.add_zero, hcount]
    · rfl
  rw [Memory.spun, hslot, Function.update_eq_self]

/-- The slots after one round. -/
theorem Memory.Swings.slot_swung (h : m.Swings S b i) : (m.swung S b i w).slot b =
    spunSlot S i 1 (m.slot b) := by
  have hcut : (m.pushed S b i w).Cut := Memory.cut_wrap _
  have hfar : i + farDirection S ≠ i := (index_ne_far S i).symm
  have hbeyond : i + farDirection S + farDirection S ≠ i + farDirection S :=
    (index_ne_far S _).symm
  have htwice : i + farDirection S + farDirection S ≠ i := by
    cases S <;> simp only [farDirection] <;> omega
  funext j
  unfold spunSlot
  split_ifs with h₀ h₁ h₂
  · rw [h₀]
    exact (h.swung w).2
  · rw [h₁, Memory.swung, Memory.stepped_slot_second hbeyond.symm, Memory.pushed,
      Memory.stepped_slot_second hfar, Nat.mod_add_mod]
  · rw [h₂, Memory.swung, Memory.stepped_slot_first hbeyond.symm, Memory.pushed,
      Memory.stepped_slot_other h.cut htwice hbeyond]
  · rw [Memory.swung, Memory.stepped_slot_other hcut h₂ h₁, Memory.pushed,
      Memory.stepped_slot_other h.cut h₀ h₁]

theorem Memory.Swings.swung_eq (h : m.Swings S b i) : m.swung S b i w = m.spun S b i 1 := by
  have hcut : (m.pushed S b i w).Cut := Memory.cut_wrap _
  have hslot : (m.swung S b i w).slot = (m.spun S b i 1).slot := by
    funext c j
    by_cases hc : c = b
    · rw [hc, h.slot_swung]
      exact (congrFun (Function.update_self b _ m.slot) j).symm
    · rw [Memory.swung, Memory.stepped_slot_buffer hcut hc, Memory.pushed,
        Memory.stepped_slot_buffer h.cut hc]
      exact (congrFun (Function.update_of_ne hc _ m.slot) j).symm
  have hlocal : (m.swung S b i w).localHint = m.localHint := by
    simp only [Memory.swung, Memory.pushed, Memory.stepped, Memory.wrap, Function.update_self,
      Function.update_idem, Int.add_neg_cancel_right, Function.update_eq_self]
  have hhint : (m.swung S b i w).hint = m.hint := by
    funext R
    have hpush : (m.pushed S b i w).hint R = m.hint R := h.cut.hint R
    exact (hcut.hint R).trans hpush
  exact congrArg₂ (fun x y => { m with slot := x.1, localHint := x.2, hint := y })
    (congrArg₂ Prod.mk hslot hlocal) hhint

/-- The calls at an end can swing any number of times. -/
theorem Memory.Swings.spun (h : m.Swings S b i)
    (hw : (m.slot b (i + farDirection S)).word = 0) (n : ℕ) : (m.spun S b i n).Swings S b i := by
  induction n with
  | zero => rwa [h.spun_zero hw]
  | succ n ih =>
    rw [← Memory.spun_succ, ← ih.swung_eq (w := 0)]
    exact (ih.swung 0).1

variable [DecidableEq τ]

/-- Another thread can do any number of rounds while the threads in a call do not move. -/
theorem reachable_spun (h : (wrapped τ).Reachable s) (hs : s.mem.Swings S b i)
    (hw : (s.mem.slot b (i + farDirection S)).word = 0) (hidle : s.frames tid = none) (n : ℕ) :
    (wrapped τ).Reachable ⟨s.mem.spun S b i n, s.frames⟩ := by
  induction n with
  | zero => rwa [hs.spun_zero hw]
  | succ n ih =>
    have hspun : (s.mem.spun S b i n).Swings S b i := hs.spun hw n
    obtain ⟨k, hk⟩ := exists_notes ih
    obtain ⟨k', hrun, -⟩ := hspun.round hk (run_cut h).frames hidle 0
    rw [← Memory.spun_succ, ← hspun.swung_eq (w := 0)]
    exact hrun.reachable_of_account

end Rounds

section Runs

attribute [local instance] five

/-- Steps of a thread where `alloc` returns 1. -/
def goes (n tid : ℕ) (S : Side) (call : Call Word) : List (ℕ × Choice) := steps n tid S call 1

def after (l : List (ℕ × Choice)) (s : State ℕ) : State ℕ :=
  ((wrapped ℕ).exec (fun _ _ => True) l s).getD s

theorem reachable_after {s : State ℕ} (h : (wrapped ℕ).Reachable s) (l : List (ℕ × Choice)) :
    (wrapped ℕ).Reachable (after l s) := Machine.Run.exec_getD l h

theorem init_wrapped : (wrapped ℕ).Reachable (constructed ℕ) :=
  .start ⟨init_constructed, fun _ _ => Nat.two_pow_pos 30⟩

/-- A thread of five. -/
def thread (tid : ℕ) : Fin 5 := ⟨tid % 5, Nat.mod_lt tid (by decide)⟩

/-- Steps of a thread of five with what they leave open. -/
def uses (n tid : ℕ) (S : Side) (call : Call Word) (b : Address) (count : ℕ) :
    List (Fin 5 × Choice) :=
  List.replicate n (thread tid, ⟨(S, call), b, 0, count⟩)

def afterwards (l : List (Fin 5 × Choice)) (u : Pooled 5) : Pooled 5 :=
  ((recycling 5).exec (fun _ _ => True) l u).getD u

theorem reachable_afterwards {u : Pooled 5} (h : (recycling 5).Reachable u)
    (l : List (Fin 5 × Choice)) : (recycling 5).Reachable (afterwards l u) :=
  Machine.Run.exec_getD l h

/-- A buffer is appended and emptied, and a pop unlinks it. -/
def appendAndUnlink (b : Address) (l : ℕ) : List (Fin 5 × Choice) :=
  uses 15 1 .right (.push 8) b 0 ++ uses 25 1 .right (.push 9) b 0 ++ uses 14 1 .right .pop b 0 ++
    uses l 1 .right .pop b 0

/-- Thread 0 has found the right end before buffer 1 was appended, and is about to change a
slot of this buffer. The buffer has been unlinked and freed since. -/
def freed (call : Call Word) : Pooled 5 :=
  afterwards (uses 14 1 .right (.push 7) 1 0 ++ uses 14 1 .right (.push 8) 1 0 ++
    uses 7 0 .right call 1 0 ++ uses 25 1 .right (.push 9) 1 10 ++ uses 14 1 .right .pop 1 0 ++
    uses 5 0 .right call 1 0 ++ uses 54 1 .right .pop 1 0 ++ appendAndUnlink 2 54 ++
    appendAndUnlink 3 69) ⟨constructed (Fin 5), .initial⟩

theorem reachable_freed (call : Call Word) : (recycling 5).Reachable (freed call) :=
  reachable_afterwards (.start ⟨init_constructed, rfl⟩) _

section Content

/-- Thread 0 is about to take the value 7 from the right end. -/
def takingSeven : State ℕ :=
  after (goes 14 1 .left (.push 7) ++ goes 10 0 .right .pop) (constructed ℕ)

theorem reachable_takingSeven : (wrapped ℕ).Reachable takingSeven :=
  reachable_after init_wrapped _

/-- The value 8 is at the right end after as many rounds as bring the slot of 7 back. -/
def sevenNotLast : State ℕ :=
  after (goes 14 1 .right (.push 8))
    ⟨takingSeven.mem.spun .right 0 1 (countBound - 1), takingSeven.frames⟩

/-- Both states, evaluated. -/
theorem takingSeven_facts : (takingSeven.mem.SwingsAt .right 0 1 ∧
    (takingSeven.mem.slot 0 (1 + farDirection .right)).word = 0 ∧
    (takingSeven.frames 1).isNone) ∧
    sevenNotLast.effect 0 = some (.remove .right 7) ∧ sevenNotLast.mem.content = [7, 8] ∧
      ((wrapped ℕ).step (0, ⟨(.right, .pop), 0, 0, 0⟩) sevenNotLast).map (·.mem.content) =
        some [8] := by decide +kernel

theorem takingSeven_swings : takingSeven.mem.Swings .right 0 1 ∧
    (takingSeven.mem.slot 0 (1 + farDirection .right)).word = 0 ∧ takingSeven.frames 1 = none := by
  obtain ⟨⟨hat, hword, hidle⟩, -⟩ := takingSeven_facts
  exact ⟨⟨hat, (run_cut reachable_takingSeven).mem⟩, hword, Option.isNone_iff_eq_none.mp hidle⟩

/-- With counts of 30 bits a pop at the right end removes the value at the left end. -/
theorem pop_takes_other_end : ∃ s t : State ℕ, (wrapped ℕ).Reachable s ∧
    (wrapped ℕ).step (0, ⟨(.right, .pop), 0, 0, 0⟩) s = some t ∧
    s.effect 0 = some (.remove .right 7) ∧ s.mem.content = [7, 8] ∧ t.mem.content = [8] := by
  obtain ⟨hswings, hword, hidle⟩ := takingSeven_swings
  have hrun : (wrapped ℕ).Reachable sevenNotLast :=
    reachable_after (reachable_spun reachable_takingSeven hswings hword hidle _) _
  obtain ⟨-, heffect, hcontent, hmap⟩ := takingSeven_facts
  obtain ⟨t, ht, hlast⟩ := Option.map_eq_some_iff.mp hmap
  exact ⟨sevenNotLast, t, hrun, ht, heffect, hcontent, hlast⟩

/-- Buffer 1 is prepared to be appended again. -/
def preparedAgain : Pooled 5 :=
  afterwards (uses 15 1 .right (.push 8) 1 0 ++ uses 19 1 .right (.push 9) 1 11)
    (freed (.push 20))

/-- Where the pool hands a buffer out again, a push stores its value to a buffer that is not
in the deque. -/
theorem push_not_in_deque : ∃ u u' : Pooled 5, (recycling 5).Reachable u ∧
    (recycling 5).step (thread 0, ⟨(.right, .push 20), 1, 0, 0⟩) u = some u' ∧
    u.deque.effect (thread 0) = some (.add .right 20) ∧
    u.deque.mem.content = [7, 8] ∧ u'.deque.mem.content = [7, 8] := by
  have hrun : (recycling 5).Reachable preparedAgain :=
    reachable_afterwards (reachable_freed _) _
  have hstep : preparedAgain.deque.effect (thread 0) = some (.add .right 20) ∧
      preparedAgain.deque.mem.content = [7, 8] ∧
      ((recycling 5).step (thread 0, ⟨(.right, .push 20), 1, 0, 0⟩) preparedAgain).map
        (·.deque.mem.content) = some [7, 8] := by decide +kernel
  obtain ⟨heffect, hcontent, hmap⟩ := hstep
  obtain ⟨u', hu, hlast⟩ := Option.map_eq_some_iff.mp hmap
  exact ⟨preparedAgain, u', hrun, hu, heffect, hcontent, hlast⟩

/-- With counts of 30 bits, and where buffers are handed out again, a compare-exchange does
not do to the content what the call is for. -/
theorem effects_go_astray :
    (∃ s t : State ℕ, (wrapped ℕ).Reachable s ∧
      (wrapped ℕ).step (0, ⟨(.right, .pop), 0, 0, 0⟩) s = some t ∧
      s.effect 0 = some (.remove .right 7) ∧ s.mem.content = [7, 8] ∧ t.mem.content = [8]) ∧
    ∃ u u' : Pooled 5, (recycling 5).Reachable u ∧
      (recycling 5).step (thread 0, ⟨(.right, .push 20), 1, 0, 0⟩) u = some u' ∧
      u.deque.effect (thread 0) = some (.add .right 20) ∧
      u.deque.mem.content = [7, 8] ∧ u'.deque.mem.content = [7, 8] :=
  ⟨pop_takes_other_end, push_not_in_deque⟩

end Content

section Sealed

/-- Thread 0 is about to seal the empty buffer 1, thread 3 has found the left end in it, and
thread 2 is about to unlink buffer 0, which it has sealed. Buffer 1 holds the value 10. -/
def sealing : State ℕ :=
  after (goes 14 1 .right (.push 7) ++ goes 14 1 .right (.push 8) ++ goes 25 1 .right (.push 9) ++
    goes 14 1 .right .pop ++ goes 15 0 .right .pop ++ goes 19 1 .right (.push 10) ++
    goes 14 1 .right (.push 11) ++ goes 16 1 .right (.push 12) ++ goes 16 1 .right .pop ++
    goes 14 1 .right .pop ++ goes 28 1 .left .pop ++ goes 10 3 .left .pop ++
    goes 17 2 .left .pop) (constructed ℕ)

theorem reachable_sealing : (wrapped ℕ).Reachable sealing :=
  reachable_after init_wrapped _

/-- The pop of 10 brings the slot back that thread 0 expects. Thread 4, which has read the
links between the buffers, sees buffer 1 sealed by thread 0. -/
def bothSealed : State ℕ :=
  after (goes 14 1 .right .pop ++ goes 12 4 .right (.push 13) ++ goes 1 0 .right .pop)
    ⟨sealing.mem.spun .right 1 1 (countBound - 5), sealing.frames⟩

/-- The buffer a thread is about to retire. -/
def Frame.retires (f : Frame) : Option Address :=
  match f.point with
  | .retire _ b => some b
  | _ => none

/-- Buffer 0 is unlinked, thread 3 takes the seal of buffer 1 for a value, and thread 4
unlinks buffer 1 and comes to the end of its `retire`. -/
def hintedRetire : State ℕ :=
  after (goes 3 4 .right (.push 13) ++ goes 1 2 .left .pop ++ goes 7 3 .left .pop ++
    goes 13 4 .right (.push 13)) bothSealed

/-- The three states, evaluated. -/
theorem bothSealed_facts : (sealing.mem.SwingsAt .right 1 1 ∧
    (sealing.mem.slot 1 (1 + farDirection .right)).word = 0 ∧ (sealing.frames 1).isNone) ∧
    (bothSealed.mem.chain = [0, 1] ∧ ∀ S ∈ [Side.left, .right],
      bothSealed.mem.follow S 0 = some 1 ∧ bothSealed.mem.follow S 1 = some 0) ∧
    (hintedRetire.frames 4).bind Frame.retires = some 1 ∧
      ∀ S ∈ [Side.left, .right], (hintedRetire.mem.hint S).buffer = 1 := by decide +kernel

theorem reachable_bothSealed : (wrapped ℕ).Reachable bothSealed := by
  obtain ⟨⟨hat, hword, hidle⟩, -⟩ := bothSealed_facts
  have hswings : sealing.mem.Swings .right 1 1 := ⟨hat, (run_cut reachable_sealing).mem⟩
  exact reachable_after
    (reachable_spun reachable_sealing hswings hword (Option.isNone_iff_eq_none.mp hidle) _) _

/-- With counts of 30 bits two buffers of the chain are sealed towards each other, and
`findActiveBuffer` goes back and forth between them. -/
theorem active_buffer_not_found : ∃ s : State ℕ, (wrapped ℕ).Reachable s ∧
    s.mem.chain = [0, 1] ∧ ∀ S, s.mem.follow S 0 = some 1 ∧ s.mem.follow S 1 = some 0 ∧
      ¬∃ l e, (0 :: l).IsChain (fun x y => s.mem.follow S x = some y) ∧
        (0 :: l).getLast? = some e ∧ s.mem.isSealed e = -1 := by
  obtain ⟨-, ⟨hchain, hcycle⟩, -⟩ := bothSealed_facts
  refine ⟨bothSealed, reachable_bothSealed, hchain, fun S => ?_⟩
  obtain ⟨h₀, h₁⟩ := hcycle S (by cases S <;> simp)
  refine ⟨h₀, h₁, ?_⟩
  rintro ⟨l, e, hl, he, hs⟩
  have hfollow : bothSealed.mem.follow S e = none := if_pos hs
  rcases mem_cycle h₀ h₁ hl e (List.mem_of_getLast? he) with rfl | rfl
  · cases h₀.symm.trans hfollow
  · cases h₁.symm.trans hfollow

end Sealed

section Retired

/-- The same with counts that do not come around. Buffer 1 is appended again, with counts that
bring the slot back that thread 0 expects. -/
def hintedRetireAgain : Pooled 5 :=
  afterwards (uses 15 1 .right (.push 8) 1 0 ++ uses 25 1 .right (.push 9) 1 8 ++
    uses 28 1 .left .pop 1 0 ++ uses 10 3 .left .pop 1 0 ++ uses 17 2 .left .pop 1 0 ++
    uses 14 1 .right .pop 1 0 ++ uses 12 4 .right (.push 13) 1 0 ++ uses 1 0 .right .pop 1 0 ++
    uses 3 4 .right (.push 13) 1 0 ++ uses 1 2 .left .pop 1 0 ++ uses 7 3 .left .pop 1 0 ++
    uses 13 4 .right (.push 13) 1 0) (freed .pop)

/-- With counts of 30 bits, and where buffers are handed out again, a buffer is retired that
both hints name. -/
theorem hints_name_retired :
    (∃ s : State ℕ, (wrapped ℕ).Reachable s ∧
      (s.frames 4).bind Frame.retires = some 1 ∧ ∀ S, (s.mem.hint S).buffer = 1) ∧
    ∃ u : Pooled 5, (recycling 5).Reachable u ∧
      (u.deque.frames (thread 4)).bind Frame.retires = some 1 ∧
      ∀ S, (u.deque.mem.hint S).buffer = 1 := by
  have hrun : (wrapped ℕ).Reachable hintedRetire := reachable_after reachable_bothSealed _
  have hagain : (recycling 5).Reachable hintedRetireAgain :=
    reachable_afterwards (reachable_freed _) _
  obtain ⟨-, -, hretires, hnamed⟩ := bothSealed_facts
  have hnamed' : (hintedRetireAgain.deque.frames (thread 4)).bind Frame.retires = some 1 ∧
      ∀ S ∈ [Side.left, .right], (hintedRetireAgain.deque.mem.hint S).buffer = 1 := by
    decide +kernel
  exact ⟨⟨hintedRetire, hrun, hretires, fun S => hnamed S (by cases S <;> simp)⟩,
    hintedRetireAgain, hagain, hnamed'.1, fun S => hnamed'.2 S (by cases S <;> simp)⟩

end Retired

end Runs
end UnboundedDeque.OFDeque
