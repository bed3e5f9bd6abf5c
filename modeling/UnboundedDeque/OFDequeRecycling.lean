import UnboundedDeque.HazardTracker
import UnboundedDeque.OFDequeCall

/-!
# Buffers that are handed out again

The machine together with `m_pHazTracker`, which has two slots for each thread and frees
retired buffers that no slot names. The pool may hand out a freed buffer again. While one
thread runs alone, this is a run of the machine without the tracker.
-/
namespace UnboundedDeque.OFDeque
open StepMachine

section Machine

variable {n : ℕ} {τ : Type*} [DecidableEq τ] [BufferSize]

/-- `HazardTracker(threadCount, m_pBlockPool, 2, 2)` -/
abbrev Tracker (n : ℕ) := HazardTracker Address n 2 2

/-- The deque with its hazard tracker. -/
structure Pooled (n : ℕ) where
  deque : State (Fin n)
  haz : Tracker n

/-- `freeBlock`: the pool may hand out the buffer again. -/
def Memory.freeBlock (m : Memory τ) (b : Address) : Memory τ :=
  { m with owner := Function.update m.owner b .unused, dead := m.dead.erase b }

/-- What the step of a call does to the hazard tracker; `none` when the assertion of
`HazardTracker::retire` fails. -/
def Point.track (p : Point) (tid : Fin n) (h : Tracker n) : Option (Tracker n) :=
  match p with
  | .hintReserve x => some (h.reserve (some x.buffer) 0 tid)
  | .findReserve f b _ => some (h.reserve (some b) f.hazSlot.toNat tid)
  | .updReserve _ _ u b => some (h.reserve (some b) (u.hazSlot.getD true).toNat tid)
  | .retire _ b => if b ∈ h.retired tid then none else some (h.retire b tid)
  | .clearFirst _ => some (h.reserve none 0 tid)
  | .clearSecond _ => some (h.reserve none 1 tid)
  | _ => some h

/-- A thread that has called `empty` comes to its end first. -/
def Pooled.step : Fin n × Choice → Pooled n → Option (Pooled n)
  | (tid, c), u =>
    if (u.haz.scan tid).isSome then
      let mem := (u.haz.freeing tid).elim u.deque.mem u.deque.mem.freeBlock
      some ⟨{ u.deque with mem }, u.haz.empty tid⟩
    else (OFDeque.step (tid, c) u.deque).bind fun deque =>
      ((u.deque.frames tid).elim (some u.haz) fun f => f.point.track tid u.haz).map fun haz =>
        ⟨deque, haz⟩

def recycling (n : ℕ) : Machine (Fin n × Choice) (Pooled n) where
  init u := Init u.deque ∧ u.haz = HazardTracker.initial
  step := Pooled.step

end Machine

section Reuse

variable {τ : Type*} [BufferSize] {m : Memory τ} {S : Side} {tid : τ}
  {call : Call Word} {b c : Address} {p : Point} {a : Action} {o : Address → Owner τ}
  {dead retired : List Address} {stamp : Address → Side → ℕ}

/-- A memory with other buffers in use and other buffers unlinked in the past. -/
def Memory.reuse (m : Memory τ) (o : Address → Owner τ) (dead retired : List Address)
    (stamp : Address → Side → ℕ) : Memory τ :=
  { m with owner := o, dead, retired, stamp }

/-- What an action does to the owners. -/
def Action.owners (tid : τ) (a : Action) (o : Address → Owner τ) : Address → Owner τ :=
  match a with
  | .append _ _ n => Function.update o n .published
  | .alloc S n => Function.update o n (.thread S tid)
  | _ => o

variable [DecidableEq τ]

/-- Only `alloc` looks at the owners, and no step at the past. -/
theorem next_reuse {x : Choice} (hp : (∀ v, p ≠ .alloc v) ∨ o = m.owner) :
    next (m.reuse o dead retired stamp) x tid S call p = next m x tid S call p := by
  rcases hp with hp | rfl
  · cases p <;> first | rfl | exact absurd rfl (hp _)
  · cases p <;> rfl

theorem act_reuse (m : Memory τ) (o : Address → Owner τ) (dead retired : List Address)
    (stamp : Address → Side → ℕ) (tid : τ) (a : Action) : ∃ dead' retired' stamp',
      (m.reuse o dead retired stamp).act tid a =
        (m.act tid a).reuse (a.owners tid o) dead' retired' stamp' := by
  cases a <;> exact ⟨_, _, _, rfl⟩

theorem owner_act (m : Memory τ) (tid : τ) (a : Action) :
    (m.act tid a).owner = a.owners tid m.owner := by
  cases a <;> rfl

omit [DecidableEq τ] in
/-- The links of the chain stay in the chain. -/
theorem Shape.chain_target (h : Shape m) (hb : b ∈ m.chain) (hl : m.IsLink b (farLink S) c) :
    c ∈ m.chain := by
  rcases h.end_or_joined hb S with ⟨-, -, hf⟩ | ⟨c', hc', hj⟩
  · exact absurd (hf.symm.trans hl.1) (farType_ne_value S)
  · exact (hj.1.2.symm.trans hl.2) ▸ hc'

omit [DecidableEq τ] in
/-- Between two calls the past can be forgotten. -/
theorem Memory.Calm.reuse (h : m.Calm) (ho : ∀ b ∈ m.chain, o b = .published)
    (hroom : {b | o b ≠ .unused}.Finite) : (m.reuse o [] retired stamp).Calm where
  hint := h.hint
  unsealed := h.unsealed
  room := hroom
  cache := h.cache
  shape := {
    nonempty := h.shape.nonempty
    nodup := by
      change (m.chain ++ []).Nodup
      rw [List.append_nil]
      exact h.shape.nodup.of_append_left
    owner := fun b hb => ho b (hb.resolve_right List.not_mem_nil)
    cache := fun S k b hc => by cases (h.cache S k).symm.trans hc
    hint := fun S => .inl (h.hint S)
    buffer := fun b hb => h.shape.buffer b (.inl (hb.resolve_right List.not_mem_nil))
    target := fun b S c hb hl =>
      .inl (h.shape.chain_target (hb.resolve_right List.not_mem_nil) hl)
    joined := h.shape.joined
    ends := h.shape.ends
    apart := fun S b c hb => h.shape.apart S b c (.inl (hb.resolve_right List.not_mem_nil))
    dead := fun l d k hd => by cases (List.append_eq_nil_iff.mp hd.symm).2 }

end Reuse

section Alone

variable {n : ℕ} {u u' : Pooled n} {m : Memory (Fin n)} {S : Side} {tid k : Fin n}
  {call : Call Word} {b c : Address} {p q : Point} {a : Action} {x : Choice}
  {o o' : Address → Owner (Fin n)} {h h' : Tracker n}

section Waits

/-- The retired buffers wait once each, out of use and not in the deque. -/
structure Memory.Waits (m : Memory (Fin n)) (o : Address → Owner (Fin n)) (h : Tracker n) :
    Prop where
  inRange : h.InRange
  nodup : ∀ k, (h.retired k).Nodup
  once : ∀ j k b, b ∈ h.retired j → b ∈ h.retired k → j = k
  owner : ∀ k, ∀ b ∈ h.retired k, o b = .published
  dropped : ∀ k, ∀ b ∈ h.retired k, b ∉ m.chain

/-- A buffer can be retired. -/
structure Memory.Leaving (m : Memory (Fin n)) (o : Address → Owner (Fin n)) (h : Tracker n)
    (b : Address) : Prop where
  owner : o b = .published
  dropped : b ∉ m.chain
  fresh : ∀ k, b ∉ h.retired k

theorem Memory.Waits.congr (hw : m.Waits o h) (hr : h'.retired = h.retired)
    (hs : h'.scan = h.scan) : m.Waits o h' where
  inRange := by
    rw [HazardTracker.InRange, hr, hs]
    exact hw.inRange
  nodup := hr ▸ hw.nodup
  once := hr ▸ hw.once
  owner := hr ▸ hw.owner
  dropped := hr ▸ hw.dropped

theorem Memory.Waits.retire (hw : m.Waits o h) (hb : m.Leaving o h b) (tid : Fin n) :
    m.Waits o (h.retire b tid) := by
  have hmem {k : Fin n} {c : Address} (hc : c ∈ (h.retire b tid).retired k) :
      c ∈ h.retired k ∨ k = tid ∧ c = b := by
    rw [HazardTracker.retired_retire] at hc
    by_cases hk : k = tid
    · rw [hk, Function.update_self, List.mem_append, List.mem_singleton] at hc
      exact hc.imp (fun h => hk ▸ h) fun h => ⟨hk, h⟩
    · rw [Function.update_of_ne hk] at hc
      exact .inl hc
  refine ⟨HazardTracker.inRange_retire hw.inRange, fun k => ?_, fun j k c hj hk => ?_,
    fun k c hc => ?_, fun k c hc => ?_⟩
  · rw [HazardTracker.retired_retire]
    by_cases hk : k = tid
    · rw [hk, Function.update_self]
      exact (hw.nodup tid).append (List.nodup_singleton b) (by simpa using hb.fresh tid)
    · rw [Function.update_of_ne hk]
      exact hw.nodup k
  · rcases hmem hj with hold | ⟨rfl, rfl⟩
    · rcases hmem hk with hold' | ⟨rfl, rfl⟩
      · exact hw.once j k c hold hold'
      · exact absurd hold (hb.fresh j)
    · rcases hmem hk with hold' | ⟨rfl, -⟩
      · exact absurd hold' (hb.fresh k)
      · rfl
  · rcases hmem hc with hc | ⟨-, rfl⟩
    · exact hw.owner k c hc
    · exact hb.owner
  · rcases hmem hc with hc | ⟨-, rfl⟩
    · exact hw.dropped k c hc
    · exact hb.dropped

/-- What waits after a step of a scan has waited before and is not freed. -/
theorem Memory.Waits.mem_empty (hw : m.Waits o h) (hc : c ∈ (h.empty tid).retired k) :
    c ∈ h.retired k ∧ h.freeing tid ≠ some c := by
  by_cases hk : k = tid
  · subst hk
    exact (HazardTracker.mem_retired_empty (hw.nodup k) hw.inRange).mp hc
  · rw [HazardTracker.retired_empty_of_ne hk] at hc
    exact ⟨hc, fun hf => hk (hw.once k tid c hc (HazardTracker.mem_of_freeing hf))⟩

/-- A step of a scan, with the buffer it frees given back. -/
theorem Memory.Waits.empty (hw : m.Waits o h) (tid : Fin n)
    (ho : ∀ b, h.freeing tid ≠ some b → o' b = o b) : m.Waits o' (h.empty tid) := by
  refine ⟨HazardTracker.inRange_empty hw.inRange, fun k => ?_,
    fun j k c hj hk => hw.once j k c (hw.mem_empty hj).1 (hw.mem_empty hk).1, fun k c hc => ?_,
    fun k c hc => hw.dropped k c (hw.mem_empty hc).1⟩
  · by_cases hk : k = tid
    · subst hk
      exact HazardTracker.nodup_retired_empty (hw.nodup k)
    · rw [HazardTracker.retired_empty_of_ne hk]
      exact hw.nodup k
  · rw [ho c (hw.mem_empty hc).2]
    exact hw.owner k c (hw.mem_empty hc).1

end Waits

section Track

/-- The tracker hears of a retired buffer, or of a reservation. -/
theorem track_cases (ht : p.track tid h = some h') :
    (∃ v b, p = .retire v b ∧ h' = h.retire b tid) ∨
      (∀ v b, p ≠ .retire v b) ∧ h'.retired = h.retired ∧ h'.scan = h.scan := by
  cases p with
  | retire v b =>
    simp only [Point.track] at ht
    split_ifs at ht
    exact .inl ⟨v, b, rfl, (Option.some.inj ht).symm⟩
  | _ =>
    cases ht
    exact .inr ⟨by simp, rfl, rfl⟩

theorem track_isSome (hp : ∀ v b, p = .retire v b → b ∉ h.retired tid) :
    ∃ h', p.track tid h = some h' := by
  cases p with
  | retire v b => exact ⟨_, if_neg (hp v b rfl)⟩
  | _ => exact ⟨_, rfl⟩

end Track

section Follow

variable [BufferSize]

/-- A pop takes no buffer into use. -/
theorem Grounded.pop_keeps (hg : Grounded tid S .pop m p)
    (hn : OFDeque.next m x tid S .pop p = some (a, some q)) :
    (∀ v, p ≠ .alloc v) ∧ (∀ R c, a ≠ .alloc R c) ∧ ∀ R b c, a ≠ .append R b c := by
  have hknows := hg.knows.1
  cases p with
  | alloc v =>
    obtain ⟨w, hw⟩ := hknows.isPush
    cases hw
  | effect v k =>
    simp only [OFDeque.next] at hn
    split_ifs at hn
    · cases hn
      cases k with
      | append c =>
        obtain ⟨-, ⟨⟨w, hw, -⟩, -⟩, -⟩ := hknows
        cases hw
      | _ => exact ⟨by simp, by simp [Attempt.action], by simp [Attempt.action]⟩
    · cases hn
      exact ⟨by simp, by simp, by simp⟩
  | fill v c i =>
    simp only [OFDeque.next] at hn
    split_ifs at hn <;> (cases hn; exact ⟨by simp, by simp, by simp⟩)
  | safe v k =>
    simp only [OFDeque.next] at hn
    split_ifs at hn <;> (cases hn; exact ⟨by simp, by simp, by simp⟩)
  | casHint y c r =>
    cases hn
    exact ⟨by simp, fun R c => by split_ifs <;> simp, fun R b c => by split_ifs <;> simp⟩
  | updCas v c y =>
    simp only [OFDeque.next] at hn
    split_ifs at hn <;> (cases hn; exact ⟨by simp, by simp, by simp⟩)
  | failed => cases hn
  | clearSecond r => cases hn
  | _ =>
    cases hn
    exact ⟨by simp, by simp, by simp⟩

omit [BufferSize] in
theorem owners_of_ne (h₁ : ∀ R c, a ≠ .alloc R c) (h₂ : ∀ R b c, a ≠ .append R b c) :
    a.owners tid o = o := by
  cases a with
  | alloc R c => exact absurd rfl (h₁ R c)
  | append R b c => exact absurd rfl (h₂ R b c)
  | _ => rfl

/-- A published buffer stays one. -/
theorem owners_published (ha : m.Allowed tid a) (hb : o b = .published)
    (ho : o b = m.owner b ∨ o b = .unused) : a.owners tid o b = .published := by
  cases a with
  | append R c d =>
    by_cases hd : b = d
    · rw [hd]
      exact Function.update_self _ _ _
    · exact (Function.update_of_ne hd _ _).trans hb
  | alloc R c =>
    have hc : b ≠ c := by
      rintro rfl
      rcases ho with ho | ho
      · cases hb.symm.trans (ho.trans ha)
      · cases hb.symm.trans ho
    exact (Function.update_of_ne hc _ _).trans hb
  | _ => exact hb

/-- A buffer of the chain was in it or is appended. -/
theorem mem_chain_act (hb : b ∈ (m.act tid a).chain) :
    b ∈ m.chain ∨ ∃ R c, a = .append R c b := by
  cases a with
  | append R c d =>
    rcases mem_add.mp hb with rfl | hb
    · exact .inr ⟨R, c, rfl⟩
    · exact .inl hb
  | unlink R c d w => exact .inl (List.mem_of_mem_erase hb)
  | _ => exact .inl hb

/-- A thread that runs alone with the tracker is where it is without, but for the buffers
of the past and those a pop has freed. -/
structure Follows (tid : Fin n) (S : Side) (call : Call Word) (m : Memory (Fin n)) (p : Point)
    (u : Pooled n) : Prop where
  frame : u.deque.frames tid = some ⟨S, call, p⟩
  others : ∀ k, k ≠ tid → u.deque.frames k = none ∧ u.haz.scan k = none
  mem : ∃ dead retired stamp, u.deque.mem = m.reuse u.deque.mem.owner dead retired stamp
  owner : ∀ b, u.deque.mem.owner b = m.owner b ∨
    call = .pop ∧ u.deque.mem.owner b = .unused ∧ b ∉ m.chain
  waits : m.Waits u.deque.mem.owner u.haz
  leaving : ∀ b, p.retiring = some b → m.Leaving u.deque.mem.owner u.haz b
  push : call ≠ .pop → p.retiring = none ∧ u.haz.scan tid = none

omit [BufferSize] in
theorem Follows.owner_push (hf : Follows tid S call m p u) (hc : call ≠ .pop) :
    u.deque.mem.owner = m.owner :=
  funext fun b => (hf.owner b).resolve_right fun h => hc h.1

theorem Follows.owner_live (hf : Follows tid S call m p u) (hs : Shape m) (hb : b ∈ m.chain) :
    u.deque.mem.owner b = .published :=
  ((hf.owner b).resolve_right fun h => h.2.2 hb).trans (hs.owner b (.inl hb))

omit [BufferSize] in
theorem Follows.owner_or (hf : Follows tid S call m p u) (b : Address) :
    u.deque.mem.owner b = m.owner b ∨ u.deque.mem.owner b = .unused :=
  (hf.owner b).imp_right fun h => h.2.1

theorem Follows.next_eq (hf : Follows tid S call m p u) (hg : Grounded tid S call m p)
    (hn : next m x tid S call p = some (a, some q)) (y : Choice) :
    next u.deque.mem y tid S call p = next m y tid S call p := by
  obtain ⟨d, r, st, hm⟩ := hf.mem
  rw [hm]
  apply next_reuse
  by_cases hc : call = .pop
  · subst hc
    exact .inl (hg.pop_keeps hn).1
  · exact .inr (hf.owner_push hc)

/-- What is published and not in the chain is not appended. -/
theorem Follows.not_appended (hf : Follows tid S call m p u) (ha : m.Allowed tid a)
    (hb : u.deque.mem.owner b = .published) (hc : b ∉ m.chain) : b ∉ (m.act tid a).chain := by
  intro hmem
  rcases mem_chain_act hmem with hmem | ⟨R, c, rfl⟩
  · exact hc hmem
  · obtain ⟨-, -, -, -, ho⟩ := ha
    rcases hf.owner_or b with he | he
    · cases hb.symm.trans (he.trans ho)
    · cases hb.symm.trans he

theorem Follows.waits_act (hf : Follows tid S call m p u) (ha : m.Allowed tid a) :
    (m.act tid a).Waits (a.owners tid u.deque.mem.owner) u.haz where
  inRange := hf.waits.inRange
  nodup := hf.waits.nodup
  once := hf.waits.once
  owner k b hb := owners_published ha (hf.waits.owner k b hb) (hf.owner_or b)
  dropped k b hb := hf.not_appended ha (hf.waits.owner k b hb) (hf.waits.dropped k b hb)

theorem Follows.leaving_act (hf : Follows tid S call m p u) (ha : m.Allowed tid a)
    (hb : p.retiring = some b) :
    (m.act tid a).Leaving (a.owners tid u.deque.mem.owner) u.haz b where
  owner := owners_published ha (hf.leaving b hb).owner (hf.owner_or b)
  dropped := hf.not_appended ha (hf.leaving b hb).owner (hf.leaving b hb).dropped
  fresh := (hf.leaving b hb).fresh

/-- A buffer that has just been unlinked can be retired. -/
theorem Follows.leaving_unlink (hf : Follows tid S call m p u) (hs : Shape m) {w : Word}
    (ha : m.Allowed tid (.unlink S c b w)) :
    (m.act tid (.unlink S c b w)).Leaving u.deque.mem.owner u.haz b := by
  obtain ⟨hc, hj, -⟩ := ha
  have hb : b ∈ m.chain := (hs.live_joined hc hj).2
  refine ⟨hf.owner_live hs hb, ?_, fun k hk => hf.waits.dropped k b hk hb⟩
  exact hs.nodup.of_append_left.not_mem_erase

/-- A step of the thread alone. -/
theorem Follows.next (hf : Follows tid S call m p u) (hg : Grounded tid S call m p)
    (hn : OFDeque.next m x tid S call p = some (a, some q))
    (hpush : call ≠ .pop → q.retiring = none) (ht : p.track tid u.haz = some h')
    (hscan : call ≠ .pop → h'.scan tid = none) :
    Follows tid S call (m.act tid a) q ⟨⟨u.deque.mem.act tid a,
      Function.update u.deque.frames tid (some ⟨S, call, q⟩)⟩, h'⟩ := by
  have ha : m.Allowed tid a := hg.allowed hn
  have howner : (u.deque.mem.act tid a).owner = a.owners tid u.deque.mem.owner := owner_act _ _ _
  refine ⟨Function.update_self _ _ _, fun k hk => ⟨?_, ?_⟩, ?_, fun b => ?_, ?_, fun b hb => ?_,
    fun hc => ⟨hpush hc, hscan hc⟩⟩
  · exact (Function.update_of_ne hk _ _).trans (hf.others k hk).1
  · rcases track_cases ht with ⟨v, b, -, rfl⟩ | ⟨-, -, hs⟩
    · exact (HazardTracker.scan_retire_of_ne hk).trans (hf.others k hk).2
    · rw [hs]
      exact (hf.others k hk).2
  · obtain ⟨d, r, st, hm⟩ := hf.mem
    obtain ⟨d', r', st', hact⟩ := act_reuse m u.deque.mem.owner d r st tid a
    refine ⟨d', r', st', ?_⟩
    simp only [howner]
    rw [← hact, ← hm]
  · simp only [howner, owner_act]
    by_cases hc : call = .pop
    · subst hc
      obtain ⟨-, h₁, h₂⟩ := hg.pop_keeps hn
      rw [owners_of_ne h₁ h₂, owners_of_ne h₁ h₂]
      refine (hf.owner b).imp_right fun ⟨h₃, h₄, h₅⟩ => ⟨h₃, h₄, fun hb => ?_⟩
      rcases mem_chain_act hb with hb | ⟨R, c, hb⟩
      · exact h₅ hb
      · exact h₂ R c b hb
    · rw [hf.owner_push hc]
      exact .inl rfl
  · simp only [howner]
    have hw := hf.waits_act ha
    rcases track_cases ht with ⟨v, b, rfl, rfl⟩ | ⟨-, hr, hs⟩
    · exact hw.retire (hf.leaving_act ha rfl) tid
    · exact hw.congr hr hs
  · simp only [howner]
    have hleaving : (m.act tid a).Leaving (a.owners tid u.deque.mem.owner) u.haz b := by
      rcases retiring_unlink hn hb with hold | ⟨c, w, rfl⟩
      · exact hf.leaving_act ha hold
      · exact hf.leaving_unlink hg.shape ha
    refine ⟨hleaving.owner, hleaving.dropped, fun k => ?_⟩
    rcases track_cases ht with ⟨v, c, rfl, rfl⟩ | ⟨-, hr, hs⟩
    · cases hn
      rw [retiring_of_goes goes_afterRemove] at hb
      cases hb
    · rw [hr]
      exact hleaving.fresh k

/-- The steps a thread can take with the tracker. -/
theorem Follows.step_iff (hf : Follows tid S call m p u) (hg : Grounded tid S call m p)
    (hn : OFDeque.next m x tid S call p = some (a, some q)) (hscan : u.haz.scan tid = none)
    (y : Choice) : (recycling n).step (tid, y) u = some u' ↔
      ∃ a' q' h', OFDeque.next m y tid S call p = some (a', some q') ∧
        p.track tid u.haz = some h' ∧ u' = ⟨⟨u.deque.mem.act tid a',
          Function.update u.deque.frames tid (some ⟨S, call, q'⟩)⟩, h'⟩ := by
  simp only [recycling, Pooled.step, hscan, Option.isSome_none, Bool.false_eq_true, if_false,
    OFDeque.step, hf.frame, Option.elim_some, hf.next_eq hg hn y]
  constructor
  · intro hs
    obtain ⟨d, hd, hs⟩ := Option.bind_eq_some_iff.mp hs
    obtain ⟨⟨a', o'⟩, hn', rfl⟩ := Option.map_eq_some_iff.mp hd
    obtain ⟨h', ht, rfl⟩ := Option.map_eq_some_iff.mp hs
    obtain ⟨q', rfl⟩ := next_isSome hn hn'
    exact ⟨a', q', h', hn', ht, rfl⟩
  · rintro ⟨a', q', h', hn', ht, rfl⟩
    rw [hn', ht]
    rfl

/-- A step of a scan of the thread. -/
theorem Follows.scan (hf : Follows tid S call m p u) (hscan : u.haz.scan tid ≠ none) (y : Choice) :
    ∃ u', (recycling n).step (tid, y) u = some u' ∧ Follows tid S call m p u' ∧
      u'.haz = u.haz.empty tid := by
  obtain ⟨k, hk⟩ := Option.ne_none_iff_exists'.mp hscan
  have hpop : call = .pop := by
    by_contra hc
    exact hscan (hf.push hc).2
  refine ⟨_, if_pos (by rw [hk]; rfl), ?_, rfl⟩
  have hothers (j : Fin n) (hj : j ≠ tid) : u.deque.frames j = none ∧
      (u.haz.empty tid).scan j = none :=
    ⟨(hf.others j hj).1, (HazardTracker.scan_empty_of_ne hj).trans (hf.others j hj).2⟩
  cases hfree : u.haz.freeing tid with
  | none =>
    refine ⟨hf.frame, hothers, hf.mem, hf.owner, hf.waits.empty tid fun _ _ => rfl,
      fun b hb => ?_, fun hc => absurd hpop hc⟩
    have hl := hf.leaving b hb
    exact ⟨hl.owner, hl.dropped, fun j hj => hl.fresh j (hf.waits.mem_empty hj).1⟩
  | some b =>
    have hb : b ∈ u.haz.retired tid := HazardTracker.mem_of_freeing hfree
    have hother {c : Address} (hc : c ≠ b) :
        (u.deque.mem.freeBlock b).owner c = u.deque.mem.owner c := Function.update_of_ne hc _ _
    refine ⟨hf.frame, hothers, ?_, fun c => ?_, hf.waits.empty tid fun c hc => ?_,
      fun c hc => ?_, fun hc => absurd hpop hc⟩
    · obtain ⟨d, r, st, hm⟩ := hf.mem
      refine ⟨(u.deque.mem.freeBlock b).dead, r, st, ?_⟩
      change u.deque.mem.freeBlock b = _
      rw [hm]
      rfl
    · by_cases hc : c = b
      · rw [hc]
        exact .inr ⟨hpop, Function.update_self _ _ _, hf.waits.dropped tid b hb⟩
      · exact (hf.owner c).imp (hother hc).trans fun h => ⟨h.1, (hother hc).trans h.2.1, h.2.2⟩
    · exact hother fun he => hc (he ▸ hfree)
    · have hl := hf.leaving c hc
      refine ⟨(hother ?_).trans hl.owner, hl.dropped,
        fun j hj => hl.fresh j (hf.waits.mem_empty hj).1⟩
      rintro rfl
      exact hl.fresh tid hb

/-- A scan comes to its end. -/
theorem Follows.leads_scan {via : Pooled n → Prop} (hvia : ∀ u, u.deque.frames tid ≠ none → via u)
    (hf : Follows tid S call m p u) : (recycling n).Leads (fun a => a.1 = tid) via
      (fun u => Follows tid S call m p u ∧ u.haz.scan tid = none) u := by
  induction hk : u.haz.work tid using Nat.strong_induction_on generalizing u with
  | _ k ih =>
    by_cases hscan : u.haz.scan tid = none
    · exact .done ⟨hf, hscan⟩
    · have hframe : u.deque.frames tid ≠ none := by
        rw [hf.frame]
        exact Option.some_ne_none _
      refine .step (hvia u hframe) ?_ ?_
      · obtain ⟨u', hs, -⟩ := hf.scan hscan ⟨(S, call), 0, 0, 0⟩
        exact ⟨(tid, _), u', rfl, hs⟩
      · rintro ⟨j, y⟩ u' rfl hs
        obtain ⟨v, hs', hf', hhaz⟩ := hf.scan hscan y
        obtain rfl : v = u' := Option.some.inj (hs'.symm.trans hs)
        refine ih _ ?_ hf' rfl
        rw [← hk, hhaz]
        exact HazardTracker.work_empty hf.waits.inRange hscan

theorem dead_act (hd : m.dead ≠ []) (a : Action) : (m.act tid a).dead ≠ [] := by
  cases a with
  | unlink R b c w => exact List.cons_ne_nil _ _
  | _ => exact hd

variable {Q : Memory (Fin n) → Point → Prop}

/-- A call that comes to a memory from which nothing is unlinked has unlinked nothing. -/
theorem Solo.dead_eq_nil (hs : Solo tid S call anyPoint Q m p)
    (hq : ∀ m p, Q m p → m.dead = []) : m.dead = [] := by
  by_contra hd
  have hkeep := Machine.Leads.keep (I := fun x => x.1.dead ≠ []) hs hd ?_
  · obtain ⟨-, t, -, -, ht, hne⟩ := hkeep.exists_exec
    exact hne (hq _ _ ht)
  · rintro x ⟨m, p⟩ ⟨m', q⟩ - hd hstep
    obtain ⟨a, -, rfl⟩ := solo_step.mp hstep
    exact dead_act hd a

theorem Follows.leads_from {y : Memory (Fin n) × Point}
    (hf : Follows tid S call y.1 y.2 u)
    (hs : (solo tid S call).Leads (fun _ => True) (fun y => anyPoint y.2)
      (fun y => Q y.1 y.2) y) (hg : Grounded tid S call y.1 y.2)
    (hq : call ≠ .pop → ∀ m p, Q m p → m.dead = []) :
    (recycling n).Leads (fun a => a.1 = tid) (fun u => u.deque.frames tid ≠ none)
      (fun u => ∃ m p, Q m p ∧ Follows tid S call m p u ∧ u.haz.scan tid = none) u := by
  induction hs generalizing u with
  | done reached =>
    refine (hf.leads_scan fun _ h => h).mono fun u hu => ?_
    exact ⟨_, _, reached, hu⟩
  | @step y _ enabled next ih =>
    obtain ⟨m, p⟩ := y
    refine (hf.leads_scan fun _ h => h).trans fun u ⟨hf, hscan⟩ => ?_
    obtain ⟨x, ⟨m', q⟩, -, hstep⟩ := enabled
    obtain ⟨a, hn, -⟩ := solo_step.mp hstep
    have hframe : u.deque.frames tid ≠ none := by
      rw [hf.frame]
      exact Option.some_ne_none _
    refine .step hframe ?_ ?_
    · have hfresh (v : View) (b : Address) (hp : p = .retire v b) : b ∉ u.haz.retired tid := by
        subst hp
        exact (hf.leaving b rfl).fresh tid
      obtain ⟨h', ht⟩ := track_isSome hfresh
      exact ⟨(tid, x), _, rfl, (hf.step_iff hg hn hscan x).mpr ⟨a, q, h', hn, ht, rfl⟩⟩
    · rintro ⟨j, z⟩ u' rfl hu
      obtain ⟨a', q', h', hn', ht, rfl⟩ := (hf.step_iff hg hn hscan z).mp hu
      have hmove : (solo j S call).step z (m, p) = some (m.act j a', q') :=
        solo_step.mpr ⟨a', hn', rfl⟩
      refine ih z _ trivial hmove ?_ (hg.next hn')
      refine hf.next hg hn' (fun hc => ?_) ht fun hc => ?_
      · by_contra hr
        obtain ⟨b, hb⟩ := Option.ne_none_iff_exists'.mp hr
        rcases retiring_unlink hn' hb with hold | ⟨c, w, rfl⟩
        · cases (hf.push hc).1.symm.trans hold
        · have hd := Solo.dead_eq_nil (next z _ trivial hmove) (hq hc)
          exact List.cons_ne_nil _ _ hd
      · rcases track_cases ht with ⟨v, b, rfl, -⟩ | ⟨-, -, hs⟩
        · cases (hf.push hc).1
        · rw [hs, hscan]

/-- What a call comes to alone, it comes to with the tracker. A push must not unlink. -/
theorem Follows.leads (hf : Follows tid S call m p u) (hs : Solo tid S call anyPoint Q m p)
    (hg : Grounded tid S call m p) (hq : call ≠ .pop → ∀ m p, Q m p → m.dead = []) :
    (recycling n).Leads (fun a => a.1 = tid) (fun u => u.deque.frames tid ≠ none)
      (fun u => ∃ m p, Q m p ∧ Follows tid S call m p u ∧ u.haz.scan tid = none) u :=
  hf.leads_from (y := (m, p)) hs hg hq

end Follow

end Alone

end UnboundedDeque.OFDeque
