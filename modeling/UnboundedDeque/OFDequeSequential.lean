import UnboundedDeque.OFDequeRecycling

/-!
# Calls made one after another

An account of a run lists the calls that have returned, with their results. While only
one thread at a time is in a call, every call returns, and the results are those of a
plain list.
-/
namespace UnboundedDeque.OFDeque
open StepMachine

section Start

variable {τ : Type*} [BufferSize] {m : Memory τ}

theorem calm_init (h : m.Init) : m.Calm := by
  obtain ⟨b, hb, -, hfree, hhint, -, -, hl, hr⟩ := h.buffer
  have hsize := four_le_bufferSize
  refine ⟨⟨fun S => ?_, fun c hc S => ?_⟩, .init h, ?_, h.cache⟩
  · rw [hhint, hb]
    exact List.mem_singleton_self b
  · rw [hb, List.mem_singleton] at hc
    subst hc
    obtain ⟨h₁, h₂⟩ := inner_farValue S
    by_cases hi : farValue S < bufferSize / 2
    · rw [hl _ (by omega) hi]
      decide
    · rw [hr _ (by omega) (by omega)]
      decide
  · apply (Set.finite_singleton b).subset
    intro c hc
    by_contra hne
    exact hc (hfree c hne)

theorem content_init (h : m.Init) : m.content = [] := by
  obtain ⟨b, hb, -, -, -, -, -, hl, hr⟩ := h.buffer
  apply Shape.content_eq_nil
  intro c hc i hi
  rw [hb, List.mem_singleton] at hc
  subst hc
  obtain ⟨h₁, h₂⟩ := hi
  by_cases hi : i < bufferSize / 2
  · rw [hl i (by omega) hi]
    decide
  · rw [hr i (by omega) (by omega)]
    decide

end Start

section Sequential

variable {n : ℕ} {m m' : Memory (Fin n)} {S R : Side} {tid q : Fin n}
  {call : Call Word} {b c : Address} {i j : ℤ} {a : Fin n × Choice} {s t : Pooled n}
  {I : Memory (Fin n) → Prop} {ok : Fin n × Choice → Pooled n × List Return → Prop}

/-- A call that has returned. -/
structure Return where
  side : Side
  call : Call Word
  result : Result Word
  deriving DecidableEq, Repr

/-- A call that returns is noted with its result. -/
def noteReturn (a : Fin n × Choice) (s t : Pooled n) (past : List Return) : List Return :=
  match s.deque.frames a.1, t.deque.frames a.1 with
  | some f, none => past ++ f.point.result.toList.map fun r => ⟨f.side, f.call, r⟩
  | _, _ => past

variable [BufferSize]

def recorded (n : ℕ) : Machine (Fin n × Choice) (Pooled n × List Return) :=
  (recycling n).account [] noteReturn

/-- No other thread is in a call. -/
def Alone (a : Fin n × Choice) (u : Pooled n × List Return) : Prop :=
  ∀ q, q ≠ a.1 → u.1.deque.frames q = none

/-- The calls of an account have had the results of a plain list with the content `l` in
the end. -/
def AsList (past : List Return) (l : List Word) : Prop :=
  onList (past.map fun x => (x.side, x.call)) = (past.map (·.result), l)

/-- The memory without the buffers of the past. -/
def Memory.forget {τ : Type*} (m : Memory τ) : Memory τ := m.reuse m.owner [] m.retired m.stamp

/-- Between two calls, with what the calls keep of the memory. -/
structure Rests (I : Memory (Fin n) → Prop) (u : Pooled n × List Return) : Prop where
  frames : ∀ q, u.1.deque.frames q = none
  scans : ∀ q, u.1.haz.scan q = none
  waits : u.1.deque.mem.Waits u.1.deque.mem.owner u.1.haz
  calm : u.1.deque.mem.forget.Calm
  asList : AsList u.2 u.1.deque.mem.content
  kept : I u.1.deque.mem.forget

/-- In a call. -/
structure Busy (tid : Fin n) (u : Pooled n × List Return) : Prop where
  frame : u.1.deque.frames tid ≠ none
  asList : ∃ l, AsList u.2 l

/-- A returned call has done to the content what it does to a list. -/
theorem AsList.snoc {past : List Return} {r : Result Word} (h : AsList past m.content)
    (hr : Returned S call m m' r) : AsList (past ++ [⟨S, call, r⟩]) m'.content := by
  obtain ⟨es, hes, happ⟩ := hr.told
  have hcall : call.onList S m.content = (r, m'.content) := by
    cases call with
    | push w =>
      obtain ⟨rfl, rfl⟩ := hes
      obtain ⟨k, hk, hl⟩ := happ
      rw [show m'.content = S.add w m.content from hl.trans hk]
      rfl
    | pop =>
      rcases hes with ⟨v, rfl, rfl⟩ | ⟨rfl, rfl⟩
      · obtain ⟨k, hk, hl⟩ := happ
        rw [show m'.content = k from hl, show m.content = S.add v k from hk]
        simp [Call.onList]
      · rw [show m'.content = m.content from happ, hr.empty rfl]
        simp [Call.onList]
  rw [AsList] at h ⊢
  rw [List.map_append, List.map_append, List.map_singleton, List.map_singleton, onList_snoc, h]
  simp only [hcall]

omit [BufferSize] in
theorem noteReturn_of_frame {past : List Return} (h : t.deque.frames a.1 ≠ none) :
    noteReturn a s t past = past := by
  obtain ⟨f, hf⟩ := Option.ne_none_iff_exists'.mp h
  unfold noteReturn
  rw [hf]
  cases s.deque.frames a.1 <;> rfl

omit [BufferSize] in
theorem noteReturn_of_start {past : List Return} (h : s.deque.frames a.1 = none) :
    noteReturn a s t past = past := by
  unfold noteReturn
  rw [h]

/-- The state with the frame of one thread changed. -/
def Pooled.put (s : Pooled n) (tid : Fin n) (o : Option Frame) : Pooled n :=
  { s with deque := { s.deque with frames := Function.update s.deque.frames tid o } }

omit [BufferSize] in
theorem Pooled.put_self (s : Pooled n) (tid : Fin n) (o : Option Frame) :
    (s.put tid o).deque.frames tid = o := Function.update_self _ _ _

/-- A call that has come to its result leaves the deque at rest. -/
theorem Rests.of_follows {past : List Return} {p : Point} {h : Tracker n}
    (hf : Follows tid S call m' p s) (hscan : s.haz.scan tid = none) (hcalm : m'.Calm)
    (hkeep : ∀ o retired stamp, I (m'.reuse o [] retired stamp))
    (hpast : AsList past m'.content) (hr : h.retired = s.haz.retired) (hs : h.scan = s.haz.scan) :
    Rests I (⟨(s.put tid none).deque, h⟩, past) := by
  obtain ⟨d, retired, stamp, hm⟩ := hf.mem
  have hforget : s.deque.mem.forget = m'.reuse s.deque.mem.owner [] retired stamp := by
    rw [hm]
    rfl
  refine ⟨fun q => ?_, fun q => ?_, ?_, ?_, ?_, ?_⟩
  · by_cases hq : q = tid
    · rw [hq]
      exact Function.update_self _ _ _
    · exact (Function.update_of_ne hq _ _).trans (hf.others q hq).1
  · change h.scan q = none
    rw [hs]
    by_cases hq : q = tid
    · rw [hq, hscan]
    · exact (hf.others q hq).2
  · have hw : m'.Waits s.deque.mem.owner h := hf.waits.congr hr hs
    have hchain : s.deque.mem.chain = m'.chain := by rw [hm]; rfl
    refine ⟨hw.inRange, hw.nodup, hw.once, hw.owner, ?_⟩
    change ∀ k, ∀ b ∈ h.retired k, b ∉ s.deque.mem.chain
    rw [hchain]
    exact hw.dropped
  · change s.deque.mem.forget.Calm
    rw [hforget]
    refine hcalm.reuse (fun b hb => hf.owner_live hcalm.shape hb) (hcalm.room.subset ?_)
    intro b hb hfree
    exact hb ((hf.owner_or b).elim (·.trans hfree) id)
  · change AsList past s.deque.mem.content
    rw [hm]
    exact hpast
  · change I s.deque.mem.forget
    rw [hforget]
    exact hkeep _ _ _

/-- The last two steps of a call. -/
theorem leads_return {past : List Return} {l : List Word} {r : Result Word}
    (hf : Follows tid S call m' (.clearFirst r) s) (hscan : s.haz.scan tid = none)
    (hcalm : m'.Calm) (hkeep : ∀ o retired stamp, I (m'.reuse o [] retired stamp))
    (hpast : AsList past l) (hnow : AsList (past ++ [⟨S, call, r⟩]) m'.content) :
    (recorded n).Leads (fun a => a.1 = tid) (Busy tid) (Rests I) (s, past) := by
  have hfirst : Busy tid (s, past) := by
    refine ⟨?_, l, hpast⟩
    rw [hf.frame]
    exact Option.some_ne_none _
  let s₁ : Pooled n := { s.put tid (some ⟨S, call, .clearSecond r⟩) with
    haz := s.haz.reserve none 0 tid }
  have hframe : s₁.deque.frames tid = some ⟨S, call, .clearSecond r⟩ := s.put_self tid _
  have hsecond : Busy tid (s₁, past) := by
    refine ⟨?_, l, hpast⟩
    rw [hframe]
    exact Option.some_ne_none _
  refine .forced hfirst ⟨(tid, ⟨(S, call), 0, 0, 0⟩), rfl⟩ (t := (s₁, past)) ?_ ?_
  · rintro ⟨q, c⟩ rfl
    apply Machine.account_step.mpr
    refine ⟨?_, (noteReturn_of_frame ?_).symm⟩
    · simp only [recycling, Pooled.step, hscan, Option.isSome_none, Bool.false_eq_true, if_false,
        step, hf.frame, Option.elim_some]
      rfl
    · rw [hframe]
      exact Option.some_ne_none _
  · refine .forced hsecond ⟨(tid, ⟨(S, call), 0, 0, 0⟩), rfl⟩
      (t := (⟨(s.put tid none).deque, s₁.haz.reserve none 1 tid⟩, past ++ [⟨S, call, r⟩])) ?_
      (.done (Rests.of_follows hf hscan hcalm hkeep hnow rfl rfl))
    rintro ⟨q, c⟩ rfl
    apply Machine.account_step.mpr
    have hscan₁ : s₁.haz.scan q = none := hscan
    refine ⟨?_, ?_⟩
    · simp only [recycling, Pooled.step, hscan₁, Option.isSome_none, Bool.false_eq_true, if_false,
        step, hframe, Option.elim_some]
      refine congrArg (fun frames => some (Pooled.mk ⟨s.deque.mem, frames⟩ _)) ?_
      exact Function.update_idem _ _ _
    · simp only [noteReturn, hframe, Pooled.put_self]
      rfl

/-- The past can be forgotten before a call. -/
theorem Rests.follows {u : Pooled n × List Return} (h : Rests I u) (tid : Fin n) (S : Side)
    (call : Call Word) : Follows tid S call u.1.deque.mem.forget .hintLoad
      (u.1.put tid (some ⟨S, call, .hintLoad⟩)) where
  frame := Pooled.put_self _ _ _
  others k hk := ⟨(Function.update_of_ne hk _ _).trans (h.frames k), h.scans k⟩
  mem := ⟨u.1.deque.mem.dead, u.1.deque.mem.retired, u.1.deque.mem.stamp, rfl⟩
  owner _ := .inl rfl
  waits := ⟨h.waits.inRange, h.waits.nodup, h.waits.once, h.waits.owner, h.waits.dropped⟩
  leaving b hb := by cases hb
  push _ := ⟨rfl, h.scans tid⟩

/-- A call started between two calls returns. -/
theorem leads_call {J : Memory (Fin n) → Prop} {u : Pooled n × List Return} (h : Rests I u)
    (hkeep : ∀ m r, Returned S call u.1.deque.mem.forget m r →
      ∀ o retired stamp, J (m.reuse o [] retired stamp)) :
    (recorded n).Leads (fun a => a.1 = tid) (Busy tid) (Rests J)
      (u.1.put tid (some ⟨S, call, .hintLoad⟩), u.2) := by
  have hgrounded : Grounded tid S call u.1.deque.mem.forget .hintLoad := h.calm.sound.grounded
  have hleads := (h.follows tid S call).leads (solo_call h.calm) hgrounded
    fun hc m p ⟨r, _, hr⟩ => hr.dead hc
  have hrecorded : (recorded n).Leads _ _ _ (_, u.2) := hleads.account fun a s t ha _ ht => by
    apply noteReturn_of_frame
    rw [ha]
    rcases ht with ht | ⟨m, p, -, hf, -⟩
    · exact ht
    · rw [hf.frame]
      exact Option.some_ne_none _
  refine (hrecorded.through ?_).trans ?_
  · rintro ⟨t, past⟩ ⟨ht, rfl⟩
    exact ⟨ht, _, h.asList⟩
  · rintro ⟨t, past⟩ ⟨⟨m, p, ⟨r, rfl, hr⟩, hf, hscan⟩, rfl⟩
    have hnow : AsList (u.2 ++ [⟨S, call, r⟩]) m.content :=
      AsList.snoc (m := u.1.deque.mem.forget) h.asList hr
    exact leads_return hf hscan hr.calm (hkeep m r hr) h.asList hnow

/-- One thread at most is in a call, and the call returns. -/
def InTurn (I : Memory (Fin n) → Prop) (u : Pooled n × List Return) : Prop :=
  Rests I u ∨ ∃ tid, Busy tid u ∧ (∀ q, q ≠ tid → u.1.deque.frames q = none) ∧
    (recorded n).Leads (fun a => a.1 = tid) (Busy tid) (Rests I) u

theorem inTurn_of_leads {u : Pooled n × List Return}
    (hq : ∀ q, q ≠ tid → u.1.deque.frames q = none)
    (hl : (recorded n).Leads (fun a => a.1 = tid) (Busy tid) (Rests I) u) : InTurn I u := by
  by_cases hb : Busy tid u
  · exact .inr ⟨tid, hb, hq, hl⟩
  · exact .inl (hl.not_stuck hb)

/-- The calls started under a condition keep something of the memory. -/
def KeptBy (I : Memory (Fin n) → Prop)
    (ok : Fin n × Choice → Pooled n × List Return → Prop) : Prop :=
  ∀ a u, ok a u → u.1.deque.frames a.1 = none → u.1.deque.mem.forget.Calm →
    I u.1.deque.mem.forget → ∀ m r, Returned a.2.call.1 a.2.call.2 u.1.deque.mem.forget m r →
      ∀ o retired stamp, I (m.reuse o [] retired stamp)

/-- A step of the machine with the tracker changes the frame of its thread only. -/
theorem frames_of_step {u u' : Pooled n} {c : Choice} (hs : (recycling n).step (tid, c) u = some u')
    (hq : q ≠ tid) : u'.deque.frames q = u.deque.frames q := by
  simp only [recycling, Pooled.step] at hs
  split_ifs at hs
  · cases hs
    rfl
  · obtain ⟨d, hd, hs⟩ := Option.bind_eq_some_iff.mp hs
    obtain ⟨h', -, rfl⟩ := Option.map_eq_some_iff.mp hs
    rcases step_cases hd with ⟨-, rfl⟩ | ⟨f, a, p, -, -, rfl⟩
    · exact Function.update_of_ne hq _ _
    · exact Function.update_of_ne hq _ _

/-- A step between two calls starts one. -/
theorem Rests.started {u u' : Pooled n × List Return} {c : Choice} (h : Rests I u)
    (hs : (recorded n).step (tid, c) u = some u') :
    u' = (u.1.put tid (some ⟨c.call.1, c.call.2, .hintLoad⟩), u.2) := by
  obtain ⟨hst, hpast⟩ := Machine.account_step.mp hs
  rw [noteReturn_of_start (h.frames tid)] at hpast
  simp only [recycling, Pooled.step, h.scans tid, Option.isSome_none, Bool.false_eq_true, if_false,
    step, h.frames tid, Option.elim_none, Option.map_some, Option.bind_some,
    Option.some.injEq] at hst
  exact Prod.ext hst.symm hpast

theorem inTurn_step (hkeep : KeptBy I ok) {u u' : Pooled n × List Return} (h : InTurn I u)
    (hok : ok a u) (ha : Alone a u) (hs : (recorded n).step a u = some u') : InTurn I u' := by
  obtain ⟨k, c⟩ := a
  rcases h with hr | ⟨tid, hb, hq, hl⟩
  · rw [hr.started hs]
    have hleads : (recorded n).Leads (fun a => a.1 = k) (Busy k) (Rests I)
        (u.1.put k (some ⟨c.call.1, c.call.2, .hintLoad⟩), u.2) :=
      leads_call hr (hkeep (k, c) u hok (hr.frames k) hr.calm hr.kept)
    apply inTurn_of_leads _ hleads
    intro q hne
    exact (Function.update_of_ne hne _ _).trans (hr.frames q)
  · obtain rfl : k = tid := by
      by_contra hne
      exact hb.frame (ha tid fun he => hne he.symm)
    apply inTurn_of_leads _ (hl.next (fun hr => hb.frame (hr.frames k)) rfl hs)
    intro q hne
    rw [frames_of_step (Machine.account_step.mp hs).1 hne]
    exact hq q hne

theorem run_inTurn (hinit : ∀ m : Memory (Fin n), m.Init → I m) (hkeep : KeptBy I ok)
    (halone : ∀ a u, ok a u → Alone a u) {u : Pooled n × List Return}
    (h : (recorded n).Run ok u) : InTurn I u := by
  apply h.invariant
  · rintro ⟨⟨s, haz⟩, past⟩ ⟨⟨hs, rfl⟩, rfl⟩
    have hforget : s.mem.forget = s.mem := congrArg (fun d => { s.mem with dead := d })
      hs.mem.dead.symm
    refine .inl ⟨hs.frames, fun _ => rfl, ?_, ?_, ?_, ?_⟩
    · exact ⟨HazardTracker.inRange_initial, fun _ => List.nodup_nil, by rintro _ _ _ ⟨⟩,
        by rintro _ _ ⟨⟩, by rintro _ _ ⟨⟩⟩
    · change s.mem.forget.Calm
      rw [hforget]
      exact calm_init hs.mem
    · change AsList [] s.mem.content
      rw [content_init hs.mem]
      rfl
    · change I s.mem.forget
      rw [hforget]
      exact hinit _ hs.mem
  · intro a u u' _ hu hok hs
    exact inTurn_step hkeep hu hok (halone a u hok) hs

/-- Calls made one after another all return, with the results of a plain list. -/
theorem sequential_calls {u : Pooled n × List Return} (h : (recorded n).Run Alone u) :
    (∃ l, AsList u.2 l ∧
      ((∀ q, u.1.deque.frames q = none) → u.1.deque.mem.content = l)) ∧
      ∀ tid, u.1.deque.frames tid ≠ none → (recycling n).Leads (fun a => a.1 = tid)
        (fun t => t.deque.frames tid ≠ none) (fun t => t.deque.frames tid = none) u.1 := by
  have hturn : InTurn (fun _ => True) u :=
    run_inTurn (fun _ _ => trivial) (fun _ _ _ _ _ _ _ _ _ _ _ _ => trivial) (fun _ _ ha => ha) h
  rcases hturn with hr | ⟨tid, hb, hq, hl⟩
  · exact ⟨⟨_, hr.asList, fun _ => rfl⟩, fun tid htid => absurd (hr.frames tid) htid⟩
  · obtain ⟨l, hpast⟩ := hb.asList
    refine ⟨⟨l, hpast, fun hs => absurd (hs tid) hb.frame⟩, fun k hk => ?_⟩
    obtain rfl : k = tid := by
      by_contra hne
      exact hk (hq k hne)
    exact hl.of_account (fun u hu => hu.frame) fun u hu => hu.frames k

instance (a : Fin n × Choice) (u : Pooled n × List Return) : Decidable (Alone a u) :=
  inferInstanceAs (Decidable (∀ q, q ≠ a.1 → u.1.deque.frames q = none))

end Sequential

section Recycled

attribute [local instance] four

/-- The two threads. -/
def first : Fin 2 := ⟨0, by decide⟩

def second : Fin 2 := ⟨1, by decide⟩

/-- A number of steps of a thread in a call that leaves 5 in unused words. -/
def callSteps (k : ℕ) (tid : Fin 2) (S : Side) (call : Call Word) (b : Address) :
    List (Fin 2 × Choice) :=
  List.replicate k (tid, ⟨(S, call), b, 5, 0⟩)

/-- The deque with its tracker as the constructors leave them. -/
def newDeque : Pooled 2 × List Return := (⟨constructed (Fin 2), .initial⟩, [])

theorem start_newDeque : (recorded 2).Run Alone newDeque := .start ⟨⟨init_constructed, rfl⟩, rfl⟩

/-- Two pushes at the right end, of which the second one appends a buffer, and two pops, of
which the second one removes it. -/
def boundaryRound (v : Word) (b : Address) (k l : ℕ) : List (Fin 2 × Choice) :=
  callSteps k first .right (.push v) b ++ callSteps 24 second .right (.push (v + 1)) b ++
    callSteps 14 first .right .pop b ++ callSteps l second .right .pop b

/-- The third buffer that a thread removes makes it free the first one, and the last push
gets that one again. -/
def recycled : Pooled 2 × List Return :=
  ((recorded 2).exec Alone (boundaryRound 1 1 14 54 ++ boundaryRound 3 2 15 54 ++
    boundaryRound 5 3 15 63 ++ callSteps 15 first .right (.push 7) 1 ++
      callSteps 24 second .right (.push 8) 1) newDeque).getD newDeque

theorem recycled_asList : recycled.1.deque.mem.chain = [0, 1] ∧
    recycled.2.map (·.result) = [.pushed, .pushed, .popped 2, .popped 1, .pushed, .pushed,
      .popped 4, .popped 3, .pushed, .pushed, .popped 6, .popped 5, .pushed, .pushed] ∧
      AsList recycled.2 [7, 8] := by
  have hrun : (recorded 2).Run Alone recycled := Machine.Run.exec_getD _ start_newDeque
  obtain ⟨l, hl, hcontent⟩ := (sequential_calls hrun).1
  have hend : (∀ q, recycled.1.deque.frames q = none) ∧ recycled.1.deque.mem.content = [7, 8] ∧
      recycled.1.deque.mem.chain = [0, 1] ∧ recycled.2.map (·.result) = [.pushed, .pushed,
        .popped 2, .popped 1, .pushed, .pushed, .popped 4, .popped 3, .pushed, .pushed,
        .popped 6, .popped 5, .pushed, .pushed] := by decide +kernel
  obtain ⟨hidle, hlast, hchain, hresults⟩ := hend
  rw [← hcontent hidle, hlast] at hl
  exact ⟨hchain, hresults, hl⟩

end Recycled
end UnboundedDeque.OFDeque
