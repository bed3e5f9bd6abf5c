import UnboundedDeque.WSDequeConservation

/-!
# The work-stealing deque with a `long` of 32 bits

The steps of the calls again, with sums and differences that wrap around. An account holds
the index at which the last call of `grow` has begun. As long as `bottom` does not pass the
largest `long`, all indices stay in their rings; afterwards they are negative.
-/
namespace UnboundedDeque.WSDeque
open StepMachine

variable {T τ : Type*}

/-- The value of a sum or difference of two `long`. -/
def wrap (x : ℤ) : ℤ := x.bmod (2 ^ 32)

/-- `size()`, which is `1 << logsize` -/
def Ring.longSize (r : Ring T) : ℤ := wrap r.size

/-- `i % size()` -/
def Ring.index (r : Ring T) (i : ℤ) : ℤ := i.tmod r.longSize

/-- `arr[i % size()]` -/
def Ring.read (r : Ring T) (i : ℤ) : T := r.arr (r.index i).toNat

def Ring.write (r : Ring T) (i : ℤ) (val : T) : Ring T :=
  { r with arr := Function.update r.arr (r.index i).toNat val }

/-- `deque_t::push` and `deque_t::pop`. `new T[1 << logsize]` throws unless the size is
positive. -/
def ownerLong (c : Choice T) (s : State T τ) : Option (State T τ) :=
  match s.owner with
  | .idle =>
    match c.call with
    | some o => some { s with owner := .pushBottom o }
    | none => some { s with owner := .popBottom }
  | .pushBottom o => some { s with owner := .pushTop o s.bottom }
  | .pushTop o b => some { s with owner := .pushRing o b s.top }
  | .pushRing o b t =>
    (s.rings s.activeArray).map fun r =>
      if r.longSize - 1 ≤ wrap (b - t) then { s with owner := .pushNew o b t s.activeArray }
      else { s with owner := .pushPut o b s.activeArray }
  | .pushNew o b t old =>
    match s.rings c.address, s.rings old with
    | none, some r =>
      let a : Ring T := ⟨r.logsize + 1, c.junk⟩
      if 0 < a.longSize then some { s with
        rings := Function.update s.rings c.address (some a)
        owner := .pushGrow o b old c.address t }
      else none
    | _, _ => none
  | .pushGrow o b old ring i =>
    match s.rings old, s.rings ring with
    | some r, some a =>
      if i < b then some { s with
        rings := Function.update s.rings ring (some (a.write i (r.read i)))
        owner := .pushGrow o b old ring (wrap (i + 1)) }
      else some { s with owner := .pushPublish o b old ring }
    | _, _ => none
  | .pushPublish o b old ring =>
    some { s with activeArray := ring, owner := .pushRetire o b old ring }
  | .pushRetire o b old ring =>
    some { s with retired := old :: s.retired, owner := .pushPut o b ring }
  | .pushPut o b ring =>
    (s.rings ring).map fun r => { s with
      rings := Function.update s.rings ring (some (r.write b o))
      owner := .pushSetBottom o b }
  | .pushSetBottom o b =>
    some { s with bottom := wrap (b + 1), owner := .idle, log := .push o :: s.log }
  | .popBottom => some { s with owner := .popRing s.bottom }
  | .popRing b => some { s with owner := .popSetBottom (wrap (b - 1)) s.activeArray }
  | .popSetBottom b ring => some { s with bottom := b, owner := .popTop b ring }
  | .popTop b ring =>
    if wrap (b - s.top) < 0 then some { s with owner := .popRestore s.top }
    else some { s with owner := .popGet b s.top ring }
  | .popRestore t => some { s with bottom := t, owner := .idle }
  | .popGet b t ring =>
    (s.rings ring).map fun r =>
      if 0 < wrap (b - t) then { s with owner := .idle, log := .pop (r.read b) :: s.log }
      else { s with owner := .popCas t (r.read b) }
  | .popCas t o =>
    if s.top = t ∧ c.spurious = false then
      some { s with top := wrap (t + 1), owner := .popSetBottomTop t o, log := .pop o :: s.log }
    else some { s with owner := .idle }
  | .popSetBottomTop t _ => some { s with bottom := wrap (t + 1), owner := .idle }

/-- `deque_t::steal`. -/
def thiefLong [DecidableEq τ] (k : τ) (spurious : Bool) (s : State T τ) : Option (State T τ) :=
  let goto (pc : ThiefPc T) : State T τ := { s with thief := Function.update s.thief k pc }
  match s.thief k with
  | .idle => some (goto .top)
  | .top => some (goto (.bottom s.top))
  | .bottom t => some (goto (.ring t s.bottom))
  | .ring t b => some (goto (.reserve t b s.activeArray))
  | .reserve t b ring =>
    some { goto (.recheck t b ring) with hazard := Function.update s.hazard k (some ring) }
  | .recheck t b ring =>
    if ring ≠ s.activeArray then some (goto .top)
    else if wrap (b - t) ≤ 0 then some (goto (.clear .empty none))
    else some (goto (.get t ring))
  | .get t ring => (s.rings ring).map fun r => goto (.cas t (r.read t))
  | .cas t o =>
    if s.top = t ∧ spurious = false then
      some { goto (.clear .success (some o)) with top := wrap (t + 1), log := .steal k o :: s.log }
    else some (goto (.clear .abort none))
  | .clear _ _ => some { goto .idle with hazard := Function.update s.hazard k none }

def stepLong [DecidableEq τ] [Fintype τ] : Label T τ → State T τ → Option (State T τ)
  | .owner c, s => ownerLong c s
  | .thief k spurious, s => thiefLong k spurious s
  | .free a, s => if ∀ k, s.hazard k ≠ some a then freeStep a s else none

/-- The index at which `grow` begins. -/
def noteGrow : Label T τ → State T τ → State T τ → ℤ → ℤ
  | .owner _, s, _, k =>
    match s.owner with
    | .pushNew _ _ t _ => t
    | _ => k
  | _, _, _, k => k

/-- The machine with the account; the first ring could be allocated. -/
def longs (logsize : ℕ) (T τ : Type*) [DecidableEq τ] [Fintype τ] :
    Machine (Label T τ) (State T τ × ℤ) :=
  Machine.account ⟨fun s => Init logsize s ∧ 0 < wrap (2 ^ logsize), stepLong⟩ 0 noteGrow

/-- The index of a ring that a step reads or writes. A round of the loop in `grow` reads one
ring and writes another at the same index. -/
def accesses : Label T τ → State T τ → Option (List Address × ℤ)
  | .owner _, s =>
    match s.owner with
    | .pushGrow _ b old ring i => if i < b then some ([old, ring], i) else none
    | .pushPut _ b ring => some ([ring], b)
    | .popGet b _ ring => some ([ring], b)
    | _ => none
  | .thief k _, s =>
    match s.thief k with
    | .get t ring => some ([ring], t)
    | _ => none
  | .free _, _ => none

def OwnerPc.isIdle : OwnerPc T → Bool
  | .idle => true
  | _ => false

/-- No push starts when `bottom` is the largest `long`. -/
def BottomFits (l : Label T τ) (u : State T τ × ℤ) : Prop :=
  match l with
  | .owner c => u.1.owner.isIdle → c.call.isSome → u.1.bottom < 2 ^ 31 - 1
  | _ => True

instance (l : Label T τ) (u : State T τ × ℤ) : Decidable (BottomFits l u) :=
  match l with
  | .owner _ => inferInstanceAs (Decidable (_ → _ → _))
  | .thief _ _ => inferInstanceAs (Decidable True)
  | .free _ => inferInstanceAs (Decidable True)

section Ranges

/-- The values of `top` and, outside of `pop`, of `bottom`. -/
def Natural (x : ℤ) : Prop := 0 ≤ x ∧ x < 2 ^ 31

theorem wrap_eq {x : ℤ} (hl : -2 ^ 31 ≤ x) (hr : x < 2 ^ 31) : wrap x = x := by
  rw [wrap, Int.bmod_def]
  omega

theorem longSize_eq {r : Ring T} (h : r.logsize ≤ 30) : r.longSize = r.size := by
  have hpow : (2 : ℤ) ^ r.logsize ≤ 2 ^ 30 := pow_le_pow_right₀ (by decide) h
  have hpos : (0 : ℤ) < 2 ^ r.logsize := by positivity
  rw [Ring.longSize, Ring.size]
  exact wrap_eq (by omega) (by omega)

theorem le_of_wrap_pos {n : ℕ} (h : 0 < wrap (2 ^ n)) : n ≤ 30 := by
  by_contra hn
  obtain ⟨k, rfl⟩ : ∃ k, n = k + 31 := ⟨n - 31, by omega⟩
  rw [wrap, Int.bmod_def] at h
  rcases Nat.eq_zero_or_pos k with rfl | hk
  · norm_num at h
  · obtain ⟨j, rfl⟩ : ∃ j, k = j + 1 := ⟨k - 1, by omega⟩
    have hmod : (2 : ℤ) ^ (j + 1 + 31) % ((2 ^ 32 : ℕ) : ℤ) = 0 := by
      rw [show j + 1 + 31 = j + 32 by omega, pow_add]
      exact Int.mul_emod_left _ _
    rw [hmod] at h
    norm_num at h

theorem index_range {r : Ring T} (h : r.logsize ≤ 30) {i : ℤ} (hi : 0 ≤ i) :
    0 ≤ r.index i ∧ r.index i < r.longSize := by
  have hpos := r.size_pos
  rw [Ring.index, longSize_eq h]
  exact ⟨Int.tmod_nonneg _ hi, Int.tmod_lt_of_pos _ hpos⟩

theorem read_eq {r : Ring T} (h : r.logsize ≤ 30) (i : ℤ) : r.read i = r.get i := by
  rw [Ring.read, Ring.index, longSize_eq h]
  rfl

theorem write_eq {r : Ring T} (h : r.logsize ≤ 30) (i : ℤ) (v : T) : r.write i v = r.put i v := by
  rw [Ring.write, Ring.index, longSize_eq h]
  rfl

end Ranges

/-- `b` is the `bottom` of a push that has room for one more `long`. -/
def Pushing (s : State T τ) (b : ℤ) : Prop := b = s.bottom ∧ 0 ≤ b ∧ b < 2 ^ 31 - 1

/-- Ring `ring` is a larger private copy of `r` on the indices from `k` to `i`. -/
structure Copying (s : State T τ) (r : Ring T) (k b : ℤ) (ring : Address) (i : ℤ) : Prop where
  live : ring ∉ s.retired
  hidden : ring ≠ s.activeArray
  nonneg : 0 ≤ k
  below : k ≤ s.top
  begun : k ≤ i
  ended : i ≤ b
  room : b - k ≤ r.size - 1
  copied : ∃ a, s.rings ring = some a ∧ a.logsize = r.logsize + 1 ∧
    ∀ j, k ≤ j → j < i → a.get j = r.get j

/-- What the owner knows at each program point; `r` is the active ring and `k` the index at
which the last call of `grow` has begun. -/
def OwnerFits (s : State T τ) (r : Ring T) (k : ℤ) : Prop :=
  match s.owner with
  | .idle | .popBottom => 0 ≤ s.bottom
  | .pushBottom _ => Pushing s s.bottom
  | .pushTop _ b => Pushing s b
  | .pushRing _ b t => Pushing s b ∧ 0 ≤ t ∧ t ≤ s.top ∧ b - t ≤ r.size - 1
  | .pushNew _ b t old =>
    Pushing s b ∧ 0 ≤ t ∧ t ≤ s.top ∧ t ≤ b ∧ b - t ≤ r.size - 1 ∧ old = s.activeArray
  | .pushGrow _ b old ring i => Pushing s b ∧ old = s.activeArray ∧ Copying s r k b ring i
  | .pushPublish _ b old ring => Pushing s b ∧ old = s.activeArray ∧ Copying s r k b ring b
  | .pushRetire _ b old ring =>
    Pushing s b ∧ ring = s.activeArray ∧ b - s.top < r.size - 1 ∧
      old ≠ s.activeArray ∧ old ∉ s.retired ∧ s.rings old ≠ none
  | .pushPut _ b ring => Pushing s b ∧ ring = s.activeArray ∧ b - s.top < r.size - 1
  | .pushSetBottom _ b => Pushing s b ∧ b - s.top < r.size - 1
  | .popRing b => b = s.bottom ∧ 0 ≤ b
  | .popSetBottom b ring => -1 ≤ b ∧ b < 2 ^ 31 - 1 ∧ b < s.bottom ∧ ring = s.activeArray
  | .popTop b ring => b = s.bottom ∧ b < 2 ^ 31 - 1 ∧ ring = s.activeArray
  | .popRestore t => 0 ≤ t ∧ t ≤ s.top
  | .popGet b t ring =>
    b = s.bottom ∧ b < 2 ^ 31 - 1 ∧ 0 ≤ t ∧ t ≤ s.top ∧ t ≤ b ∧ ring = s.activeArray
  | .popCas t _ => t = s.bottom ∧ t < 2 ^ 31 - 1 ∧ 0 ≤ t
  | .popSetBottomTop t _ => 0 ≤ t ∧ t < s.top

/-- What thief `k` knows: the index it may win is not the largest `long`, and the ring it reads
is protected. -/
def ThiefFits (s : State T τ) (k : τ) : Prop :=
  match s.thief k with
  | .idle | .top | .clear _ _ => True
  | .bottom t => Natural t
  | .ring t b | .reserve t b _ => Natural t ∧ -1 ≤ b ∧ b < 2 ^ 31
  | .recheck t b a => (Natural t ∧ -1 ≤ b ∧ b < 2 ^ 31) ∧ s.hazard k = some a
  | .get t a => Natural (t + 1) ∧ 0 ≤ t ∧ s.hazard k = some a ∧ s.rings a ≠ none
  | .cas t _ => Natural (t + 1) ∧ 0 ≤ t

structure Fits (s : State T τ) (r : Ring T) (k : ℤ) : Prop where
  active : s.rings s.activeArray = some r
  live : s.activeArray ∉ s.retired
  retired : ∀ a ∈ s.retired, s.rings a ≠ none
  small : ∀ a q, s.rings a = some q → q.logsize ≤ 30
  top : Natural s.top
  bottom : -1 ≤ s.bottom ∧ s.bottom < 2 ^ 31
  room : s.bottom - s.top ≤ r.size - 1
  owner : OwnerFits s r k
  thief : ∀ j, ThiefFits s j

/-- What a thief knows does not depend on the other threads' words. -/
theorem ThiefFits.keep {s s' : State T τ} {k : τ} (h : ThiefFits s k)
    (pc : s'.thief k = s.thief k) (haz : s'.hazard k = s.hazard k)
    (rings : ∀ a, s.hazard k = some a → s.rings a ≠ none → s'.rings a ≠ none) :
    ThiefFits s' k := by
  unfold ThiefFits at h ⊢
  rw [pc]
  cases hk : s.thief k with
  | idle | top | clear => trivial
  | recheck t b a =>
    simp only [hk, haz] at h ⊢
    exact h
  | get t a =>
    simp only [hk, haz] at h ⊢
    exact ⟨h.1, h.2.1, h.2.2.1, rings a h.2.2.1 h.2.2.2⟩
  | bottom | ring | reserve | cas => simpa only [hk] using h

/-- A larger `top` only weakens what the owner knows. -/
theorem OwnerFits.keep {s s' : State T τ} {r : Ring T} {k : ℤ} (h : OwnerFits s r k)
    (pc : s'.owner = s.owner) (top : s.top ≤ s'.top) (bottom : s'.bottom = s.bottom)
    (active : s'.activeArray = s.activeArray) (retired : ∀ a ∈ s'.retired, a ∈ s.retired)
    (rings : ∀ a, a ∉ s.retired → s'.rings a = s.rings a) : OwnerFits s' r k := by
  have copying : ∀ {b ring i}, Copying s r k b ring i → Copying s' r k b ring i := by
    intro b ring i hc
    obtain ⟨a, ha, hcopy⟩ := hc.copied
    have ha' : s'.rings ring = some a := (rings ring hc.live).trans ha
    exact ⟨fun hm => hc.live (retired _ hm), by rw [active]; exact hc.hidden, hc.nonneg,
      hc.below.trans top, hc.begun, hc.ended, hc.room, a, ha', hcopy⟩
  unfold OwnerFits at h ⊢
  rw [pc]
  cases hpc : s.owner with
  | pushGrow | pushPublish =>
    simp only [hpc, Pushing, bottom, active] at h ⊢
    exact ⟨h.1, h.2.1, copying h.2.2⟩
  | pushRetire o b old ring =>
    simp only [hpc, Pushing, bottom, active] at h ⊢
    obtain ⟨hb, hring, hroom, hne, hold, hsome⟩ := h
    exact ⟨hb, hring, by omega, hne, fun hm => hold (retired _ hm), by rwa [rings old hold]⟩
  | pushNew =>
    simp only [hpc, Pushing, bottom, active] at h ⊢
    exact ⟨h.1, h.2.1, by omega, h.2.2.2⟩
  | pushPut =>
    simp only [hpc, Pushing, bottom, active] at h ⊢
    exact ⟨h.1, h.2.1, by omega⟩
  | popGet =>
    simp only [hpc, bottom, active] at h ⊢
    exact ⟨h.1, h.2.1, h.2.2.1, by omega, h.2.2.2.2⟩
  | pushRing | pushSetBottom | popRestore | popSetBottomTop =>
    simp only [hpc, Pushing, bottom] at h ⊢
    omega
  | _ => simpa only [hpc, Pushing, bottom, active] using h

/-- A step of the owner that leaves the rings alone. -/
theorem Fits.owner_moves {s : State T τ} {r : Ring T} {k k' : ℤ} (h : Fits s r k)
    {pc : OwnerPc T} {t b : ℤ} {es : List (Event T τ)} (top : Natural t)
    (bottom : -1 ≤ b ∧ b < 2 ^ 31) (room : b - t ≤ r.size - 1)
    (own : OwnerFits { s with top := t, bottom := b, owner := pc, log := es } r k') :
    Fits { s with top := t, bottom := b, owner := pc, log := es } r k' where
  active := h.active
  live := h.live
  retired := h.retired
  small := h.small
  top := top
  bottom := bottom
  room := room
  owner := own
  thief j := (h.thief j).keep rfl rfl fun _ _ hr => hr

/-- A step of thief `j` that leaves the rings alone. -/
theorem Fits.thief_moves [DecidableEq τ] {s : State T τ} {r : Ring T} {k t : ℤ} {j : τ}
    {pc : ThiefPc T} {hz : τ → Option Address} {es : List (Event T τ)} (h : Fits s r k)
    (top : Natural t) (grown : s.top ≤ t) (others : ∀ i, i ≠ j → hz i = s.hazard i)
    (own : ThiefFits
      { s with thief := Function.update s.thief j pc, hazard := hz, top := t, log := es } j) :
    Fits { s with thief := Function.update s.thief j pc, hazard := hz, top := t, log := es } r k where
  active := h.active
  live := h.live
  retired := h.retired
  small := h.small
  top := top
  bottom := h.bottom
  room := by
    have := h.room
    change s.bottom - t ≤ _
    omega
  owner := h.owner.keep rfl grown rfl rfl (fun _ ha => ha) fun _ _ => rfl
  thief i := by
    by_cases hi : i = j
    · exact hi ▸ own
    · exact (h.thief i).keep (Function.update_of_ne hi _ _) (others i hi) fun _ _ hr => hr

/-- While the numbers fit, a step of the owner computes what it does on unbounded indices. -/
theorem Fits.ownerLong_eq {s s' : State T τ} {r : Ring T} {k : ℤ} {c : Choice T}
    (h : Fits s r k) (hs : ownerLong c s = some s') : ownerStep c s = some s' := by
  have own := h.owner
  obtain ⟨htop, htop'⟩ := h.top
  obtain ⟨hbot, hbot'⟩ := h.bottom
  have hr := h.small _ _ h.active
  have hlong := longSize_eq hr
  cases pc : s.owner with
  | idle =>
    simp only [ownerLong, ownerStep, pc] at hs ⊢
    cases hc : c.call <;> simpa only [hc] using hs
  | pushRing o b t =>
    simp only [OwnerFits, Pushing, pc] at own
    have hw : wrap (b - t) = b - t := wrap_eq (by omega) (by omega)
    simpa only [ownerLong, ownerStep, pc, h.active, Option.map_some, hw, hlong] using hs
  | pushNew o b t old =>
    simp only [OwnerFits, pc] at own
    obtain ⟨-, -, -, -, -, rfl⟩ := own
    simp only [ownerLong, ownerStep, pc, h.active] at hs ⊢
    cases fresh : s.rings c.address with
    | some _ => simp [fresh] at hs
    | none =>
      simp only [fresh] at hs
      split_ifs at hs
      exact hs
  | pushGrow o b old ring i =>
    simp only [OwnerFits, Pushing, pc] at own
    obtain ⟨hb, rfl, hc⟩ := own
    obtain ⟨a, ha, -, -⟩ := hc.copied
    have hbegun := hc.begun
    have hnonneg := hc.nonneg
    have hended := hc.ended
    have hw : wrap (i + 1) = i + 1 := wrap_eq (by omega) (by omega)
    simpa only [ownerLong, ownerStep, pc, h.active, ha, hw, read_eq hr,
      write_eq (h.small _ _ ha)] using hs
  | pushPut o b ring =>
    simp only [OwnerFits, pc] at own
    obtain ⟨-, rfl, -⟩ := own
    simpa only [ownerLong, ownerStep, pc, h.active, Option.map_some, write_eq hr] using hs
  | pushSetBottom o b =>
    simp only [OwnerFits, Pushing, pc] at own
    have hw : wrap (b + 1) = b + 1 := wrap_eq (by omega) (by omega)
    simpa only [ownerLong, ownerStep, pc, hw] using hs
  | popRing b =>
    simp only [OwnerFits, pc] at own
    have hw : wrap (b - 1) = b - 1 := wrap_eq (by omega) (by omega)
    simpa only [ownerLong, ownerStep, pc, hw] using hs
  | popTop b ring =>
    simp only [OwnerFits, pc] at own
    have hw : wrap (b - s.top) = b - s.top := wrap_eq (by omega) (by omega)
    simpa only [ownerLong, ownerStep, pc, hw] using hs
  | popGet b t ring =>
    simp only [OwnerFits, pc] at own
    obtain ⟨hb, hb', ht, -, htb, rfl⟩ := own
    have hw : wrap (b - t) = b - t := wrap_eq (by omega) (by omega)
    simpa only [ownerLong, ownerStep, pc, h.active, Option.map_some, hw, read_eq hr] using hs
  | popCas t o =>
    simp only [OwnerFits, pc] at own
    have hw : wrap (t + 1) = t + 1 := wrap_eq (by omega) (by omega)
    simpa only [ownerLong, ownerStep, pc, hw] using hs
  | popSetBottomTop t o =>
    simp only [OwnerFits, pc] at own
    have hw : wrap (t + 1) = t + 1 := wrap_eq (by omega) (by omega)
    simpa only [ownerLong, ownerStep, pc, hw] using hs
  | _ => simpa only [ownerLong, ownerStep, pc] using hs

theorem Fits.thiefLong_eq [DecidableEq τ] {s s' : State T τ} {r : Ring T} {k : ℤ} {j : τ}
    {spurious : Bool} (h : Fits s r k) (hs : thiefLong j spurious s = some s') :
    thiefStep j spurious s = some s' := by
  have own := h.thief j
  cases pc : s.thief j with
  | recheck t b a =>
    simp only [ThiefFits, Natural, pc] at own
    have hw : wrap (b - t) = b - t := wrap_eq (by omega) (by omega)
    simpa only [thiefLong, thiefStep, pc, hw] using hs
  | get t a =>
    simp only [ThiefFits, pc] at own
    obtain ⟨q, hq⟩ := Option.ne_none_iff_exists'.mp own.2.2.2
    simpa only [thiefLong, thiefStep, pc, hq, Option.map_some, read_eq (h.small _ _ hq)] using hs
  | cas t o =>
    simp only [ThiefFits, Natural, pc] at own
    have hw : wrap (t + 1) = t + 1 := wrap_eq (by omega) (by omega)
    simpa only [thiefLong, thiefStep, pc, hw] using hs
  | _ => simpa only [thiefLong, thiefStep, pc] using hs

/-- `new T[1 << logsize]` bounds the size of the new ring. -/
theorem Fits.push_new {s : State T τ} {r : Ring T} {k : ℤ} {o : T} {b t : ℤ} {old ring : Address}
    (h : Fits s r k) (pc : s.owner = .pushNew o b t old) (fresh : s.rings ring = none)
    (junk : ℕ → T) (size : r.logsize + 1 ≤ 30) :
    Fits { s with
      rings := Function.update s.rings ring (some ⟨r.logsize + 1, junk⟩)
      owner := .pushGrow o b old ring t } r t := by
  have own := h.owner
  simp only [OwnerFits, pc] at own
  obtain ⟨hb, ht, htop, htb, hroom, rfl⟩ := own
  have hne : ring ≠ s.activeArray := by rintro rfl; simp [h.active] at fresh
  have hnr : ring ∉ s.retired := fun hm => h.retired _ hm fresh
  refine ⟨?_, h.live, ?_, ?_, h.top, h.bottom, h.room, ?_, ?_⟩
  · simpa [hne.symm] using h.active
  · intro a ha
    have : a ≠ ring := by rintro rfl; exact hnr ha
    simpa [this] using h.retired a ha
  · intro a q hq
    by_cases ha : a = ring
    · subst ha
      obtain rfl : ⟨r.logsize + 1, junk⟩ = q := by simpa using hq
      exact size
    · exact h.small a q (by simpa [ha] using hq)
  · refine ⟨hb, rfl, hnr, hne, ht, htop, le_rfl, htb, hroom, ⟨r.logsize + 1, junk⟩, by simp, rfl, ?_⟩
    intro j h1 h2
    omega
  · intro j
    refine (h.thief j).keep rfl rfl fun a _ ha => ?_
    by_cases har : a = ring
    · simp [har]
    · simpa [har] using ha

/-- A store into a ring that is there keeps what does not depend on the elements. -/
theorem Fits.store {s : State T τ} {r a : Ring T} {k : ℤ} {ring : Address} {i : ℤ} {v : T}
    {pc : OwnerPc T} (h : Fits s r k) (ha : s.rings ring = some a) {r' : Ring T}
    (active : Function.update s.rings ring (some (a.put i v)) s.activeArray = some r')
    (size : r'.size = r.size)
    (own : OwnerFits { s with
      rings := Function.update s.rings ring (some (a.put i v))
      owner := pc } r' k) :
    Fits { s with
      rings := Function.update s.rings ring (some (a.put i v))
      owner := pc } r' k := by
  refine ⟨active, h.live, ?_, ?_, h.top, h.bottom, size ▸ h.room, own, ?_⟩
  · intro x hx
    by_cases hxr : x = ring
    · simp [hxr]
    · simpa [hxr] using h.retired x hx
  · intro x q hq
    by_cases hxr : x = ring
    · subst hxr
      obtain rfl : a.put i v = q := by simpa using hq
      exact h.small _ a ha
    · exact h.small x q (by simpa [hxr] using hq)
  · intro j
    refine (h.thief j).keep rfl rfl fun x _ hx => ?_
    by_cases hxr : x = ring
    · simp [hxr]
    · simpa [hxr] using hx

theorem Fits.push_grow {s : State T τ} {r a : Ring T} {k : ℤ} {o : T} {b i : ℤ}
    {old ring : Address} (h : Fits s r k) (pc : s.owner = .pushGrow o b old ring i)
    (ha : s.rings ring = some a) (hi : i < b) :
    Fits { s with
      rings := Function.update s.rings ring (some (a.put i (r.get i)))
      owner := .pushGrow o b old ring (i + 1) } r k := by
  have own := h.owner
  simp only [OwnerFits, pc] at own
  obtain ⟨hb, hold, hc⟩ := own
  obtain ⟨a', ha', hlog, hcopy⟩ := hc.copied
  obtain rfl : a = a' := Option.some.inj (ha.symm.trans ha')
  have hbegun := hc.begun
  have hnonneg := hc.nonneg
  have hroom := hc.room
  refine h.store ha ?_ rfl ⟨hb, hold, hc.live, hc.hidden, hnonneg, hc.below, by omega, by omega,
    hroom, a.put i (r.get i), by simp, hlog, ?_⟩
  · simpa [hc.hidden.symm] using h.active
  · intro j h1 h2
    by_cases hj : j = i
    · simp [hj]
    · have hs2 := Ring.size_grown hlog
      have hpos := r.size_pos
      have hd : |j - i| < a.size := by rw [abs_lt]; constructor <;> omega
      rw [Ring.get_put_ne _ (by omega) (by omega) hd hj]
      exact hcopy j h1 (by omega)

theorem Fits.push_publish {s : State T τ} {r : Ring T} {k : ℤ} {o : T} {b : ℤ}
    {old ring : Address} (h : Fits s r k) (pc : s.owner = .pushPublish o b old ring) :
    ∃ a, Fits { s with activeArray := ring, owner := .pushRetire o b old ring } a k := by
  have own := h.owner
  simp only [OwnerFits, pc] at own
  obtain ⟨hb, rfl, hc⟩ := own
  obtain ⟨a, ha, hlog, -⟩ := hc.copied
  have hs2 := Ring.size_grown hlog
  have hpos := r.size_pos
  have hroom := hc.room
  have hbelow := hc.below
  have hlarge : b - s.top < a.size - 1 := by omega
  have hbottom : s.bottom - s.top ≤ a.size - 1 := by
    have := hb.1
    omega
  exact ⟨a, ha, hc.live, h.retired, h.small, h.top, h.bottom, hbottom,
    ⟨hb, rfl, hlarge, hc.hidden.symm, h.live, by simp [h.active]⟩, fun j =>
    (h.thief j).keep rfl rfl fun _ _ hx => hx⟩

theorem Fits.push_retire {s : State T τ} {r : Ring T} {k : ℤ} {o : T} {b : ℤ}
    {old ring : Address} (h : Fits s r k) (pc : s.owner = .pushRetire o b old ring) :
    Fits { s with retired := old :: s.retired, owner := .pushPut o b ring } r k := by
  have own := h.owner
  simp only [OwnerFits, pc] at own
  obtain ⟨hb, hring, hroom, hne, -, hold⟩ := own
  refine ⟨h.active, ?_, ?_, h.small, h.top, h.bottom, h.room, ⟨hb, hring, hroom⟩, ?_⟩
  · simp [hne.symm, h.live]
  · intro a ha
    rcases List.mem_cons.mp ha with rfl | ha
    · exact hold
    · exact h.retired a ha
  · exact fun j => (h.thief j).keep rfl rfl fun _ _ hx => hx

theorem Fits.ownerLong {s s' : State T τ} {r : Ring T} {k : ℤ} {c : Choice T}
    (h : Fits s r k) (ok : BottomFits (.owner c) (s, k)) (hs : ownerLong c s = some s') :
    ∃ r', Fits s' r' (noteGrow (.owner c) s s' k) := by
  have own := h.owner
  have htop := h.top
  have hbot := h.bottom
  have hroom := h.room
  have hpos := r.size_pos
  have hs' := h.ownerLong_eq hs
  cases pc : s.owner with
  | idle =>
    simp only [OwnerFits, BottomFits, pc, OwnerPc.isIdle] at own ok
    simp only [ownerStep, pc] at hs'
    simp only [noteGrow, pc]
    cases hc : c.call with
    | some o =>
      simp only [hc, Option.some.injEq] at hs'
      exact hs' ▸ ⟨r, h.owner_moves htop hbot hroom ⟨rfl, own, ok trivial (by simp [hc])⟩⟩
    | none =>
      simp only [hc, Option.some.injEq] at hs'
      exact hs' ▸ ⟨r, h.owner_moves htop hbot hroom own⟩
  | pushBottom o =>
    simp only [ownerStep, pc, Option.some.injEq, OwnerFits] at hs' own
    simp only [noteGrow, pc]
    exact hs' ▸ ⟨r, h.owner_moves htop hbot hroom own⟩
  | pushTop o b =>
    simp only [ownerStep, pc, Option.some.injEq, OwnerFits] at hs' own
    simp only [noteGrow, pc]
    exact hs' ▸ ⟨r, h.owner_moves htop hbot hroom ⟨own, htop.1, le_rfl, own.1 ▸ hroom⟩⟩
  | pushRing o b t =>
    simp only [ownerStep, pc, h.active, Option.map_some, Option.some.injEq, OwnerFits] at hs' own
    simp only [noteGrow, pc]
    obtain ⟨hb, ht, hle, hsz⟩ := own
    subst s'
    split_ifs with hfull
    · exact ⟨r, h.owner_moves htop hbot hroom ⟨hb, ht, hle, by omega, hsz, rfl⟩⟩
    · have hlarge : b - s.top < r.size - 1 := by omega
      exact ⟨r, h.owner_moves htop hbot hroom ⟨hb, rfl, hlarge⟩⟩
  | pushNew o b t old =>
    simp only [OwnerFits, pc] at own
    obtain ⟨-, -, -, -, -, rfl⟩ := own
    simp only [WSDeque.ownerLong, pc, h.active] at hs
    simp only [noteGrow, pc]
    cases fresh : s.rings c.address with
    | some _ => simp [fresh] at hs
    | none =>
      simp only [fresh] at hs
      split_ifs at hs with hnew
      exact Option.some.inj hs ▸ ⟨r, h.push_new pc fresh c.junk (le_of_wrap_pos hnew)⟩
  | pushGrow o b old ring i =>
    simp only [OwnerFits, pc] at own
    obtain ⟨hb, rfl, hc⟩ := own
    obtain ⟨a, ha, hcopy⟩ := hc.copied
    simp only [ownerStep, pc, h.active, ha] at hs'
    simp only [noteGrow, pc]
    split_ifs at hs' with hi
    · exact Option.some.inj hs' ▸ ⟨r, h.push_grow pc ha hi⟩
    · obtain rfl : i = b := le_antisymm hc.ended (by omega)
      exact Option.some.inj hs' ▸ ⟨r, h.owner_moves htop hbot hroom ⟨hb, rfl, hc.live, hc.hidden,
        hc.nonneg, hc.below, hc.begun, hc.ended, hc.room, a, ha, hcopy⟩⟩
  | pushPublish o b old ring =>
    simp only [ownerStep, pc, Option.some.injEq] at hs'
    simp only [noteGrow, pc]
    exact hs' ▸ h.push_publish pc
  | pushRetire o b old ring =>
    simp only [ownerStep, pc, Option.some.injEq] at hs'
    simp only [noteGrow, pc]
    exact hs' ▸ ⟨r, h.push_retire pc⟩
  | pushPut o b ring =>
    simp only [OwnerFits, pc] at own
    obtain ⟨hb, rfl, hlarge⟩ := own
    simp only [ownerStep, pc, h.active, Option.map_some, Option.some.injEq] at hs'
    simp only [noteGrow, pc]
    exact hs' ▸ ⟨r.put b o, h.store h.active (by simp) rfl ⟨hb, hlarge⟩⟩
  | pushSetBottom o b =>
    simp only [ownerStep, pc, Option.some.injEq, OwnerFits, Pushing] at hs' own
    simp only [noteGrow, pc]
    have hnext : 0 ≤ b + 1 := by omega
    exact hs' ▸ ⟨r, h.owner_moves htop (by omega) (by omega) hnext⟩
  | popBottom =>
    simp only [ownerStep, pc, Option.some.injEq, OwnerFits] at hs' own
    simp only [noteGrow, pc]
    exact hs' ▸ ⟨r, h.owner_moves htop hbot hroom ⟨rfl, own⟩⟩
  | popRing b =>
    simp only [ownerStep, pc, Option.some.injEq, OwnerFits] at hs' own
    simp only [noteGrow, pc]
    have hnext : -1 ≤ b - 1 ∧ b - 1 < 2 ^ 31 - 1 ∧ b - 1 < s.bottom := by omega
    exact hs' ▸ ⟨r, h.owner_moves htop hbot hroom ⟨hnext.1, hnext.2.1, hnext.2.2, rfl⟩⟩
  | popSetBottom b ring =>
    simp only [ownerStep, pc, Option.some.injEq, OwnerFits] at hs' own
    simp only [noteGrow, pc]
    exact hs' ▸ ⟨r, h.owner_moves htop (by omega) (by omega) ⟨rfl, own.2.1, own.2.2.2⟩⟩
  | popTop b ring =>
    simp only [ownerStep, pc, OwnerFits] at hs' own
    simp only [noteGrow, pc]
    split_ifs at hs' with hneg
    · exact Option.some.inj hs' ▸ ⟨r, h.owner_moves htop hbot hroom ⟨htop.1, le_rfl⟩⟩
    · exact Option.some.inj hs' ▸ ⟨r, h.owner_moves htop hbot hroom
        ⟨own.1, own.2.1, htop.1, le_rfl, by omega, own.2.2⟩⟩
  | popRestore t =>
    simp only [ownerStep, pc, Option.some.injEq, OwnerFits, Natural] at hs' own htop
    simp only [noteGrow, pc]
    exact hs' ▸ ⟨r, h.owner_moves htop (by omega) (by omega) own.1⟩
  | popGet b t ring =>
    simp only [OwnerFits, pc] at own
    obtain ⟨hb, hb', ht, hle, htb, rfl⟩ := own
    simp only [ownerStep, pc, h.active, Option.map_some, Option.some.injEq] at hs'
    simp only [noteGrow, pc]
    split_ifs at hs' with hpos
    · have hidle : 0 ≤ s.bottom := by omega
      exact hs' ▸ ⟨r, h.owner_moves htop hbot hroom hidle⟩
    · obtain rfl : t = b := by omega
      exact hs' ▸ ⟨r, h.owner_moves htop hbot hroom ⟨hb, hb', ht⟩⟩
  | popCas t o =>
    simp only [OwnerFits, pc] at own
    simp only [ownerStep, pc] at hs'
    simp only [noteGrow, pc]
    split_ifs at hs' with hwon
    · have hnext : Natural (t + 1) := ⟨by omega, by omega⟩
      have hlt : t < t + 1 := by omega
      exact Option.some.inj hs' ▸ ⟨r, h.owner_moves hnext hbot (by omega) ⟨own.2.2, hlt⟩⟩
    · have hidle : 0 ≤ s.bottom := by omega
      exact Option.some.inj hs' ▸ ⟨r, h.owner_moves htop hbot hroom hidle⟩
  | popSetBottomTop t o =>
    simp only [ownerStep, pc, Option.some.injEq, OwnerFits, Natural] at hs' own htop
    simp only [noteGrow, pc]
    have hidle : 0 ≤ t + 1 := by omega
    exact hs' ▸ ⟨r, h.owner_moves htop (by omega) (by omega) hidle⟩

theorem Fits.thiefLong [DecidableEq τ] {s s' : State T τ} {r : Ring T} {k : ℤ} {j : τ}
    {spurious : Bool} (h : Fits s r k) (hs : thiefLong j spurious s = some s') :
    Fits s' r k := by
  have own := h.thief j
  have htop := h.top
  have hbot := h.bottom
  have others : ∀ i, i ≠ j → s.hazard i = s.hazard i := fun _ _ => rfl
  replace hs := h.thiefLong_eq hs
  cases pc : s.thief j with
  | idle =>
    simp only [thiefStep, pc, Option.some.injEq] at hs
    exact hs ▸ h.thief_moves htop le_rfl others (by simp [ThiefFits])
  | top =>
    simp only [thiefStep, pc, Option.some.injEq] at hs
    exact hs ▸ h.thief_moves htop le_rfl others (by simpa [ThiefFits] using htop)
  | bottom t =>
    simp only [thiefStep, pc, Option.some.injEq, ThiefFits] at hs own
    exact hs ▸ h.thief_moves htop le_rfl others (by simpa [ThiefFits] using ⟨own, hbot⟩)
  | ring t b =>
    simp only [thiefStep, pc, Option.some.injEq, ThiefFits] at hs own
    exact hs ▸ h.thief_moves htop le_rfl others (by simpa [ThiefFits] using own)
  | reserve t b a =>
    simp only [thiefStep, pc, Option.some.injEq, ThiefFits] at hs own
    refine hs ▸ h.thief_moves htop le_rfl (fun i hi => Function.update_of_ne hi _ _) ?_
    simpa [ThiefFits] using own
  | recheck t b a =>
    simp only [thiefStep, pc, ThiefFits, Natural] at hs own
    obtain ⟨hword, hh⟩ := own
    split_ifs at hs with hchanged hempty
    · exact Option.some.inj hs ▸ h.thief_moves htop le_rfl others (by simp [ThiefFits])
    · exact Option.some.inj hs ▸ h.thief_moves htop le_rfl others (by simp [ThiefFits])
    · obtain rfl : a = s.activeArray := not_not.mp hchanged
      have hnext : Natural (t + 1) := ⟨by omega, by omega⟩
      refine Option.some.inj hs ▸ h.thief_moves htop le_rfl others ?_
      simp only [ThiefFits, Function.update_self]
      exact ⟨hnext, hword.1.1, hh, by simp [h.active]⟩
  | get t a =>
    simp only [ThiefFits, pc] at own
    obtain ⟨hnext, ht, -, hring⟩ := own
    obtain ⟨q, hq⟩ := Option.ne_none_iff_exists'.mp hring
    simp only [thiefStep, pc, hq, Option.map_some, Option.some.injEq] at hs
    refine hs ▸ h.thief_moves htop le_rfl others ?_
    simp only [ThiefFits, Function.update_self]
    exact ⟨hnext, ht⟩
  | cas t o =>
    simp only [thiefStep, pc, ThiefFits] at hs own
    split_ifs at hs with hwon
    · obtain ⟨rfl, -⟩ := hwon
      exact Option.some.inj hs ▸ h.thief_moves own.1 (by omega) others (by simp [ThiefFits])
    · exact Option.some.inj hs ▸ h.thief_moves htop le_rfl others (by simp [ThiefFits])
  | clear flag out =>
    simp only [thiefStep, pc, Option.some.injEq] at hs
    exact hs ▸ h.thief_moves htop le_rfl (fun i hi => Function.update_of_ne hi _ _)
      (by simp [ThiefFits])

theorem Fits.freeStep {s s' : State T τ} {r : Ring T} {k : ℤ} {a : Address} (h : Fits s r k)
    (free : ∀ j, s.hazard j ≠ some a) (hs : freeStep a s = some s') : Fits s' r k := by
  unfold WSDeque.freeStep at hs
  split_ifs at hs with hmem
  obtain rfl := Option.some.inj hs
  have hactive : s.activeArray ≠ a := by rintro rfl; exact h.live hmem
  refine ⟨by simpa [hactive] using h.active, ?_, ?_, ?_, h.top, h.bottom, h.room, ?_, ?_⟩
  · simp [h.live]
  · intro x hx
    simp only [List.mem_filter, decide_eq_true_eq] at hx
    simpa [hx.2] using h.retired x hx.1
  · intro x q hq
    by_cases hxa : x = a
    · simp [hxa] at hq
    · exact h.small x q (by simpa [hxa] using hq)
  · refine h.owner.keep rfl le_rfl rfl rfl ?_ ?_
    · simp only [List.mem_filter]
      exact fun x hx => hx.1
    · intro x hx
      have hxa : x ≠ a := by rintro rfl; exact hx hmem
      exact Function.update_of_ne hxa _ _
  · intro j
    refine (h.thief j).keep rfl rfl fun x hx hr => ?_
    have hxa : x ≠ a := by rintro rfl; exact free j hx
    simpa [hxa] using hr

theorem Fits.init {logsize : ℕ} {s : State T τ} (h : Init logsize s)
    (size : 0 < wrap (2 ^ logsize)) : ∃ r, Fits s r 0 := by
  obtain ⟨arr, hr⟩ := h.ring
  have hpos := Ring.size_pos (⟨logsize, arr⟩ : Ring T)
  have hsmall := le_of_wrap_pos size
  refine ⟨⟨logsize, arr⟩, hr, by simp [h.retired], by simp [h.retired], ?_, ?_, ?_, ?_, ?_, ?_⟩
  · intro a q hq
    by_cases ha : a = s.activeArray
    · obtain rfl : ⟨logsize, arr⟩ = q := Option.some.inj (hr.symm.trans (ha ▸ hq))
      exact hsmall
    · simp [h.unused a ha] at hq
  · simp [Natural, h.top]
  · simp [h.bottom]
  · rw [h.top, h.bottom]
    omega
  · simp [OwnerFits, h.owner, h.bottom]
  · intro j
    simp [ThiefFits, h.thief j]

/-- An index that a step uses lies in a ring that is there. -/
theorem Fits.access {l : Label T τ} {s : State T τ} {r : Ring T} {k i : ℤ} {as : List Address}
    (h : Fits s r k) (hacc : accesses l s = some (as, i)) :
    ∀ a ∈ as, ∃ q, s.rings a = some q ∧ 0 ≤ q.index i ∧ q.index i < q.longSize := by
  have range : ∀ {a q}, s.rings a = some q → 0 ≤ i →
      ∃ q, s.rings a = some q ∧ 0 ≤ q.index i ∧ q.index i < q.longSize :=
    fun hq hi => ⟨_, hq, index_range (h.small _ _ hq) hi⟩
  cases l with
  | owner c =>
    have own := h.owner
    simp only [accesses] at hacc
    cases pc : s.owner with
    | pushGrow o b old ring i' =>
      simp only [OwnerFits, pc] at own hacc
      obtain ⟨hb, rfl, hc⟩ := own
      obtain ⟨a, ha, -, -⟩ := hc.copied
      split_ifs at hacc
      simp only [Option.some.injEq, Prod.mk.injEq] at hacc
      obtain ⟨rfl, rfl⟩ := hacc
      have hi : 0 ≤ i' := hc.nonneg.trans hc.begun
      intro x hx
      simp only [List.mem_cons, List.not_mem_nil, or_false] at hx
      rcases hx with rfl | rfl
      · exact range h.active hi
      · exact range ha hi
    | pushPut o b ring =>
      simp only [OwnerFits, pc, Option.some.injEq, Prod.mk.injEq] at own hacc
      obtain ⟨hb, rfl, -⟩ := own
      obtain ⟨rfl, rfl⟩ := hacc
      simpa using range h.active hb.2.1
    | popGet b t ring =>
      simp only [OwnerFits, pc, Option.some.injEq, Prod.mk.injEq] at own hacc
      obtain ⟨-, -, ht, -, htb, rfl⟩ := own
      obtain ⟨rfl, rfl⟩ := hacc
      simpa using range h.active (ht.trans htb)
    | _ => simp [pc] at hacc
  | thief j spurious =>
    have own := h.thief j
    simp only [accesses] at hacc
    cases pc : s.thief j with
    | get t a =>
      simp only [ThiefFits, pc, Option.some.injEq, Prod.mk.injEq] at own hacc
      obtain ⟨-, ht, -, hring⟩ := own
      obtain ⟨rfl, rfl⟩ := hacc
      obtain ⟨q, hq⟩ := Option.ne_none_iff_exists'.mp hring
      simpa using range hq ht
    | _ => simp [pc] at hacc
  | free a => simp [accesses] at hacc

/-- Two indices of the contents have different cells. -/
theorem Fits.apart {s : State T τ} {r : Ring T} {k i j : ℤ} (h : Fits s r k)
    (hi : s.top ≤ i ∧ i < s.bottom) (hj : s.top ≤ j ∧ j < s.bottom) (hne : i ≠ j) :
    r.index i ≠ r.index j := by
  have htop := h.top.1
  have hroom := h.room
  have hd : |i - j| < r.size := by rw [abs_lt]; constructor <;> omega
  intro hij
  apply hne
  apply Ring.cell_injective (by omega) (by omega) hd
  simpa only [Ring.index, longSize_eq (h.small _ _ h.active), Ring.cell] using
    congrArg Int.toNat hij

variable [DecidableEq τ] [Fintype τ]

theorem Fits.step {l : Label T τ} {s s' : State T τ} {r : Ring T} {k : ℤ} (h : Fits s r k)
    (ok : BottomFits l (s, k)) (hs : stepLong l s = some s') :
    ∃ r', Fits s' r' (noteGrow l s s' k) := by
  cases l with
  | owner c => exact h.ownerLong ok hs
  | thief j spurious => exact ⟨r, h.thiefLong hs⟩
  | free a =>
    simp only [stepLong] at hs
    split_ifs at hs with hfree
    exact ⟨r, h.freeStep hfree hs⟩

theorem fits_of_run {logsize : ℕ} {u : State T τ × ℤ} (h : (longs logsize T τ).Run BottomFits u) :
    ∃ r, Fits u.1 r u.2 := by
  apply h.invariant
  · intro u hu
    rw [hu.2]
    exact Fits.init hu.1.1 hu.1.2
  · intro l u v _ hu ok hv
    obtain ⟨r, hr⟩ := hu
    obtain ⟨hmove, hnote⟩ := Machine.account_step.mp hv
    rw [hnote]
    exact hr.step ok hmove

/-- As long as `bottom` does not pass the largest `long`, the deque does what it does with
unbounded indices. -/
theorem reachable_of_longs {logsize : ℕ} {u : State T τ × ℤ}
    (h : (longs logsize T τ).Run BottomFits u) : (machine logsize T τ).Reachable u.1 := by
  apply h.invariant
  · intro u hu
    exact .start hu.1.1
  · intro l u v hrun hu ok hv
    obtain ⟨r, hr⟩ := fits_of_run hrun
    obtain ⟨hmove, -⟩ := Machine.account_step.mp hv
    refine .step hu trivial (a := l) ?_
    cases l with
    | owner c => exact hr.ownerLong_eq hmove
    | thief j spurious => exact hr.thiefLong_eq hmove
    | free a => exact hmove

/-- In every run in which `bottom` does not pass the largest `long`, every index used is in its
ring, the indices of the contents have cells of their own, and a ring that `grow` has filled
holds at all indices what the old one holds. -/
theorem ring_indices_in_range {logsize : ℕ} {u : State T τ × ℤ}
    (h : (longs logsize T τ).Run BottomFits u) :
    (∀ l as i, accesses l u.1 = some (as, i) →
      ∀ a ∈ as, ∃ r, u.1.rings a = some r ∧ 0 ≤ r.index i ∧ r.index i < r.longSize) ∧
    (∃ r, u.1.rings u.1.activeArray = some r ∧ ∀ i j, u.1.top ≤ i ∧ i < u.1.bottom →
      u.1.top ≤ j ∧ j < u.1.bottom → i ≠ j → r.index i ≠ r.index j) ∧
    ∀ o b old ring, u.1.owner = .pushPublish o b old ring →
      ∃ r a, u.1.rings old = some r ∧ u.1.rings ring = some a ∧
        ∀ i, u.2 ≤ i → i < b → a.read i = r.read i := by
  obtain ⟨r, hr⟩ := fits_of_run h
  refine ⟨fun l as i hacc => hr.access hacc,
    ⟨r, hr.active, fun i j hi hj hne => hr.apart hi hj hne⟩, ?_⟩
  intro o b old ring pc
  have own := hr.owner
  simp only [OwnerFits, pc] at own
  obtain ⟨-, rfl, hc⟩ := own
  obtain ⟨a, ha, -, hcopy⟩ := hc.copied
  refine ⟨r, a, hr.active, ha, fun i h1 h2 => ?_⟩
  rw [read_eq (hr.small _ _ ha), read_eq (hr.small _ _ hr.active)]
  exact hcopy i h1 h2

deriving instance DecidableEq for OwnerPc

/-- A second push into a deque of one cell has filled its new ring. -/
theorem ring_indices_of_growth :
    ∃ u, (longs 0 ℕ (Fin 1)).Run BottomFits u ∧ u.1.owner = .pushPublish 6 1 1 2 ∧ u.2 = 0 ∧
      ∃ r a, u.1.rings 1 = some r ∧ u.1.rings 2 = some a ∧ r.read 0 = 5 ∧ a.read 0 = 5 := by
  let s : State ℕ (Fin 1) :=
    { start ℕ (Fin 1) with rings := fun a => if a = 0 then some ⟨0, fun _ => 0⟩ else none }
  let push (o a k : ℕ) : List (Label ℕ (Fin 1)) :=
    List.replicate k (.owner ⟨some o, a, fun _ => 0, false⟩)
  have hinit : Init 0 s :=
    ⟨rfl, rfl, ⟨fun _ => 0, rfl⟩, fun a ha => if_neg ha, rfl, rfl, fun _ => rfl, rfl⟩
  have hsize : 0 < wrap (2 ^ 0) := by decide
  have hexec : ((longs 0 ℕ (Fin 1)).exec BottomFits (push 5 1 10 ++ push 6 2 7) (s, 0)).map
      (fun u => (u.1.owner, u.2, (u.1.rings 1).map (·.read 0))) =
        some (.pushPublish 6 1 1 2, 0, some 5) := by decide +kernel
  obtain ⟨u, hu, hfacts⟩ := Option.map_eq_some_iff.mp hexec
  simp only [Prod.mk.injEq, Option.map_eq_some_iff] at hfacts
  obtain ⟨hpc, hk, r, hr, hread⟩ := hfacts
  have hrun : (longs 0 ℕ (Fin 1)).Run BottomFits u := .exec (.start ⟨⟨hinit, hsize⟩, rfl⟩) hu
  obtain ⟨-, -, hcopy⟩ := ring_indices_in_range hrun
  obtain ⟨q, a, hq, ha, heq⟩ := hcopy _ _ _ _ hpc
  obtain rfl : r = q := Option.some.inj (hr.symm.trans hq)
  have hsame : a.read 0 = r.read 0 := heq 0 hk.le (by decide)
  exact ⟨u, hrun, hpc, hk, r, a, hr, ha, hread, hsame.trans hread⟩

section SignChange

/-- The choices of an owner that pushes `1` or pops. -/
def chosen (call : Option ℕ) : Choice ℕ := ⟨call, 0, fun _ => 0, false⟩

/-- The owner is idle and the active ring has 1024 cells. -/
def Rests (s : State ℕ Unit) (t b : ℤ) : Prop :=
  s.owner = .idle ∧ s.top = t ∧ s.bottom = b ∧ ∃ arr, s.rings s.activeArray = some ⟨10, arr⟩

theorem longs_step {s : State ℕ Unit} {k : ℤ} (call : Option ℕ) (s' : State ℕ Unit)
    (h : (longs 10 ℕ Unit).Reachable (s, k)) (hs : ownerLong (chosen call) s = some s') :
    ∃ k', (longs 10 ℕ Unit).Reachable (s', k') := by
  have hmove : stepLong (.owner (chosen call)) s = some s' := hs
  let k' := noteGrow (.owner (chosen call)) s s' k
  have hnote : (longs 10 ℕ Unit).step (.owner (chosen call)) (s, k) = some (s', k') :=
    Machine.account_step.mpr ⟨hmove, rfl⟩
  exact ⟨k', .step h trivial hnote⟩

theorem longSize_ten (arr : ℕ → ℕ) : (⟨10, arr⟩ : Ring ℕ).longSize = 1024 := by
  rw [longSize_eq (by simp), Ring.size]
  norm_num

/-- A push with room in the ring, up to its call of `put`. -/
theorem push_leads {s : State ℕ Unit} {k t b : ℤ} (h : (longs 10 ℕ Unit).Reachable (s, k))
    (hs : Rests s t b) (room : wrap (b - t) < 1023) :
    ∃ k', (longs 10 ℕ Unit).Reachable ({ s with owner := .pushPut 1 b s.activeArray }, k') := by
  obtain ⟨hidle, rfl, rfl, arr, hr⟩ := hs
  have hsmall : ¬1024 - 1 ≤ wrap (s.bottom - s.top) := by omega
  obtain ⟨_, h⟩ := longs_step (some 1) { s with owner := .pushBottom 1 } h
    (by simp [ownerLong, chosen, hidle])
  obtain ⟨_, h⟩ := longs_step none { s with owner := .pushTop 1 s.bottom } h rfl
  obtain ⟨_, h⟩ := longs_step none { s with owner := .pushRing 1 s.bottom s.top } h rfl
  refine longs_step none { s with owner := .pushPut 1 s.bottom s.activeArray } h ?_
  simp only [ownerLong, hr, Option.map_some, longSize_ten, if_neg hsmall]

theorem push_rests {s : State ℕ Unit} {k t b : ℤ} (h : (longs 10 ℕ Unit).Reachable (s, k))
    (hs : Rests s t b) (room : wrap (b - t) < 1023) :
    ∃ s' k', (longs 10 ℕ Unit).Reachable (s', k') ∧ Rests s' t (wrap (b + 1)) := by
  obtain ⟨_, h⟩ := push_leads h hs room
  obtain ⟨hidle, rfl, rfl, arr, hr⟩ := hs
  let rings := Function.update s.rings s.activeArray (some ((⟨10, arr⟩ : Ring ℕ).write s.bottom 1))
  obtain ⟨_, h⟩ := longs_step none { s with rings, owner := .pushSetBottom 1 s.bottom } h
    (by simp only [ownerLong, hr, Option.map_some, rings])
  obtain ⟨_, h⟩ := longs_step none
    { s with rings, bottom := wrap (s.bottom + 1), owner := .idle, log := .push 1 :: s.log } h rfl
  exact ⟨_, _, h, rfl, rfl, rfl, _, Function.update_self _ _ _⟩

/-- A pop of the only value. -/
theorem pop_rests {s : State ℕ Unit} {k n : ℤ} (h : (longs 10 ℕ Unit).Reachable (s, k))
    (hs : Rests s n (n + 1)) (hn : 0 ≤ n) (hn' : n < 2 ^ 31 - 1) :
    ∃ s' k', (longs 10 ℕ Unit).Reachable (s', k') ∧ Rests s' (n + 1) (n + 1) := by
  obtain ⟨hidle, rfl, hb, arr, hr⟩ := hs
  have hlower : wrap (s.bottom - 1) = s.top := by rw [hb, wrap_eq] <;> omega
  have hraise : wrap (s.top + 1) = s.top + 1 := wrap_eq (by omega) (by omega)
  have hzero : wrap (s.top - s.top) = 0 := by rw [sub_self, wrap_eq] <;> omega
  let o := (⟨10, arr⟩ : Ring ℕ).read s.top
  obtain ⟨_, h⟩ := longs_step none { s with owner := .popBottom } h
    (by simp [ownerLong, chosen, hidle])
  obtain ⟨_, h⟩ := longs_step none { s with owner := .popRing s.bottom } h rfl
  obtain ⟨_, h⟩ := longs_step none { s with owner := .popSetBottom s.top s.activeArray } h
    (by simp only [ownerLong, hlower])
  obtain ⟨_, h⟩ := longs_step none
    { s with bottom := s.top, owner := .popTop s.top s.activeArray } h rfl
  obtain ⟨_, h⟩ := longs_step none
    { s with bottom := s.top, owner := .popGet s.top s.top s.activeArray } h
    (by simp only [ownerLong, hzero, lt_irrefl, if_false])
  obtain ⟨_, h⟩ := longs_step none { s with bottom := s.top, owner := .popCas s.top o } h
    (by simp only [ownerLong, hr, hzero, lt_irrefl, if_false, Option.map_some, o])
  obtain ⟨_, h⟩ := longs_step none
    { s with
      top := s.top + 1
      bottom := s.top
      owner := .popSetBottomTop s.top o
      log := .pop o :: s.log } h
    (by simp only [ownerLong, chosen, hraise, and_self, if_true])
  obtain ⟨_, h⟩ := longs_step none
    { s with
      top := s.top + 1
      bottom := s.top + 1
      owner := .idle
      log := .pop o :: s.log } h
    (by simp only [ownerLong, hraise])
  exact ⟨_, _, h, rfl, rfl, rfl, arr, hr⟩

/-- Pushes and pops in turn move both ends up. -/
theorem rests_at (n : ℕ) (hn : (n : ℤ) ≤ 2 ^ 31 - 1) :
    ∃ s k, (longs 10 ℕ Unit).Reachable (s, k) ∧ Rests s n n := by
  induction n with
  | zero =>
    let s : State ℕ Unit :=
      { top := 0, bottom := 0, activeArray := 0, retired := [], owner := .idle, log := []
        rings := fun a => if a = 0 then some ⟨10, fun _ => 0⟩ else none
        hazard := fun _ => none
        thief := fun _ => .idle }
    have hinit : Init 10 s :=
      ⟨rfl, rfl, ⟨fun _ => 0, rfl⟩, fun a ha => if_neg ha, rfl, rfl, fun _ => rfl, rfl⟩
    have hsize : 0 < wrap (2 ^ 10) := by rw [wrap_eq] <;> norm_num
    exact ⟨s, 0, .start ⟨⟨hinit, hsize⟩, rfl⟩, rfl, rfl, rfl, fun _ => 0, rfl⟩
  | succ n ih =>
    push_cast at hn ⊢
    obtain ⟨s, k, h, hs⟩ := ih (by omega)
    have hroom : wrap ((n : ℤ) - n) < 1023 := by rw [sub_self, wrap_eq] <;> omega
    obtain ⟨s', k', h', hs'⟩ := push_rests h hs hroom
    rw [wrap_eq (by omega) (by omega)] at hs'
    exact pop_rests h' hs' (by omega) (by omega)

/-- After the sign change a push stores at a negative index. -/
theorem ring_index_negative : ∃ u, (longs 10 ℕ Unit).Reachable u ∧
    ∃ l as i, accesses l u.1 = some (as, i) ∧
      ∃ a ∈ as, ∃ r, u.1.rings a = some r ∧ r.index i = -1023 := by
  obtain ⟨s, k, h, hs⟩ := rests_at (2 ^ 31 - 1) (by norm_num)
  norm_num at hs
  have hroom : wrap (2147483647 - 2147483647) < 1023 := by norm_num [wrap_eq]
  obtain ⟨s, k, h, hs⟩ := push_rests h hs hroom
  have hnext : wrap (2147483647 + 1) = -2147483648 := by norm_num [wrap, Int.bmod_def]
  rw [hnext] at hs
  have hroom : wrap (-2147483648 - 2147483647) < 1023 := by norm_num [wrap, Int.bmod_def]
  obtain ⟨s, k, h, hs⟩ := push_rests h hs hroom
  have hnext : wrap (-2147483648 + 1) = -2147483647 := by norm_num [wrap, Int.bmod_def]
  rw [hnext] at hs
  have hroom : wrap (-2147483647 - 2147483647) < 1023 := by norm_num [wrap, Int.bmod_def]
  obtain ⟨k, h⟩ := push_leads h hs hroom
  obtain ⟨-, -, -, arr, hr⟩ := hs
  refine ⟨_, h, .owner (chosen none), _, _, rfl, s.activeArray, by simp, _, hr, ?_⟩
  rw [Ring.index, longSize_ten]
  rfl

end SignChange

end UnboundedDeque.WSDeque
