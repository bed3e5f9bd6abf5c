import UnboundedDeque.WSDequeMachine

/-!
# The invariant of the work-stealing deque

The contents are the entries of the active ring between `top` and a limit that
is `bottom` except inside `pop`, where the owner has lowered `bottom` ahead of
its decision. A thief that may still win its compare-exchange read an index
below the limit and holds the value stored there.
-/
namespace UnboundedDeque.WSDeque
open StepMachine

variable {T τ : Type*}

theorem Ring.size_pos (r : Ring T) : 0 < r.size := by simp [Ring.size]

/-- Indices less than a ring size apart have different cells. -/
theorem Ring.cell_injective {r : Ring T} {i j : ℤ} (hi : 0 ≤ i) (hj : 0 ≤ j)
    (hd : |i - j| < r.size) (h : r.cell i = r.cell j) : i = j := by
  have hn := r.size_pos
  have hmod : i % r.size = j % r.size := by
    have hi' := Int.emod_nonneg i hn.ne'
    have hj' := Int.emod_nonneg j hn.ne'
    simp only [Ring.cell, Int.tmod_eq_emod_of_nonneg hi, Int.tmod_eq_emod_of_nonneg hj] at h
    omega
  have hdvd : r.size ∣ i - j := (Int.ModEq.symm hmod).dvd
  have := Int.eq_zero_of_abs_lt_dvd hdvd hd
  omega

@[simp] theorem Ring.get_put (r : Ring T) (i : ℤ) (v : T) : (r.put i v).get i = v := by
  simp [Ring.put, Ring.get, Ring.cell, Ring.size]

@[simp] theorem Ring.size_put (r : Ring T) (i : ℤ) (v : T) : (r.put i v).size = r.size := rfl

theorem Ring.get_put_ne {r : Ring T} {i j : ℤ} (v : T) (hi : 0 ≤ i) (hj : 0 ≤ j)
    (hd : |j - i| < r.size) (hne : j ≠ i) : (r.put i v).get j = r.get j := by
  have hc : r.cell j ≠ r.cell i := fun h => hne (cell_injective hj hi hd h)
  change Function.update r.arr (r.cell i) v (r.cell j) = r.arr (r.cell j)
  rw [Function.update_of_ne hc]

theorem Ring.entries_congr {r r' : Ring T} {t b : ℤ}
    (h : ∀ j, t ≤ j → j < b → r'.get j = r.get j) : r'.entries t b = r.entries t b := by
  refine List.map_congr_left fun j hj => h _ (by omega) ?_
  have := List.mem_range.mp hj
  omega

theorem Ring.entries_nil (r : Ring T) {t b : ℤ} (h : b ≤ t) : r.entries t b = [] := by
  simp [Ring.entries, Int.toNat_of_nonpos (show b - t ≤ 0 by omega)]

theorem Ring.entries_snoc (r : Ring T) {t b : ℤ} (h : t ≤ b) :
    r.entries t (b + 1) = r.entries t b ++ [r.get b] := by
  have hn : (b + 1 - t).toNat = (b - t).toNat + 1 := by omega
  simp only [Ring.entries, hn, List.range_succ, List.map_append, List.map_cons, List.map_nil]
  rw [show t + ((b - t).toNat : ℤ) = b by omega]

theorem Ring.entries_cons (r : Ring T) {t b : ℤ} (h : t < b) :
    r.entries t b = r.get t :: r.entries (t + 1) b := by
  have hn : (b - t).toNat = (b - (t + 1)).toNat + 1 := by omega
  simp only [Ring.entries, hn, List.range_succ_eq_map, List.map_cons, List.map_map]
  refine congrArg₂ _ (by simp) (List.map_congr_left fun j _ => ?_)
  simp only [Function.comp_apply, Nat.cast_succ]
  congr 1
  omega

/-- The index after the last one whose value is still in the deque. -/
def State.limit (s : State T τ) : ℤ :=
  match s.owner with
  | .popTop b _ => b + 1
  | .popRestore t => t
  | .popGet b _ _ => b + 1
  | .popCas t _ => t + 1
  | .popSetBottomTop t _ => t + 1
  | _ => s.bottom

/-- The index after the last one a thief may still win: an owner that saw two
or more values takes the last one without a compare-exchange. -/
def State.stealLimit (s : State T τ) : ℤ :=
  match s.owner with
  | .popGet b t _ => if t < b then b else b + 1
  | _ => s.limit

/-- The ring `grow` is filling, not yet seen by thieves. -/
def State.building (s : State T τ) : Option Address :=
  match s.owner with
  | .pushGrow _ _ _ ring _ => some ring
  | .pushPublish _ _ _ ring => some ring
  | _ => none

/-- Ring `ring` is a larger private copy of `r` on the indices from `t` to `i`. -/
def Copied (s : State T τ) (r : Ring T) (b : ℤ) (ring : Address) (i : ℤ) : Prop :=
  ring ∉ s.retired ∧ ring ≠ s.activeArray ∧ ∃ a t, s.rings ring = some a ∧
    a.logsize = r.logsize + 1 ∧ 0 ≤ t ∧ t ≤ s.top ∧ t ≤ i ∧ b - t ≤ r.size - 1 ∧
    ∀ j, t ≤ j → j < i → a.get j = r.get j

/-- What the owner knows at each program point; `r` is the active ring. -/
def OwnerOk (s : State T τ) (r : Ring T) : Prop :=
  match s.owner with
  | .idle | .popBottom => s.top ≤ s.bottom + 1
  | .pushBottom _ => s.top ≤ s.bottom
  | .pushTop _ b => b = s.bottom ∧ s.top ≤ b
  | .pushRing _ b t => b = s.bottom ∧ s.top ≤ b ∧ 0 ≤ t ∧ t ≤ s.top ∧ b - t ≤ r.size - 1
  | .pushNew _ b t old =>
    b = s.bottom ∧ s.top ≤ b ∧ 0 ≤ t ∧ t ≤ s.top ∧ b - t ≤ r.size - 1 ∧ old = s.activeArray
  | .pushGrow _ b old ring i =>
    b = s.bottom ∧ s.top ≤ b ∧ old = s.activeArray ∧ Copied s r b ring i
  | .pushPublish _ b old ring =>
    b = s.bottom ∧ s.top ≤ b ∧ old = s.activeArray ∧ Copied s r b ring b
  | .pushRetire _ b old ring =>
    b = s.bottom ∧ s.top ≤ b ∧ ring = s.activeArray ∧ b - s.top < r.size - 1 ∧
      old ≠ s.activeArray ∧ old ∉ s.retired ∧ s.rings old ≠ none
  | .pushPut _ b ring =>
    b = s.bottom ∧ s.top ≤ b ∧ ring = s.activeArray ∧ b - s.top < r.size - 1
  | .pushSetBottom o b =>
    b = s.bottom ∧ s.top ≤ b ∧ b - s.top < r.size - 1 ∧ r.get b = o
  | .popRing b => b = s.bottom ∧ s.top ≤ b + 1
  | .popSetBottom b ring => b + 1 = s.bottom ∧ s.top ≤ b + 2 ∧ ring = s.activeArray
  | .popTop b ring => s.bottom = b ∧ s.top ≤ b + 2 ∧ ring = s.activeArray
  | .popRestore t => t = s.top ∧ s.bottom < t
  | .popGet b t ring =>
    s.bottom = b ∧ ring = s.activeArray ∧ t ≤ s.top ∧ t ≤ b ∧ s.top ≤ s.stealLimit
  | .popCas t o => s.bottom = t ∧ t ≤ s.top ∧ s.top ≤ t + 1 ∧ r.get t = o
  | .popSetBottomTop t _ => s.bottom = t ∧ s.top = t + 1

/-- What thief `k` knows: if `top` is still the index it read, that index can
be won and the value read is the one stored there. -/
def ThiefOk (s : State T τ) (r : Ring T) (k : τ) : Prop :=
  match s.thief k with
  | .idle | .top | .clear _ _ => True
  | .bottom t => t ≤ s.top
  | .ring t b | .reserve t b _ => t ≤ s.top ∧ (t = s.top → t < b → t < s.stealLimit)
  | .recheck t b a =>
    t ≤ s.top ∧ (t = s.top → t < b → t < s.stealLimit) ∧ s.hazard k = some a
  | .get t a =>
    t ≤ s.top ∧ (t = s.top → t < s.stealLimit) ∧ s.hazard k = some a ∧ s.building ≠ some a ∧
      ∃ q, s.rings a = some q ∧ (t = s.top → q.get t = r.get t)
  | .cas t o => t ≤ s.top ∧ (t = s.top → t < s.stealLimit ∧ o = r.get t)

structure Inv (s : State T τ) (r : Ring T) : Prop where
  active : s.rings s.activeArray = some r
  live : s.activeArray ∉ s.retired
  retired : ∀ a ∈ s.retired, s.rings a ≠ none
  top_nonneg : 0 ≤ s.top
  capacity : s.limit - s.top ≤ r.size - 1
  owner : OwnerOk s r
  thief : ∀ k, ThiefOk s r k
  contents : Replays s.log (r.entries s.top s.limit)

/-- A step that keeps `top`, the winnable index with its value and the ring a
hazard slot protects keeps what a thief knows. -/
theorem ThiefOk.transport {s s' : State T τ} {r r' : Ring T} {k : τ} (h : ThiefOk s r k)
    (pc : s'.thief k = s.thief k) (haz : s'.hazard k = s.hazard k) (top : s'.top = s.top)
    (lim : s.top < s.stealLimit → s.top < s'.stealLimit)
    (val : s.top < s.stealLimit → r'.get s.top = r.get s.top)
    (ring : ∀ a q, s.hazard k = some a → s.building ≠ some a → s.rings a = some q →
      s'.building ≠ some a ∧ ∃ q', s'.rings a = some q' ∧
        (s.top < s.stealLimit → q.get s.top = r.get s.top → q'.get s.top = r'.get s.top)) :
    ThiefOk s' r' k := by
  unfold ThiefOk at h ⊢
  rw [pc]
  cases hk : s.thief k with
  | idle | top | clear => trivial
  | bottom t => simpa only [hk, top] using h
  | ring t b | reserve t b =>
    simp only [hk, top] at h ⊢
    exact ⟨h.1, fun e hb => e ▸ lim (e ▸ h.2 e hb)⟩
  | recheck t b a =>
    simp only [hk, top, haz] at h ⊢
    exact ⟨h.1, fun e hb => e ▸ lim (e ▸ h.2.1 e hb), h.2.2⟩
  | get t a =>
    simp only [hk, top, haz] at h ⊢
    obtain ⟨ht, hl, hh, hb, q, hq, hv⟩ := h
    obtain ⟨hb', q', hq', hv'⟩ := ring a q hh hb hq
    exact ⟨ht, fun e => e ▸ lim (e ▸ hl e), hh, hb', q', hq',
      fun e => e ▸ hv' (e ▸ hl e) (e ▸ hv e)⟩
  | cas t o =>
    simp only [hk, top] at h ⊢
    refine ⟨h.1, fun e => ?_⟩
    obtain ⟨hl, hv⟩ := h.2 e
    exact ⟨e ▸ lim (e ▸ hl), by rw [hv, e, val (e ▸ hl)]⟩

/-- Once `top` has moved on, a thief that has not yet read the new one loses. -/
theorem ThiefOk.overtaken {s s' : State T τ} {r : Ring T} {k : τ} (h : ThiefOk s r k)
    (pc : s'.thief k = s.thief k) (haz : s'.hazard k = s.hazard k) (top : s'.top = s.top + 1)
    (rings : s'.rings = s.rings) (building : s'.building = s.building) : ThiefOk s' r k := by
  unfold ThiefOk at h ⊢
  rw [pc]
  cases hk : s.thief k with
  | idle | top | clear => trivial
  | bottom t => simp only [hk, top] at h ⊢; omega
  | ring t b | reserve t b => simp only [hk, top] at h ⊢; exact ⟨by omega, by omega⟩
  | recheck t b a =>
    simp only [hk, top, haz] at h ⊢
    exact ⟨by omega, by omega, h.2.2⟩
  | get t a =>
    simp only [hk, top, haz, rings, building] at h ⊢
    obtain ⟨ht, -, hh, hb, q, hq, -⟩ := h
    exact ⟨by omega, by omega, hh, hb, q, hq, by omega⟩
  | cas t o => simp only [hk, top] at h ⊢; exact ⟨by omega, by omega⟩

/-- A step of the owner that moves its program point and may store `bottom`,
while the values in the deque stay the same. -/
theorem Inv.owner_moves {s : State T τ} {r : Ring T} (h : Inv s r) {pc : OwnerPc T} {b : ℤ}
    (own : OwnerOk { s with bottom := b, owner := pc } r)
    (lim : ({ s with bottom := b, owner := pc } : State T τ).limit = s.limit ∨
      ({ s with bottom := b, owner := pc } : State T τ).limit ≤ s.top ∧ s.limit ≤ s.top)
    (steal : s.top < s.stealLimit →
      s.top < ({ s with bottom := b, owner := pc } : State T τ).stealLimit)
    (build : ({ s with bottom := b, owner := pc } : State T τ).building = s.building ∨
      ({ s with bottom := b, owner := pc } : State T τ).building = none) :
    Inv { s with bottom := b, owner := pc } r where
  active := h.active
  live := h.live
  retired := h.retired
  top_nonneg := h.top_nonneg
  capacity := by
    have hcap := h.capacity
    have hpos := r.size_pos
    rcases lim with lim | ⟨lim, -⟩
    · rwa [lim]
    · change _ - s.top ≤ _
      omega
  owner := own
  thief k := by
    refine (h.thief k).transport rfl rfl rfl steal (fun _ => rfl) fun a q _ hb hq => ⟨?_, q, hq, ?_⟩
    · rcases build with hb' | hb' <;> simp [hb', hb]
    · exact fun _ hv => hv
  contents := by
    have hc := h.contents
    rcases lim with lim | ⟨lim, lim'⟩
    · rwa [lim]
    · rw [Ring.entries_nil r lim'] at hc
      rwa [Ring.entries_nil r lim]

/-- A thief wins an index only while it is among the winnable ones, so what the
owner knows about `top` survives. -/
theorem OwnerOk.stolen {s s' : State T τ} {r : Ring T} (h : OwnerOk s r)
    (won : s.top < s.stealLimit) (top : s'.top = s.top + 1) (bottom : s'.bottom = s.bottom)
    (active : s'.activeArray = s.activeArray) (rings : s'.rings = s.rings)
    (retired : s'.retired = s.retired) (owner : s'.owner = s.owner) : OwnerOk s' r := by
  have copied : ∀ {b ring i}, Copied s r b ring i → Copied s' r b ring i := by
    rintro b ring i ⟨hr, hne, a, t, ha, hlog, h0, ht, hti, hsz, hcopy⟩
    exact ⟨by rwa [retired], by rwa [active], a, t, by rwa [rings], hlog, h0, by omega, hti, hsz,
      hcopy⟩
  unfold OwnerOk at h ⊢
  rw [owner]
  cases hpc : s.owner with
  | pushGrow | pushPublish =>
    simp only [hpc, State.stealLimit, State.limit, top, bottom, active] at h won ⊢
    exact ⟨h.1, by omega, h.2.2.1, copied h.2.2.2⟩
  | pushRetire =>
    simp only [hpc, State.stealLimit, State.limit, top, bottom, active, retired, rings] at h won ⊢
    exact ⟨h.1, by omega, h.2.2.1, by omega, h.2.2.2.2⟩
  | pushNew =>
    simp only [hpc, State.stealLimit, State.limit, top, bottom, active] at h won ⊢
    exact ⟨h.1, by omega, h.2.2.1, by omega, h.2.2.2.2⟩
  | pushPut =>
    simp only [hpc, State.stealLimit, State.limit, top, bottom, active] at h won ⊢
    exact ⟨h.1, by omega, h.2.2.1, by omega⟩
  | pushSetBottom =>
    simp only [hpc, State.stealLimit, State.limit, top, bottom] at h won ⊢
    exact ⟨h.1, by omega, by omega, h.2.2.2⟩
  | popSetBottom | popTop =>
    simp only [hpc, State.stealLimit, State.limit, top, bottom, active] at h won ⊢
    exact ⟨h.1, by omega, h.2.2⟩
  | popGet =>
    simp only [hpc, State.stealLimit, top, bottom, active, owner] at h won ⊢
    exact ⟨h.1, h.2.1, by omega, h.2.2.2.1, by omega⟩
  | popCas =>
    simp only [hpc, State.stealLimit, State.limit, top, bottom] at h won ⊢
    exact ⟨h.1, by omega, by omega, h.2.2.2⟩
  | idle | popBottom | pushBottom | pushTop | pushRing | popRing | popRestore
  | popSetBottomTop =>
    simp only [hpc, State.stealLimit, State.limit, top, bottom] at h won ⊢
    omega

/-- A step of thief `k` that leaves the shared words and the log alone. -/
theorem Inv.thief_moves [DecidableEq τ] {s : State T τ} {r : Ring T} {k : τ} {pc : ThiefPc T}
    {hz : τ → Option Address} (h : Inv s r) (others : ∀ j, j ≠ k → hz j = s.hazard j)
    (own : ThiefOk { s with thief := Function.update s.thief k pc, hazard := hz } r k) :
    Inv { s with thief := Function.update s.thief k pc, hazard := hz } r where
  active := h.active
  live := h.live
  retired := h.retired
  top_nonneg := h.top_nonneg
  capacity := h.capacity
  owner := h.owner
  thief j := by
    by_cases hj : j = k
    · exact hj ▸ own
    · exact (h.thief j).transport (Function.update_of_ne hj _ _) (others j hj) rfl id
        (fun _ => rfl) fun a q _ hb hq => ⟨hb, q, hq, fun _ hv => hv⟩
  contents := h.contents

end UnboundedDeque.WSDeque
