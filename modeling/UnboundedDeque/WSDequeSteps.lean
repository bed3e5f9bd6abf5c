import UnboundedDeque.WSDequeInvariant

/-!
# The steps of the owner and of the thieves

Every step keeps the invariant, provided no `push` starts while `bottom` is
below `top` and the owner's weak compare-exchange fails only on a changed `top`.
-/
namespace UnboundedDeque.WSDeque
open StepMachine

variable {T τ : Type*}

/-- No `push` starts while `bottom` is below `top`, and the owner's
compare-exchange does not fail spuriously. -/
def Restored (l : Label T τ) (s : State T τ) : Prop :=
  match l with
  | .owner c =>
    match s.owner with
    | .idle => c.call.isSome → s.top ≤ s.bottom
    | .popCas t _ => s.top = t → c.spurious = false
    | _ => True
  | _ => True

theorem Inv.push_new {s : State T τ} {r : Ring T} {o : T} {b t : ℤ} {old ring : Address}
    (h : Inv s r) (pc : s.owner = .pushNew o b t old) (fresh : s.rings ring = none)
    (junk : ℕ → T) :
    Inv { s with
      rings := Function.update s.rings ring (some ⟨r.logsize + 1, junk⟩)
      owner := .pushGrow o b old ring t } r := by
  have own := h.owner
  simp only [OwnerOk, pc] at own
  obtain ⟨hb, hle, h0, ht, hsz, rfl⟩ := own
  have hne : ring ≠ s.activeArray := by rintro rfl; simp [h.active] at fresh
  have hnr : ring ∉ s.retired := fun hm => h.retired _ hm fresh
  refine ⟨?_, h.live, ?_, h.top_nonneg, ?_, ?_, ?_, ?_⟩
  · simpa [hne.symm] using h.active
  · intro a ha
    have : a ≠ ring := by rintro rfl; exact hnr ha
    simpa [this] using h.retired a ha
  · simpa [State.limit, pc] using h.capacity
  · refine ⟨hb, hle, rfl, hnr, hne, ⟨r.logsize + 1, junk⟩, t, by simp, rfl, h0, ht, le_rfl, hsz, ?_⟩
    intro j h1 h2
    omega
  · intro k
    refine (h.thief k).transport rfl rfl rfl ?_ (fun _ => rfl) ?_
    · simp [State.stealLimit, State.limit, pc]
    · intro a q _ _ hq
      have : a ≠ ring := by rintro rfl; simp [fresh] at hq
      exact ⟨by simpa [State.building] using this.symm, q, by simpa [this] using hq, fun _ hv => hv⟩
  · simpa [State.limit, pc] using h.contents

theorem Ring.size_grown {r a : Ring T} (h : a.logsize = r.logsize + 1) : a.size = 2 * r.size := by
  simp [Ring.size, h, pow_succ, mul_comm]

theorem Inv.push_grow {s : State T τ} {r a : Ring T} {o : T} {b i : ℤ} {old ring : Address}
    (h : Inv s r) (pc : s.owner = .pushGrow o b old ring i) (ha : s.rings ring = some a)
    (hi : i < b) :
    Inv { s with
      rings := Function.update s.rings ring (some (a.put i (r.get i)))
      owner := .pushGrow o b old ring (i + 1) } r := by
  have own := h.owner
  simp only [OwnerOk, pc] at own
  obtain ⟨hb, hle, hold, hnr, hne, a', t, ha', hlog, h0, ht, hti, hsz, hcopy⟩ := own
  obtain rfl : a = a' := Option.some.inj (ha.symm.trans ha')
  refine ⟨?_, h.live, ?_, h.top_nonneg, ?_, ?_, ?_, ?_⟩
  · simpa [hne.symm] using h.active
  · intro x hx
    have : x ≠ ring := by rintro rfl; exact hnr hx
    simpa [this] using h.retired x hx
  · simpa [State.limit, pc] using h.capacity
  · refine ⟨hb, hle, hold, hnr, hne, a.put i (r.get i), t, by simp, hlog, h0, ht, by omega, hsz, ?_⟩
    intro j h1 h2
    by_cases hj : j = i
    · simp [hj]
    · have hs2 := Ring.size_grown hlog
      have hpos := r.size_pos
      have hd : |j - i| < a.size := by rw [abs_lt]; constructor <;> omega
      rw [Ring.get_put_ne _ (by omega) (by omega) hd hj]
      exact hcopy j h1 (by omega)
  · intro k
    refine (h.thief k).transport rfl rfl rfl ?_ (fun _ => rfl) ?_
    · simp [State.stealLimit, State.limit, pc]
    · intro x q _ hx hq
      have hx' : x ≠ ring := by simpa [State.building, pc, eq_comm] using hx
      exact ⟨by simpa [State.building] using hx'.symm, q, by simpa [hx'] using hq, fun _ hv => hv⟩
  · simpa [State.limit, pc] using h.contents

/-- Publishing the copy makes it the active ring with the same contents. -/
theorem Inv.push_publish {s : State T τ} {r : Ring T} {o : T} {b : ℤ} {old ring : Address}
    (h : Inv s r) (pc : s.owner = .pushPublish o b old ring) :
    ∃ a, Inv { s with activeArray := ring, owner := .pushRetire o b old ring } a := by
  have own := h.owner
  simp only [OwnerOk, pc] at own
  obtain ⟨hb, hle, rfl, hnr, hne, a, t, ha, hlog, h0, ht, hti, hsz, hcopy⟩ := own
  have hs2 := Ring.size_grown hlog
  have hpos := r.size_pos
  have htop : ∀ j, s.top ≤ j → j < b → a.get j = r.get j := fun j h1 h2 => hcopy j (by omega) h2
  have hlim : s.limit = b := by simp [State.limit, pc, hb]
  refine ⟨a, ha, hnr, h.retired, h.top_nonneg, ?_, ?_, ?_, ?_⟩
  · have := h.capacity
    simp only [State.limit]
    omega
  · have hroom : b - s.top < a.size - 1 := by omega
    exact ⟨hb, hle, rfl, hroom, hne.symm, h.live, by simp [h.active]⟩
  · intro k
    have hst : s.stealLimit = b := by simp [State.stealLimit, pc, hlim]
    have hval : s.top < s.stealLimit → a.get s.top = r.get s.top :=
      fun hlt => htop s.top le_rfl (hst ▸ hlt)
    refine (h.thief k).transport rfl rfl rfl ?_ hval ?_
    · simp [State.stealLimit, State.limit, pc]
    · intro x q _ _ hq
      exact ⟨by simp [State.building], q, hq, fun hlt hv => hv.trans (hval hlt).symm⟩
  · have he : a.entries s.top b = r.entries s.top b := Ring.entries_congr htop
    have hc := h.contents
    rw [hlim] at hc
    simpa [State.limit, ← hb, he] using hc

theorem Inv.push_retire {s : State T τ} {r : Ring T} {o : T} {b : ℤ} {old ring : Address}
    (h : Inv s r) (pc : s.owner = .pushRetire o b old ring) :
    Inv { s with retired := old :: s.retired, owner := .pushPut o b ring } r := by
  have own := h.owner
  simp only [OwnerOk, pc] at own
  obtain ⟨hb, hle, hring, hsz, hne, -, hold⟩ := own
  refine ⟨h.active, ?_, ?_, h.top_nonneg, ?_, ⟨hb, hle, hring, hsz⟩, ?_, ?_⟩
  · simp [hne.symm, h.live]
  · intro a ha
    rcases List.mem_cons.mp ha with rfl | ha
    · exact hold
    · exact h.retired a ha
  · simpa [State.limit, pc] using h.capacity
  · intro k
    refine (h.thief k).transport rfl rfl rfl ?_ (fun _ => rfl) fun a q _ _ hq =>
      ⟨by simp [State.building], q, hq, fun _ hv => hv⟩
    simp [State.stealLimit, State.limit, pc]
  · simpa [State.limit, pc] using h.contents

/-- The store of `ring->put` goes to a cell of no index in use. -/
theorem Inv.push_put {s : State T τ} {r : Ring T} {o : T} {b : ℤ} {ring : Address}
    (h : Inv s r) (pc : s.owner = .pushPut o b ring) :
    Inv { s with
      rings := Function.update s.rings ring (some (r.put b o))
      owner := .pushSetBottom o b } (r.put b o) := by
  have own := h.owner
  simp only [OwnerOk, pc] at own
  obtain ⟨hb, hle, rfl, hsz⟩ := own
  have h0 := h.top_nonneg
  have hkeep : ∀ j, s.top ≤ j → j < b → (r.put b o).get j = r.get j := by
    intro j h1 h2
    have hd : |j - b| < r.size := by rw [abs_lt]; constructor <;> omega
    exact Ring.get_put_ne _ (by omega) (by omega) hd (by omega)
  have hlim : s.limit = b := by simp [State.limit, pc, hb]
  have hst : s.stealLimit = b := by simp [State.stealLimit, pc, hlim]
  refine ⟨by simp, h.live, ?_, h0, ?_, ⟨hb, hle, hsz, by simp⟩, ?_, ?_⟩
  · intro a ha
    have : a ≠ s.activeArray := by rintro rfl; exact h.live ha
    simpa [this] using h.retired a ha
  · simpa [State.limit, pc] using h.capacity
  · intro k
    refine (h.thief k).transport rfl rfl rfl ?_ (fun hlt => hkeep _ le_rfl (hst ▸ hlt)) ?_
    · simp [State.stealLimit, State.limit, pc]
    · intro a q _ _ hq
      refine ⟨by simp [State.building], ?_⟩
      by_cases ha : a = s.activeArray
      · subst a
        exact ⟨r.put b o, by simp, fun _ _ => rfl⟩
      · exact ⟨q, by simpa [ha] using hq, fun hlt hv =>
          hv.trans (hkeep _ le_rfl (hst ▸ hlt)).symm⟩
  · have he : (r.put b o).entries s.top b = r.entries s.top b := Ring.entries_congr hkeep
    have hc := h.contents
    rw [hlim] at hc
    simpa [State.limit, ← hb, he] using hc

theorem Inv.push_done {s : State T τ} {r : Ring T} {o : T} {b : ℤ} (h : Inv s r)
    (pc : s.owner = .pushSetBottom o b) :
    Inv { s with bottom := b + 1, owner := .idle, log := .push o :: s.log } r := by
  have own := h.owner
  simp only [OwnerOk, pc] at own
  obtain ⟨hb, hle, hsz, hget⟩ := own
  refine ⟨h.active, h.live, h.retired, h.top_nonneg, ?_, ?_, ?_, ?_⟩
  · simp only [State.limit]; omega
  · simp only [OwnerOk]; omega
  · intro k
    refine (h.thief k).transport rfl rfl rfl ?_ (fun _ => rfl) fun a q _ _ hq =>
      ⟨by simp [State.building], q, hq, fun _ hv => hv⟩
    simp only [State.stealLimit, State.limit, pc]
    omega
  · have hc := h.contents
    simp only [State.limit, pc, ← hb] at hc
    simpa [State.limit, Ring.entries_snoc r hle, hget] using hc.push (o := o)

/-- A value taken without a compare-exchange is the last one and out of the
thieves' reach. -/
theorem Inv.pop_last {s : State T τ} {r : Ring T} {b t : ℤ} {ring : Address} (h : Inv s r)
    (pc : s.owner = .popGet b t ring) (hlt : t < b) :
    Inv { s with owner := .idle, log := .pop (r.get b) :: s.log } r := by
  have own := h.owner
  simp only [OwnerOk, State.stealLimit, pc, if_pos hlt] at own
  obtain ⟨hb, -, -, -, htop⟩ := own
  refine ⟨h.active, h.live, h.retired, h.top_nonneg, ?_, ?_, ?_, ?_⟩
  · have hcap := h.capacity
    simp only [State.limit, pc] at hcap ⊢
    omega
  · simp only [OwnerOk]; omega
  · intro k
    refine (h.thief k).transport rfl rfl rfl ?_ (fun _ => rfl) fun a q _ _ hq =>
      ⟨by simp [State.building], q, hq, fun _ hv => hv⟩
    simp [State.stealLimit, State.limit, pc, hlt, hb]
  · have hc := h.contents
    simp only [State.limit, pc, Ring.entries_snoc r htop] at hc
    simpa [State.limit, hb] using hc.pop

/-- Winning the compare-exchange takes the only value left. -/
theorem Inv.pop_won {s : State T τ} {r : Ring T} {o : T} (h : Inv s r)
    (pc : s.owner = .popCas s.top o) :
    Inv { s with top := s.top + 1, owner := .popSetBottomTop s.top o, log := .pop o :: s.log } r := by
  have own := h.owner
  have hcap := h.capacity
  have h0 := h.top_nonneg
  simp only [OwnerOk, State.limit, pc] at own hcap
  obtain ⟨hb, -, -, hget⟩ := own
  refine ⟨h.active, h.live, h.retired, ?_, ?_, ⟨hb, rfl⟩, ?_, ?_⟩
  · change 0 ≤ s.top + 1; omega
  · simp only [State.limit]; omega
  · exact fun k => (h.thief k).overtaken rfl rfl rfl rfl (by simp [State.building, pc])
  · have hc := h.contents
    simp only [State.limit, pc] at hc
    rw [Ring.entries_cons r (by omega), Ring.entries_nil r le_rfl, hget] at hc
    simpa [State.limit, Ring.entries_nil] using (show Replays s.log ([] ++ [o]) from hc).pop

/-- `pop` finds values, or gives back the index it took. -/
theorem Inv.popTop {s s' : State T τ} {r : Ring T} {c : Choice T} {b : ℤ} {ring : Address}
    (h : Inv s r) (pc : s.owner = .popTop b ring) (hs : ownerStep c s = some s') :
    Inv s' r := by
  have own := h.owner
  simp only [OwnerOk, pc] at own
  simp only [WSDeque.ownerStep, pc] at hs
  split_ifs at hs with hneg
  · have hbelow : s.bottom < s.top := by omega
    refine Option.some.inj hs ▸ h.owner_moves ⟨rfl, hbelow⟩ (.inr ?_) ?_ (by simp [State.building])
    · simp only [State.limit, pc]; omega
    · simp only [State.stealLimit, State.limit, pc]; omega
  · have hlim : s.top ≤ if s.top < b then b else b + 1 := by split_ifs <;> omega
    refine Option.some.inj hs ▸ h.owner_moves ⟨own.1, own.2.2, le_rfl, by omega, hlim⟩
      (by simp [State.limit, pc]) ?_ (by simp [State.building])
    simp only [State.stealLimit, State.limit, pc]
    split_ifs <;> omega

theorem Inv.popGet {s s' : State T τ} {r : Ring T} {c : Choice T} {b t : ℤ} {ring : Address}
    (h : Inv s r) (pc : s.owner = .popGet b t ring) (hs : ownerStep c s = some s') :
    Inv s' r := by
  have own := h.owner
  simp only [OwnerOk, State.stealLimit, pc] at own
  obtain ⟨hb, rfl, ht, htb, hlim⟩ := own
  simp only [WSDeque.ownerStep, pc, h.active, Option.map_some, Option.some.injEq] at hs
  split_ifs at hs hlim with hpos hlt
  · exact hs ▸ h.pop_last pc hlt
  · omega
  · omega
  · obtain rfl : t = b := by omega
    exact hs ▸ h.owner_moves ⟨hb, ht, hlim, rfl⟩ (by simp [State.limit, pc])
      (by simp [State.stealLimit, State.limit, pc]) (by simp [State.building])

/-- The compare-exchange for the only value is won, or a thief has won it. -/
theorem Inv.popCas {s s' : State T τ} {r : Ring T} {c : Choice T} {t : ℤ} {o : T} (h : Inv s r)
    (pc : s.owner = .popCas t o) (ok : Restored (.owner c) s) (hs : ownerStep c s = some s') :
    Inv s' r := by
  have own := h.owner
  simp only [OwnerOk, Restored, pc] at own ok
  obtain ⟨hb, hle, hge, -⟩ := own
  simp only [WSDeque.ownerStep, pc] at hs
  split_ifs at hs with hwon
  · obtain ⟨rfl, -⟩ := hwon
    exact Option.some.inj hs ▸ h.pop_won pc
  · have hlost : s.top ≠ t := fun he => hwon ⟨he, ok he⟩
    refine Option.some.inj hs ▸ h.owner_moves ?_ (.inr ?_) ?_ (by simp [State.building])
    · simp only [OwnerOk]; omega
    · simp only [State.limit, pc]; omega
    · simp only [State.stealLimit, State.limit, pc]; omega

theorem Inv.ownerStep {s s' : State T τ} {r : Ring T} {c : Choice T} (h : Inv s r)
    (ok : Restored (.owner c) s) (hs : ownerStep c s = some s') : ∃ r', Inv s' r' := by
  have own := h.owner
  have hcap := h.capacity
  cases pc : s.owner with
  | idle =>
    simp only [OwnerOk, Restored, pc] at own ok
    simp only [WSDeque.ownerStep, pc] at hs
    cases hc : c.call with
    | some o =>
      simp only [hc, Option.some.injEq] at hs
      exact hs ▸ ⟨r, h.owner_moves (ok (by simp [hc])) (by simp [State.limit, pc])
        (by simp [State.stealLimit, State.limit, pc]) (by simp [State.building])⟩
    | none =>
      simp only [hc, Option.some.injEq] at hs
      exact hs ▸ ⟨r, h.owner_moves own (by simp [State.limit, pc])
        (by simp [State.stealLimit, State.limit, pc]) (by simp [State.building])⟩
  | pushBottom o =>
    simp only [WSDeque.ownerStep, pc, Option.some.injEq, OwnerOk] at hs own
    exact hs ▸ ⟨r, h.owner_moves ⟨rfl, own⟩ (by simp [State.limit, pc])
      (by simp [State.stealLimit, State.limit, pc]) (by simp [State.building])⟩
  | pushTop o b =>
    simp only [WSDeque.ownerStep, pc, Option.some.injEq, OwnerOk, State.limit] at hs own hcap
    exact hs ▸ ⟨r, h.owner_moves ⟨own.1, own.2, h.top_nonneg, le_rfl, by omega⟩
      (by simp [State.limit, pc]) (by simp [State.stealLimit, State.limit, pc])
      (by simp [State.building])⟩
  | pushRing o b t =>
    simp only [WSDeque.ownerStep, pc, h.active, Option.map_some, Option.some.injEq,
      OwnerOk] at hs own
    obtain ⟨hb, hle, h0, ht, hsz⟩ := own
    subst s'
    split_ifs with hfull
    · exact ⟨r, h.owner_moves ⟨hb, hle, h0, ht, hsz, rfl⟩ (by simp [State.limit, pc])
        (by simp [State.stealLimit, State.limit, pc]) (by simp [State.building])⟩
    · have hroom : b - s.top < r.size - 1 := by omega
      exact ⟨r, h.owner_moves ⟨hb, hle, rfl, hroom⟩ (by simp [State.limit, pc])
        (by simp [State.stealLimit, State.limit, pc]) (by simp [State.building])⟩
  | pushNew o b t old =>
    simp only [OwnerOk, pc] at own
    obtain ⟨-, -, -, -, -, rfl⟩ := own
    simp only [WSDeque.ownerStep, pc, h.active] at hs
    cases fresh : s.rings c.address with
    | some _ => simp [fresh] at hs
    | none =>
      simp only [fresh, Option.some.injEq] at hs
      exact hs ▸ ⟨r, h.push_new pc fresh c.junk⟩
  | pushGrow o b old ring i =>
    simp only [OwnerOk, pc] at own
    obtain ⟨hb, hle, rfl, hr, hne, a, t, ha, hlog, h0, ht, hti, hsz, hcopy⟩ := own
    simp only [WSDeque.ownerStep, pc, h.active, ha] at hs
    split_ifs at hs with hi
    · exact Option.some.inj hs ▸ ⟨r, h.push_grow pc ha hi⟩
    · have hall : ∀ j, t ≤ j → j < b → a.get j = r.get j := fun j h1 h2 => hcopy j h1 (by omega)
      exact Option.some.inj hs ▸ ⟨r, h.owner_moves
        ⟨hb, hle, rfl, hr, hne, a, t, ha, hlog, h0, ht, ht.trans hle, hsz, hall⟩
        (by simp [State.limit, pc]) (by simp [State.stealLimit, State.limit, pc])
        (by simp [State.building, pc])⟩
  | pushPublish o b old ring =>
    simp only [WSDeque.ownerStep, pc, Option.some.injEq] at hs
    exact hs ▸ h.push_publish pc
  | pushRetire o b old ring =>
    simp only [WSDeque.ownerStep, pc, Option.some.injEq] at hs
    exact hs ▸ ⟨r, h.push_retire pc⟩
  | pushPut o b ring =>
    simp only [OwnerOk, pc] at own
    obtain ⟨-, -, rfl, -⟩ := own
    simp only [WSDeque.ownerStep, pc, h.active, Option.map_some, Option.some.injEq] at hs
    exact hs ▸ ⟨_, h.push_put pc⟩
  | pushSetBottom o b =>
    simp only [WSDeque.ownerStep, pc, Option.some.injEq] at hs
    exact hs ▸ ⟨r, h.push_done pc⟩
  | popBottom =>
    simp only [WSDeque.ownerStep, pc, Option.some.injEq, OwnerOk] at hs own
    exact hs ▸ ⟨r, h.owner_moves ⟨rfl, own⟩ (by simp [State.limit, pc])
      (by simp [State.stealLimit, State.limit, pc]) (by simp [State.building])⟩
  | popRing b =>
    simp only [WSDeque.ownerStep, pc, Option.some.injEq, OwnerOk] at hs own
    have hb : b - 1 + 1 = s.bottom ∧ s.top ≤ b - 1 + 2 := by omega
    exact hs ▸ ⟨r, h.owner_moves ⟨hb.1, hb.2, rfl⟩ (by simp [State.limit, pc])
      (by simp [State.stealLimit, State.limit, pc]) (by simp [State.building])⟩
  | popSetBottom b ring =>
    -- `bottom` goes down by one, the contents do not
    simp only [WSDeque.ownerStep, pc, Option.some.injEq, OwnerOk] at hs own
    exact hs ▸ ⟨r, h.owner_moves ⟨rfl, own.2⟩ (by simp [State.limit, pc, own.1])
      (by simp [State.stealLimit, State.limit, pc, own.1]) (by simp [State.building])⟩
  | popTop b ring => exact ⟨r, h.popTop pc hs⟩
  | popRestore t =>
    simp only [WSDeque.ownerStep, pc, Option.some.injEq, OwnerOk] at hs own
    obtain ⟨rfl, -⟩ := own
    have htop : s.top ≤ s.top + 1 := by omega
    exact hs ▸ ⟨r, h.owner_moves htop (by simp [State.limit, pc])
      (by simp [State.stealLimit, State.limit, pc]) (by simp [State.building])⟩
  | popGet b t ring => exact ⟨r, h.popGet pc hs⟩
  | popCas t o => exact ⟨r, h.popCas pc ok hs⟩
  | popSetBottomTop t o =>
    simp only [WSDeque.ownerStep, pc, Option.some.injEq, OwnerOk] at hs own
    have htop : s.top ≤ t + 1 + 1 := by omega
    exact hs ▸ ⟨r, h.owner_moves htop (by simp [State.limit, pc])
      (by simp [State.stealLimit, State.limit, pc]) (by simp [State.building])⟩

/-- A thief that wins its compare-exchange takes the first value. -/
theorem Inv.steal_won [DecidableEq τ] {s : State T τ} {r : Ring T} {k : τ} {o : T} (h : Inv s r)
    (pc : s.thief k = .cas s.top o) :
    Inv { s with
      thief := Function.update s.thief k (.clear .success (some o))
      top := s.top + 1
      log := .steal k o :: s.log } r := by
  have own := h.thief k
  simp only [ThiefOk, pc] at own
  obtain ⟨-, hwon⟩ := own
  obtain ⟨hlt, rfl⟩ := hwon trivial
  have hle : s.stealLimit ≤ s.limit := by
    unfold State.stealLimit State.limit
    cases s.owner <;> simp only [le_refl]
    split_ifs <;> omega
  refine ⟨h.active, h.live, h.retired, ?_, ?_, ?_, ?_, ?_⟩
  · have := h.top_nonneg
    change 0 ≤ s.top + 1
    omega
  · have hcap := h.capacity
    change s.limit - (s.top + 1) ≤ _
    omega
  · exact h.owner.stolen hlt rfl rfl rfl rfl rfl rfl
  · intro j
    by_cases hj : j = k
    · subst j; simp [ThiefOk]
    · exact (h.thief j).overtaken (Function.update_of_ne hj _ _) rfl rfl rfl rfl
  · have hc := h.contents
    rw [Ring.entries_cons r (by omega)] at hc
    exact hc.steal

theorem Inv.thiefStep [DecidableEq τ] {s s' : State T τ} {r : Ring T} {k : τ} {spurious : Bool}
    (h : Inv s r) (hs : thiefStep k spurious s = some s') : Inv s' r := by
  have own := h.thief k
  have keep : ∀ j, j ≠ k → s.hazard j = s.hazard j := fun _ _ => rfl
  cases pc : s.thief k with
  | idle =>
    simp only [WSDeque.thiefStep, pc, Option.some.injEq] at hs
    exact hs ▸ h.thief_moves keep (by simp [ThiefOk])
  | top =>
    simp only [WSDeque.thiefStep, pc, Option.some.injEq] at hs
    exact hs ▸ h.thief_moves keep (by simp [ThiefOk])
  | bottom t =>
    simp only [WSDeque.thiefStep, pc, Option.some.injEq, ThiefOk] at hs own
    refine hs ▸ h.thief_moves keep ?_
    simp only [ThiefOk, Function.update_self]
    refine ⟨own, fun he hlt => ?_⟩
    -- where `bottom` and the limit differ, either no index is left or it is below both
    have hown := h.owner
    change t < s.stealLimit
    unfold State.stealLimit State.limit
    unfold OwnerOk at hown
    cases ho : s.owner <;> simp only [ho] at hown ⊢ <;> (try split_ifs) <;> omega
  | ring t b =>
    simp only [WSDeque.thiefStep, pc, Option.some.injEq, ThiefOk] at hs own
    refine hs ▸ h.thief_moves keep ?_
    simp only [ThiefOk, Function.update_self]
    exact own
  | reserve t b a =>
    simp only [WSDeque.thiefStep, pc, Option.some.injEq, ThiefOk] at hs own
    refine hs ▸ h.thief_moves (fun j hj => Function.update_of_ne hj _ _) ?_
    simp only [ThiefOk, Function.update_self]
    exact ⟨own.1, own.2, trivial⟩
  | recheck t b a =>
    simp only [WSDeque.thiefStep, pc, ThiefOk] at hs own
    obtain ⟨ht, hlt, hh⟩ := own
    split_ifs at hs with hchanged hempty
    · exact Option.some.inj hs ▸ h.thief_moves keep (by simp [ThiefOk])
    · exact Option.some.inj hs ▸ h.thief_moves keep (by simp [ThiefOk])
    · obtain rfl : a = s.activeArray := not_not.mp hchanged
      refine Option.some.inj hs ▸ h.thief_moves keep ?_
      simp only [ThiefOk, Function.update_self]
      refine ⟨ht, fun he => hlt he (by omega), hh, ?_, r, h.active, fun _ => rfl⟩
      have hown := h.owner
      unfold OwnerOk at hown
      change s.building ≠ _
      unfold State.building
      cases ho : s.owner <;> simp only [ho, Copied] at hown <;> simp_all
  | get t a =>
    simp only [ThiefOk, pc] at own
    obtain ⟨ht, hlt, -, -, q, hq, hv⟩ := own
    simp only [WSDeque.thiefStep, pc, hq, Option.map_some, Option.some.injEq] at hs
    refine hs ▸ h.thief_moves keep ?_
    simp only [ThiefOk, Function.update_self]
    exact ⟨ht, fun he => ⟨hlt he, hv he⟩⟩
  | cas t o =>
    simp only [WSDeque.thiefStep, pc] at hs
    split_ifs at hs with hwon
    · obtain ⟨rfl, -⟩ := hwon
      exact Option.some.inj hs ▸ h.steal_won pc
    · exact Option.some.inj hs ▸ h.thief_moves keep (by simp [ThiefOk])
  | clear flag out =>
    simp only [WSDeque.thiefStep, pc, Option.some.injEq] at hs
    exact hs ▸ h.thief_moves (fun j hj => Function.update_of_ne hj _ _) (by simp [ThiefOk])

/-- Deleting a ring that is retired and not reserved touches nobody's ring. -/
theorem Inv.freeStep {s s' : State T τ} {r : Ring T} {a : Address} (h : Inv s r)
    (free : ∀ k, s.hazard k ≠ some a) (hs : freeStep a s = some s') : Inv s' r := by
  unfold WSDeque.freeStep at hs
  split_ifs at hs with hmem
  obtain rfl := Option.some.inj hs
  have hactive : s.activeArray ≠ a := by rintro rfl; exact h.live hmem
  refine ⟨by simpa [hactive] using h.active, ?_, ?_, h.top_nonneg, h.capacity, ?_, ?_, h.contents⟩
  · simp [h.live]
  · intro x hx
    simp only [List.mem_filter, decide_eq_true_eq] at hx
    simpa [hx.2] using h.retired x hx.1
  · have copied : ∀ {b ring i}, Copied s r b ring i → Copied { s with
        rings := Function.update s.rings a none
        retired := s.retired.filter (· ≠ a) } r b ring i := by
      rintro b ring i ⟨hr, hne, q, t, hq, hcopy⟩
      have hra : ring ≠ a := by rintro rfl; exact hr hmem
      exact ⟨by simp [hr], hne, q, t, by simpa [hra] using hq, hcopy⟩
    have own := h.owner
    unfold OwnerOk at own ⊢
    cases ho : s.owner with
    | pushGrow | pushPublish =>
      simp only [ho] at own ⊢
      exact ⟨own.1, own.2.1, own.2.2.1, copied own.2.2.2⟩
    | pushRetire o b old ring =>
      simp only [ho] at own ⊢
      obtain ⟨hb, hle, hring, hsz, hne, hold, hsome⟩ := own
      have hoa : old ≠ a := by rintro rfl; exact hold hmem
      exact ⟨hb, hle, hring, hsz, hne, by simp [hold], by simpa [hoa] using hsome⟩
    | popGet => simpa only [ho, State.stealLimit] using own
    | _ => simpa only [ho] using own
  · intro k
    refine (h.thief k).transport rfl rfl rfl id (fun _ => rfl) fun x q hx hb hq => ?_
    have hxa : x ≠ a := by rintro rfl; exact free k hx
    exact ⟨hb, q, by simpa [hxa] using hq, fun _ hv => hv⟩

theorem Inv.init {logsize : ℕ} {s : State T τ} (h : Init logsize s) : ∃ r, Inv s r := by
  obtain ⟨arr, hr⟩ := h.ring
  have hpos := Ring.size_pos (⟨logsize, arr⟩ : Ring T)
  refine ⟨⟨logsize, arr⟩, hr, by simp [h.retired], by simp [h.retired], by simp [h.top], ?_, ?_, ?_, ?_⟩
  · simp only [State.limit, h.owner, h.top, h.bottom]; omega
  · simp [OwnerOk, h.owner, h.top, h.bottom]
  · intro k; simp [ThiefOk, h.thief k]
  · rw [h.log, Ring.entries_nil _ (by simp [State.limit, h.owner, h.top, h.bottom])]
    exact .nil

end UnboundedDeque.WSDeque
