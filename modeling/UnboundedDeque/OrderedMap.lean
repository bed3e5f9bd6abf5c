import Mathlib

/-!
# Maps kept in the order of their keys

A map is the list of its entries with the keys in ascending order, so a walk over the
entries depends on the keys alone.
-/
namespace OrderedMap

variable {κ α : Type*} [LinearOrder κ]

/-- A value for a key in a list of entries. -/
def insert (k : κ) (v : α) : List (κ × α) → List (κ × α)
  | [] => [(k, v)]
  | (x, w) :: l =>
    if k < x then (k, v) :: (x, w) :: l
    else if k = x then (x, v) :: l
    else (x, w) :: insert k v l

/-- A map with its entries in the order of the keys. -/
structure SortedMap (κ α : Type*) [LinearOrder κ] where
  entries : List (κ × α)
  sorted : (entries.map Prod.fst).Pairwise (· < ·)

def lookup (k : κ) (l : List (κ × α)) : Option α := (l.find? (·.1 = k)).map Prod.snd

variable {k x : κ} {v w : α} {l : List (κ × α)}

theorem mem_keys_insert : x ∈ (insert k v l).map Prod.fst ↔ x = k ∨ x ∈ l.map Prod.fst := by
  induction l with
  | nil => simp [insert]
  | cons e l ih =>
    obtain ⟨y, u⟩ := e
    rw [insert]
    split_ifs with hlt heq
    · simp
    · subst heq
      simp
    · rw [List.map_cons, List.mem_cons, ih, List.map_cons, List.mem_cons]
      tauto

theorem sorted_insert (h : (l.map Prod.fst).Pairwise (· < ·)) :
    ((insert k v l).map Prod.fst).Pairwise (· < ·) := by
  induction l with
  | nil => exact List.pairwise_singleton _ _
  | cons e l ih =>
    obtain ⟨y, u⟩ := e
    obtain ⟨hy, hl⟩ := List.pairwise_cons.mp h
    rw [insert]
    split_ifs with hlt heq
    · refine List.pairwise_cons.mpr ⟨fun z hz => ?_, h⟩
      rcases List.mem_cons.mp hz with rfl | hz
      · exact hlt
      · exact hlt.trans (hy z hz)
    · exact h
    · refine List.pairwise_cons.mpr ⟨fun z hz => ?_, ih hl⟩
      rcases mem_keys_insert.mp hz with rfl | hz
      · exact lt_of_le_of_ne (not_lt.mp hlt) (Ne.symm heq)
      · exact hy z hz

/-- A value for a key that is there leaves the keys. -/
theorem keys_insert (h : (l.map Prod.fst).Pairwise (· < ·)) (hk : k ∈ l.map Prod.fst) :
    (insert k v l).map Prod.fst = l.map Prod.fst := by
  induction l with
  | nil => cases hk
  | cons e l ih =>
    obtain ⟨y, u⟩ := e
    obtain ⟨hy, hl⟩ := List.pairwise_cons.mp h
    rw [insert]
    rcases List.mem_cons.mp hk with rfl | hk
    · rw [if_neg (lt_irrefl _), if_pos rfl]
      rfl
    · have hlt : y < k := hy k hk
      rw [if_neg hlt.asymm, if_neg hlt.ne', List.map_cons, ih hl hk, List.map_cons]

theorem lookup_cons (e : κ × α) :
    lookup x (e :: l) = if e.1 = x then some e.2 else lookup x l := by
  by_cases he : e.1 = x <;> simp [lookup, he]

theorem lookup_insert : lookup x (insert k v l) = if x = k then some v else lookup x l := by
  induction l with
  | nil =>
    rw [insert, lookup_cons]
    simp only [eq_comm]
  | cons e l ih =>
    obtain ⟨y, u⟩ := e
    rw [insert]
    by_cases hlt : k < y
    · rw [if_pos hlt, lookup_cons]
      simp only [eq_comm]
    · rw [if_neg hlt]
      by_cases heq : k = y
      · subst heq
        rw [if_pos rfl, lookup_cons, lookup_cons]
        by_cases hx : x = k
        · rw [if_pos hx, if_pos hx.symm]
        · rw [if_neg hx, if_neg (Ne.symm hx), if_neg (Ne.symm hx)]
      · rw [if_neg heq, lookup_cons, lookup_cons, ih]
        by_cases hx : x = k
        · rw [if_pos hx, if_pos hx, if_neg fun h => heq (hx.symm.trans h.symm)]
        · rw [if_neg hx, if_neg hx]

/-- The values are those of the keys, in their order. -/
theorem values_eq (h : (l.map Prod.fst).Pairwise (· < ·)) :
    l.map (fun e => some e.2) = (l.map Prod.fst).map fun k => lookup k l := by
  induction l with
  | nil => rfl
  | cons e l ih =>
    obtain ⟨y, u⟩ := e
    obtain ⟨hy, hl⟩ := List.pairwise_cons.mp h
    rw [List.map_cons, List.map_cons, List.map_cons, ih hl]
    congr 1
    · rw [lookup_cons, if_pos rfl]
    · refine List.map_congr_left fun z hz => ?_
      rw [lookup_cons, if_neg (hy z hz).ne]

namespace SortedMap

def empty : SortedMap κ α := ⟨[], List.Pairwise.nil⟩

def set (m : SortedMap κ α) (k : κ) (v : α) : SortedMap κ α :=
  ⟨insert k v m.entries, sorted_insert m.sorted⟩

def get? (m : SortedMap κ α) (k : κ) : Option α := lookup k m.entries

def keys (m : SortedMap κ α) : List κ := m.entries.map Prod.fst

def values (m : SortedMap κ α) : List α := m.entries.map Prod.snd

variable {m : SortedMap κ α}

theorem get?_set : (m.set k v).get? x = if x = k then some v else m.get? x := lookup_insert

theorem get?_set_self : (m.set k v).get? k = some v := get?_set.trans (if_pos rfl)

theorem get?_set_ne (h : x ≠ k) : (m.set k v).get? x = m.get? x := get?_set.trans (if_neg h)

theorem mem_keys_set : x ∈ (m.set k v).keys ↔ x = k ∨ x ∈ m.keys := mem_keys_insert

theorem keys_set (hk : k ∈ m.keys) : (m.set k v).keys = m.keys := keys_insert m.sorted hk

theorem values_eq_get? : m.values.map some = m.keys.map m.get? := by
  rw [values, List.map_map]
  exact values_eq m.sorted

theorem mem_keys_iff : k ∈ m.keys ↔ (m.get? k).isSome := by
  simp only [keys, get?, lookup, Option.isSome_map, List.find?_isSome, List.mem_map,
    decide_eq_true_eq]

end SortedMap
end OrderedMap
