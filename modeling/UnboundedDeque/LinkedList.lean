import Mathlib

/-!
# Singly linked lists in memory

Addresses are natural numbers with 0 for the null pointer; a field of a record is a
function of its address.
-/
namespace UnboundedDeque

/-- Following a field from a pointer runs through a list of addresses and ends at
another pointer. -/
def Path (next : ℕ → ℕ) : ℕ → List ℕ → ℕ → Prop
  | p, [], q => p = q
  | p, x :: l, q => p = x ∧ x ≠ 0 ∧ Path next (next x) l q

/-- The null-terminated list at a pointer. -/
abbrev Linked (next : ℕ → ℕ) (p : ℕ) (l : List ℕ) : Prop := Path next p l 0

variable {next next' : ℕ → ℕ} {p q r x : ℕ} {l l' : List ℕ}

@[simp] theorem path_nil : Path next p [] q ↔ p = q := Iff.rfl

@[simp] theorem path_cons : Path next p (x :: l) q ↔ p = x ∧ x ≠ 0 ∧ Path next (next x) l q := Iff.rfl

theorem path_append : Path next p (l ++ l') q ↔ ∃ r, Path next p l r ∧ Path next r l' q := by
  induction l generalizing p with
  | nil => simp
  | cons x l ih =>
    simp only [List.cons_append, path_cons, ih]
    constructor
    · rintro ⟨hp, hx, r, hl, hl'⟩
      exact ⟨r, ⟨hp, hx, hl⟩, hl'⟩
    · rintro ⟨r, ⟨hp, hx, hl⟩, hl'⟩
      exact ⟨hp, hx, r, hl, hl'⟩

/-- Writes outside a list do not change it. -/
theorem Path.congr (h : Path next p l q) (hl : ∀ x ∈ l, next' x = next x) : Path next' p l q := by
  induction l generalizing p with
  | nil => exact h
  | cons x l ih =>
    obtain ⟨hp, hx, hn⟩ := h
    refine ⟨hp, hx, ih ?_ fun y hy => hl y (.tail x hy)⟩
    rwa [hl x (.head l)]

theorem Path.ne_zero (h : Path next p l q) (hx : x ∈ l) : x ≠ 0 := by
  induction l generalizing p with
  | nil => cases hx
  | cons y l ih =>
    obtain ⟨-, hy, hn⟩ := h
    rcases List.mem_cons.mp hx with rfl | hx
    · exact hy
    · exact ih hn hx

theorem Linked.eq_headD (h : Linked next p l) : p = l.headD 0 := by
  cases l with
  | nil => exact h
  | cons x l => exact h.1

theorem Linked.eq_nil_iff (h : Linked next p l) : l = [] ↔ p = 0 := by
  cases l with
  | nil => simpa using h
  | cons x l => simp [h.1, h.2.1]

/-- The list at a pointer that is not null. -/
theorem Linked.exists_cons (h : Linked next p l) (hp : p ≠ 0) :
    ∃ t, l = p :: t ∧ Linked next (next p) t := by
  cases l with
  | nil => exact absurd h hp
  | cons x t =>
    obtain ⟨rfl, -, hn⟩ := h
    exact ⟨t, rfl, hn⟩

/-- The field of the last address is the end of the path. -/
theorem Path.next_last (h : Path next p (l ++ [x]) q) : next x = q := by
  obtain ⟨r, -, -, -, hq⟩ := path_append.mp h
  exact hq

/-- Cutting a list after an address. -/
theorem Path.cut (h : Path next p (l ++ [x]) q) (hn : (l ++ [x]).Nodup) :
    Linked (Function.update next x 0) p (l ++ [x]) := by
  obtain ⟨r, hl, hr, hx, -⟩ := path_append.mp h
  have hxl : x ∉ l := fun hmem => (List.nodup_append.mp hn).2.2 x hmem x (by simp) rfl
  refine path_append.mpr ⟨r, hl.congr fun y hy => ?_, hr, hx, Function.update_self x 0 next⟩
  exact Function.update_of_ne (ne_of_mem_of_not_mem hy hxl) 0 next

end UnboundedDeque
