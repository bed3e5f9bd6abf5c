import UnboundedDeque.DequeSide

/-!
# Lists seen from a side

The element at an end of a list, the list without it, neighbours in the direction
of a side, and segments, which stay in a list that changes at its ends for as long
as both their own ends do.
-/
namespace UnboundedDeque

variable {α : Type*} {S R : Side} {l seg : List α} {x y z : α}

/-- The element at an end. -/
def Side.first : Side → List α → Option α
  | .left, l => l.head?
  | .right, l => l.getLast?

/-- The list without the element at an end. -/
def Side.rest : Side → List α → List α
  | .left, l => l.tail
  | .right, l => l.dropLast

/-- In the direction of a side, the second element comes right after the first. -/
def Side.Next : Side → List α → α → α → Prop
  | .left, l, x, y => [y, x] <:+: l
  | .right, l, x, y => [x, y] <:+: l

@[simp] theorem Side.first_nil (S : Side) : S.first ([] : List α) = none := by
  cases S <;> rfl

@[simp] theorem Side.first_singleton (S : Side) (x : α) : S.first [x] = some x := by
  cases S <;> rfl

@[simp] theorem Side.first_add (S : Side) (x : α) (l : List α) : S.first (S.add x l) = some x := by
  cases S <;> simp [first]

@[simp] theorem Side.rest_add (S : Side) (x : α) (l : List α) : S.rest (S.add x l) = l := by
  cases S <;> simp [rest]

@[simp] theorem Side.mem_add : y ∈ S.add x l ↔ y = x ∨ y ∈ l := by
  cases S <;> simp [or_comm]

@[simp] theorem Side.length_add (S : Side) (x : α) (l : List α) :
    (S.add x l).length = l.length + 1 := by
  cases S <;> simp

@[simp] theorem Side.nodup_add : (S.add x l).Nodup ↔ x ∉ l ∧ l.Nodup := by
  cases S with
  | left => exact List.nodup_cons
  | right => rw [Side.add_right, ← List.concat_eq_append, List.nodup_concat]

@[simp] theorem Side.map_add {β : Type*} (f : α → β) (S : Side) (x : α) (l : List α) :
    (S.add x l).map f = S.add (f x) (l.map f) := by
  cases S <;> simp

@[simp] theorem Side.add_nil (S : Side) (x : α) : S.add x [] = [x] := by
  cases S <;> rfl

theorem Side.first_opposite_add (S : Side) (x : α) (h : l ≠ []) :
    S.opposite.first (S.add x l) = S.opposite.first l := by
  cases S with
  | left => exact List.getLast?_cons_of_ne_nil h
  | right => exact List.head?_append_of_ne_nil l h

theorem Side.eq_add_of_first (h : S.first l = some x) : l = S.add x (S.rest l) := by
  cases S with
  | left => exact (List.cons_head?_tail h).symm
  | right => exact (List.dropLast_append_getLast? x h).symm

theorem Side.first_ne_none (S : Side) (h : l ≠ []) : ∃ x, S.first l = some x := by
  apply Option.ne_none_iff_exists'.mp
  cases S <;> simpa [first] using h

theorem Side.mem_of_first (h : S.first l = some x) : x ∈ l := by
  rw [eq_add_of_first h]
  exact mem_add.mpr (.inl rfl)

theorem Side.next_opposite : S.opposite.Next l x y ↔ S.Next l y x := by
  cases S <;> rfl

theorem Side.Next.mem_source (h : S.Next l x y) : x ∈ l := by
  cases S <;> exact h.subset (by simp)

theorem Side.Next.mem_target (h : S.Next l x y) : y ∈ l := by
  cases S <;> exact h.subset (by simp)

theorem Side.Next.ne (h : S.Next l x y) (hl : l.Nodup) : x ≠ y := by
  intro hxy
  subst hxy
  cases S <;> exact absurd (hl.sublist h.sublist) (by simp)

theorem Side.Next.mono (h : S.Next seg x y) (hl : seg <:+: l) : S.Next l x y := by
  cases S <;> exact List.IsInfix.trans h hl

theorem Side.infix_add (S : Side) (x : α) (l : List α) : l <:+: S.add x l := by
  cases S with
  | left => exact (List.suffix_cons x l).isInfix
  | right => exact (List.prefix_append l [x]).isInfix

theorem Side.Next.add (h : S.Next l x y) (R : Side) (z : α) : S.Next (R.add z l) x y :=
  h.mono (R.infix_add z l)

theorem Side.next_left_cons : left.Next (z :: l) x y ↔ left.Next l x y ∨ y = z ∧ l.head? = some x := by
  rw [Next, List.infix_cons_iff, or_comm]
  refine or_congr_right ?_
  rw [List.cons_prefix_cons, List.singleton_prefix_iff_head?_eq_some]

theorem Side.next_right_append :
    right.Next (l ++ [z]) x y ↔ right.Next l x y ∨ y = z ∧ l.getLast? = some x := by
  have hrev (l : List α) : right.Next l x y ↔ left.Next l.reverse x y := by
    rw [Next, Next, ← List.reverse_infix]
    rfl
  rw [hrev, List.reverse_append, List.reverse_singleton, List.singleton_append, next_left_cons,
    List.head?_reverse, hrev]

/-- The neighbours after an addition at the end a side looks to. -/
theorem Side.next_add : S.Next (S.add z l) x y ↔ S.Next l x y ∨ y = z ∧ S.first l = some x := by
  cases S with
  | left => exact next_left_cons
  | right => exact next_right_append

/-- The neighbours after an addition at the end a side looks away from. -/
theorem Side.next_add_opposite :
    S.opposite.Next (S.add z l) x y ↔ S.opposite.Next l x y ∨ x = z ∧ S.first l = some y := by
  rw [next_opposite, next_add, next_opposite]

/-- Nothing comes after the element at the end. -/
theorem Side.not_next_first (h : S.first l = some x) (hl : l.Nodup) : ¬S.Next l x y := by
  intro hn
  rw [eq_add_of_first h] at hn hl
  rcases next_add.mp hn with hn | ⟨rfl, -⟩
  · exact (nodup_add.mp hl).1 hn.mem_source
  · exact hn.ne hl rfl

theorem Side.Next.unique_left (hl : l.Nodup) (hy : left.Next l x y) (hz : left.Next l x z) :
    y = z := by
  induction l with
  | nil => exact absurd hy.mem_source List.not_mem_nil
  | cons a l ih =>
    obtain ⟨ha, hl'⟩ := List.nodup_cons.mp hl
    have hone {u v : α} (hu : left.Next l x u) (hv : v = a ∧ l.head? = some x) : False :=
      not_next_first (S := .left) hv.2 hl' hu
    rcases next_left_cons.mp hy with hy | hy <;> rcases next_left_cons.mp hz with hz | hz
    · exact ih hl' hy hz
    · exact (hone hy hz).elim
    · exact (hone hz hy).elim
    · exact hy.1.trans hz.1.symm

theorem Side.Next.unique (hl : l.Nodup) (hy : S.Next l x y) (hz : S.Next l x z) : y = z := by
  cases S with
  | left => exact unique_left hl hy hz
  | right =>
    have hrev {y : α} (h : right.Next l x y) : left.Next l.reverse x y :=
      List.reverse_infix.mpr h
    exact unique_left (List.nodup_reverse.mpr hl) (hrev hy) (hrev hz)

theorem Side.Next.unique_source (hl : l.Nodup) (hx : S.Next l x z) (hy : S.Next l y z) : x = y :=
  unique (S := S.opposite) hl (next_opposite.mpr hx) (next_opposite.mpr hy)

/-- The element at the end of a longer list comes after another one. -/
theorem Side.exists_next (h : S.first l = some y) (hl : 2 ≤ l.length) : ∃ x, S.Next l x y := by
  have hy := eq_add_of_first h
  rw [hy, length_add] at hl
  obtain ⟨x, hx⟩ := S.first_ne_none (l := S.rest l) fun hnil => by simp [hnil] at hl
  exact ⟨x, by rw [hy]; exact next_add.mpr (.inr ⟨rfl, hx⟩)⟩

/-- A segment that an addition does not touch was in the list before. -/
theorem Side.infix_of_infix_add (h : seg <:+: R.add z l) (hn : (R.add z l).Nodup)
    (hx : seg.head? = some x) (hy : seg.getLast? = some y) (hxl : x ∈ l) (hyl : y ∈ l) :
    seg <:+: l := by
  have hz : z ∉ l := (nodup_add.mp hn).1
  cases R with
  | left =>
    rcases List.infix_cons_iff.mp h with h | h
    · obtain ⟨t, rfl⟩ : ∃ t, seg = x :: t := ⟨seg.tail, (List.cons_head?_tail hx).symm⟩
      obtain rfl := (List.cons_prefix_cons.mp h).1
      exact absurd hxl hz
    · exact h
  | right =>
    rcases List.infix_concat_iff.mp h with h | h
    · have hlast := h.getLast (fun hnil => by simp [hnil] at hx)
      rw [List.getLast_append_singleton] at hlast
      rw [List.getLast?_eq_getLast_of_ne_nil (fun hnil => by simp [hnil] at hx), hlast] at hy
      exact absurd (Option.some.inj hy ▸ hyl) hz
    · exact h

/-- The element at the end of the list is at the end of a segment it is in. -/
theorem Side.first_of_infix (h : seg <:+: l) (hn : l.Nodup) (hf : S.first l = some x)
    (hx : x ∈ seg) : S.first seg = some x := by
  obtain ⟨s, t, rfl⟩ := h
  cases S with
  | left =>
    cases s with
    | nil =>
      obtain ⟨y, hy⟩ := left.first_ne_none (List.ne_nil_of_mem hx)
      obtain ⟨u, rfl⟩ : ∃ u, seg = y :: u := ⟨seg.tail, (List.cons_head?_tail hy).symm⟩
      exact hf
    | cons y s =>
      obtain rfl : y = x := Option.some.inj hf
      simp [hx] at hn
  | right =>
    rcases List.eq_nil_or_concat t with rfl | ⟨u, y, rfl⟩
    · rw [List.append_nil] at hf
      obtain ⟨y, hy⟩ := right.first_ne_none (List.ne_nil_of_mem hx)
      rw [first, List.getLast?_append_of_ne_nil _ (List.ne_nil_of_mem hx)] at hf
      exact hf
    · have hy : right.first (s ++ seg ++ u.concat y) = some y := by simp [first]
      obtain rfl : x = y := Option.some.inj (hf.symm.trans hy)
      have hmem : x ∈ s ++ seg ++ u := by simp [hx]
      rw [List.concat_eq_append, ← List.append_assoc] at hn
      exact absurd hmem (nodup_add (S := .right).mp hn).1

/-- A segment with the ends of the list is the list. -/
theorem Side.eq_of_infix (h : seg <:+: l) (hn : l.Nodup) (hx : seg.head? = l.head?)
    (hy : seg.getLast? = l.getLast?) : seg = l := by
  by_cases hl : l = []
  · rw [hl] at h
    rw [hl, List.infix_nil.mp h]
  · have hhead : l.head hl ∈ seg :=
      mem_of_first (S := .left) (hx.trans (List.head?_eq_some_head hl))
    have hlast : l.getLast hl ∈ seg :=
      mem_of_first (S := .right) (hy.trans (List.getLast?_eq_some_getLast hl))
    exact List.Nodup.eq_of_head_mem_of_getLast_mem_of_infix h hhead hlast hn

/-- A list that follows a function from one end is given by its ends. -/
theorem Side.eq_of_follows_right {f : α → Option α} {l l' : List α} (hl : l.Nodup) (hl' : l'.Nodup)
    (h : ∀ x y, right.Next l x y → f x = some y) (h' : ∀ x y, right.Next l' x y → f x = some y)
    (hfirst : l.head? = l'.head?) (hlast : l.getLast? = l'.getLast?) : l = l' := by
  induction l generalizing l' with
  | nil => exact (List.head?_eq_none_iff.mp hfirst.symm).symm
  | cons x t ih =>
    cases l' with
    | nil => cases hfirst
    | cons x' t' =>
      obtain rfl : x = x' := Option.some.inj hfirst
      have halone {u : List α} (hu : (x :: u).Nodup) (hx : (x :: u).getLast? = some x) : u = [] := by
        by_contra hne
        rw [List.getLast?_cons_of_ne_nil hne] at hx
        exact (List.nodup_cons.mp hu).1 (List.mem_of_getLast? hx)
      cases t with
      | nil => rw [halone hl' hlast.symm]
      | cons y t =>
        cases t' with
        | nil => exact absurd (halone hl hlast) (List.cons_ne_nil y t)
        | cons y' t' =>
          have hstep {z : α} {u : List α} : right.Next (x :: z :: u) x z := ⟨[], u, rfl⟩
          have hy : y = y' := Option.some.inj ((h x y hstep).symm.trans (h' x y' hstep))
          have htail {z w a : α} {u : List α} (hn : right.Next u z w) : right.Next (a :: u) z w :=
            hn.mono (List.suffix_cons a u).isInfix
          rw [ih (List.nodup_cons.mp hl).2 (List.nodup_cons.mp hl').2
            (fun z w hn => h z w (htail hn)) (fun z w hn => h' z w (htail hn))
            (by rw [hy]; rfl) hlast]

theorem Side.eq_of_follows {f : α → Option α} {l l' : List α} (hl : l.Nodup) (hl' : l'.Nodup)
    (h : ∀ x y, S.Next l x y → f x = some y) (h' : ∀ x y, S.Next l' x y → f x = some y)
    (hends : ∀ R : Side, R.first l = R.first l') : l = l' := by
  cases S with
  | right => exact eq_of_follows_right hl hl' h h' (hends .left) (hends .right)
  | left =>
    have hrev {l : List α} {x y : α} (hn : right.Next l.reverse x y) : left.Next l x y :=
      List.reverse_infix.mp (by simpa [Next] using hn)
    apply List.reverse_injective
    apply eq_of_follows_right (f := f) (List.nodup_reverse.mpr hl) (List.nodup_reverse.mpr hl')
    · exact fun x y hn => h x y (hrev hn)
    · exact fun x y hn => h' x y (hrev hn)
    · rw [List.head?_reverse, List.head?_reverse]
      exact hends .right
    · rw [List.getLast?_reverse, List.getLast?_reverse]
      exact hends .left

end UnboundedDeque
