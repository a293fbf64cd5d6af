import Mathlib.Data.List.Lex
import Mathlib.Data.Int.Order.Basic
import Mathlib.Order.Lattice
import Mathlib.Tactic.Common

/-!
# Three-way results

A comparison answers with a number whose sign tells how two values of a linear order
compare. In the lexicographic order of lists the first difference decides, and without one
the list that ends first is the smaller.
-/

namespace Toolkit

variable {α : Type*} [LinearOrder α] {r : Int} {x y : α} {xs ys : List α}

/-- The sign of the number tells how the values compare. -/
structure Ranks (r : Int) (x y : α) : Prop where
  /-- It is negative for the smaller value. -/
  neg : r < 0 ↔ x < y
  /-- It is positive for the larger value. -/
  pos : 0 < r ↔ y < x

namespace Ranks

/-- It is zero exactly for equal values. -/
theorem zero (h : Ranks r x y) : r = 0 ↔ x = y := by
  rw [le_antisymm_iff, le_antisymm_iff, ← not_lt, ← not_lt, h.neg, h.pos, not_lt, not_lt, and_comm]

/-- Zero says that the two are the same. -/
theorem refl (x : α) : Ranks 0 x x :=
  ⟨iff_of_false (lt_irrefl _) (lt_irrefl _), iff_of_false (lt_irrefl _) (lt_irrefl _)⟩

/-- A negative result says that the first is less. -/
theorem of_lt (hr : r < 0) (h : x < y) : Ranks r x y :=
  ⟨iff_of_true hr h, iff_of_false hr.not_gt h.not_gt⟩

/-- A positive result says that the second is less. -/
theorem of_gt (hr : 0 < r) (h : y < x) : Ranks r x y :=
  ⟨iff_of_false hr.not_gt h.not_gt, iff_of_true hr h⟩

/-- The first elements are the same: the rest decides. -/
theorem cons (x : α) (h : Ranks r xs ys) : Ranks r (x :: xs) (x :: ys) := by
  refine ⟨h.neg.trans ?_, h.pos.trans ?_⟩ <;>
    rw [List.cons_lt_cons_iff] <;> simp

/-- The first elements differ: they decide. -/
theorem cons_of_ne (h : Ranks r x y) (hne : x ≠ y) : Ranks r (x :: xs) (y :: ys) := by
  rcases lt_or_gt_of_ne hne with hlt | hgt
  · exact of_lt (h.neg.mpr hlt) (List.cons_lt_cons_iff.mpr (.inl hlt))
  · exact of_gt (h.pos.mpr hgt) (List.cons_lt_cons_iff.mpr (.inl hgt))

/-- A list that ends first is less. -/
theorem nil_cons (hr : r < 0) : Ranks r [] (y :: ys) := of_lt hr (List.nil_lt_cons y ys)

/-- A list that goes on is greater. -/
theorem cons_nil (hr : 0 < r) : Ranks r (x :: xs) [] := of_gt hr (List.nil_lt_cons x xs)

end Ranks

end Toolkit
