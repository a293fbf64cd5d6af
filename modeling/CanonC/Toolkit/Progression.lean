import Mathlib.Algebra.Order.Ring.Int
import Mathlib.Tactic.Ring

/-!
# Arithmetic progressions up to a bound

An integer progression with a step other than zero reaches an exclusive bound in its
direction of travel after finitely many terms. The terms before the bound are exactly
those of the first indices, and their number has a closed form.
-/

namespace Toolkit.Progression

variable {step bound x : Int} {k n : Nat}

/-- The point has not reached the bound in the direction of the step. -/
def Near (step bound x : Int) : Prop := 0 < step ∧ x < bound ∨ step < 0 ∧ bound < x

instance : Decidable (Near step bound x) := inferInstanceAs (Decidable (_ ∨ _))

/-- The number of terms before the bound, from `x` on. -/
def count (step bound x : Int) : Nat :=
  if Near step bound x then ((bound - x).natAbs - 1) / step.natAbs + 1 else 0

/-- The bound itself is not on the near side. -/
theorem not_near_bound : ¬ Near step bound bound := by
  rintro (⟨-, h⟩ | ⟨-, h⟩) <;> exact lt_irrefl bound h

/-- Upwards a value is near below the bound. -/
theorem near_of_pos (h : 0 < step) : Near step bound x ↔ x < bound := by
  simp [Near, h, not_lt_of_gt h]

/-- Downwards a value is near above the bound. -/
theorem near_of_neg (h : step < 0) : Near step bound x ↔ bound < x := by
  simp [Near, h, not_lt_of_gt h]

/-- Travelling downwards is travelling upwards on the mirrored line. -/
theorem near_neg : Near (-step) (-bound) (-x) ↔ Near step bound x := by
  simp [Near, or_comm]

/-- A progression and its mirror image have as many terms. -/
theorem count_neg : count (-step) (-bound) (-x) = count step bound x := by
  simp only [count, near_neg, Int.natAbs_neg, show -bound - -x = -(bound - x) by ring]

private theorem near_add_mul_iff_of_pos (h : 0 < step) :
    Near step bound (x + k * step) ↔ k < count step bound x := by
  obtain ⟨s, rfl⟩ := Int.eq_ofNat_of_zero_le h.le
  have hs : 0 < s := by exact_mod_cast h
  by_cases hx : x < bound
  · obtain ⟨d, rfl⟩ : ∃ d : Nat, bound = x + (d + 1) := ⟨(bound - x - 1).toNat, by omega⟩
    have hd : (x + ((d : Int) + 1) - x).natAbs = d + 1 := by omega
    rw [near_of_pos h, count, if_pos ((near_of_pos h).mpr hx), hd, Nat.add_sub_cancel,
      Int.natAbs_natCast, Nat.lt_succ_iff, Nat.le_div_iff_mul_le hs]
    constructor <;> intro hk <;> have : ((k * s : Nat) : Int) = k * s := Nat.cast_mul k s <;> omega
  · have hk : 0 ≤ (k : Int) * s := mul_nonneg (Int.natCast_nonneg k) h.le
    rw [near_of_pos h, count, if_neg (mt (near_of_pos h).mp hx)]
    omega

/-- The terms before the bound are those of the first `count` indices. -/
theorem near_add_mul_iff (h : step ≠ 0) :
    Near step bound (x + k * step) ↔ k < count step bound x := by
  rcases lt_or_gt_of_ne h with hneg | hpos
  · rw [← near_neg, ← count_neg, ← near_add_mul_iff_of_pos (neg_pos.mpr hneg), mul_neg, neg_add]
  · exact near_add_mul_iff_of_pos hpos

/-- A count that fits every index is the count. -/
theorem eq_count (h : step ≠ 0) (hn : ∀ k : Nat, Near step bound (x + k * step) ↔ k < n) :
    n = count step bound x := by
  have hiff : ∀ k, k < n ↔ k < count step bound x := fun k => (hn k).symm.trans (near_add_mul_iff h)
  exact le_antisymm (Nat.le_of_not_lt fun hlt => lt_irrefl _ ((hiff _).mp hlt))
    (Nat.le_of_not_lt fun hlt => lt_irrefl _ ((hiff _).mpr hlt))

/-- There is a term left exactly when the first one is before the bound. -/
theorem count_pos_iff (h : step ≠ 0) : 0 < count step bound x ↔ Near step bound x := by
  rw [← near_add_mul_iff h, Nat.cast_zero, zero_mul, add_zero]

/-- A progression that starts behind its bound has no terms. -/
theorem count_of_not_near (h : ¬ Near step bound x) : count step bound x = 0 := if_neg h

/-- One step on there is one term less. -/
theorem count_add_step (h : step ≠ 0) (hx : Near step bound x) :
    count step bound (x + step) = count step bound x - 1 := by
  have hpos := (count_pos_iff h).mpr hx
  refine (eq_count h fun k => ?_).symm
  have hterm : x + step + k * step = x + (k + 1 : Nat) * step := by push_cast; ring
  rw [hterm, near_add_mul_iff h]
  omega

end Toolkit.Progression
