import Mathlib.Algebra.Order.Floor.Div

/-!
# Rounding to a multiple

The greatest multiple of `a` up to `n` is the floor quotient times `a`, the least one from `n`
the ceiling quotient times `a`. Below a multiple of `a` every multiple leaves room for the
next one, so reducing modulo it commutes with rounding down.
-/

namespace Toolkit.Rounding

variable {a n size : Nat}

/-- The multiple below. -/
theorem isGreatest_mul_div (n : Nat) (ha : 0 < a) :
    IsGreatest {m | a ∣ m ∧ m ≤ n} (a * (n / a)) := by
  refine ⟨⟨Nat.dvd_mul_right _ _, Nat.mul_div_le n a⟩, ?_⟩
  rintro _ ⟨⟨q, rfl⟩, hle⟩
  exact Nat.mul_le_mul_left a ((Nat.le_div_iff_mul_le ha).mpr (by rwa [Nat.mul_comm]))

/-- The multiple above. -/
theorem isLeast_mul_ceilDiv (n : Nat) (ha : 0 < a) :
    IsLeast {m | a ∣ m ∧ n ≤ m} (a * (n ⌈/⌉ a)) := by
  refine ⟨⟨Nat.dvd_mul_right _ _, (ceilDiv_le_iff_le_mul ha).mp le_rfl⟩, ?_⟩
  rintro _ ⟨⟨q, rfl⟩, hle⟩
  exact Nat.mul_le_mul_left a ((ceilDiv_le_iff_le_mul ha).mpr hle)

/-- Two different multiples are a whole step apart. -/
theorem add_le_of_dvd_of_lt {m : Nat} (hm : a ∣ m) (hsize : a ∣ size) (hlt : m < size) :
    m + a ≤ size :=
  Nat.le_of_lt_add_of_dvd (Nat.add_lt_add_right hlt a) (Nat.dvd_add_self_right.mpr hm) hsize

/-- A number has a multiple from it on below `size` exactly when `size` is a step away. -/
theorem exists_multiple_lt_iff (ha : 0 < a) (hsize : a ∣ size) :
    (∃ m < size, a ∣ m ∧ n ≤ m) ↔ n + a ≤ size := by
  constructor
  · rintro ⟨m, hlt, hdvd, hle⟩
    have hroom := add_le_of_dvd_of_lt hdvd hsize hlt
    omega
  · intro hle
    exact ⟨size - a, by omega, Nat.dvd_sub hsize (Nat.dvd_refl a), by omega⟩

/-- Rounding a remainder down rounds the number and takes the remainder. -/
theorem mul_mod_div (hsize : a ∣ size) (n : Nat) :
    a * (n % size / a) = a * (n / a) % size := by
  obtain ⟨c, rfl⟩ := hsize
  rw [Nat.mod_mul_right_div_self, Nat.mul_mod_mul_left]

end Toolkit.Rounding
