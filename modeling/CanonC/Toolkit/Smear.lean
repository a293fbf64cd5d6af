import Mathlib.Data.BitVec
import Mathlib.Data.Nat.Size
import Mathlib.Order.Bounds.Basic

/-!
# Smearing the highest bit downwards

Each round takes the disjunction of a word with itself shifted right by the width smeared
so far, which doubles that width. Once it covers the word, every bit below the highest set one is
set, and the next number is a power of two.
-/

namespace Toolkit

variable {n : Nat}

/-- A bit of `x` is set when one of the `width` bits of `value` from its place upwards is. -/
def Smeared (value : BitVec n) (width : Nat) (x : BitVec n) : Prop :=
  ∀ i, x.getLsbD i = true ↔ ∃ k < width, value.getLsbD (i + k) = true

/-- Every word is its own smear over one bit. -/
theorem smeared_self (value : BitVec n) : Smeared value 1 value := by
  intro i
  constructor
  · exact fun h => ⟨0, Nat.one_pos, h⟩
  · rintro ⟨k, hk, h⟩
    rwa [Nat.lt_one_iff.mp hk] at h

/-- One round doubles the width. -/
theorem Smeared.double {value x : BitVec n} {width : Nat} (h : Smeared value width x) :
    Smeared value (width + width) (x ||| x >>> width) := by
  intro i
  rw [BitVec.getLsbD_or, BitVec.getLsbD_ushiftRight, Bool.or_eq_true, h i, h (width + i)]
  constructor
  · rintro (⟨k, hk, hbit⟩ | ⟨k, hk, hbit⟩)
    · exact ⟨k, by omega, hbit⟩
    · exact ⟨width + k, by omega, by rwa [← Nat.add_assoc, Nat.add_comm i width]⟩
  · rintro ⟨k, hk, hbit⟩
    by_cases hlt : k < width
    · exact Or.inl ⟨k, hlt, hbit⟩
    · refine Or.inr ⟨k - width, by omega, ?_⟩
      rwa [show width + i + (k - width) = i + k by omega]

/-- A word smeared over its whole width has every bit below its length set. -/
theorem Smeared.toNat {value x : BitVec n} (h : Smeared value n x) :
    x.toNat = 2 ^ Nat.size value.toNat - 1 := by
  apply Nat.eq_of_testBit_eq
  intro i
  rw [Nat.testBit_two_pow_sub_one, BitVec.testBit_toNat, Bool.eq_iff_iff, h i, decide_eq_true_eq,
    Nat.lt_size]
  constructor
  · rintro ⟨k, -, hbit⟩
    exact (Nat.pow_le_pow_right Nat.two_pos (Nat.le_add_right i k)).trans
      (Nat.ge_two_pow_of_testBit hbit)
  · intro hle
    obtain ⟨j, hj, hbit⟩ := Nat.exists_ge_and_testBit_of_ge_two_pow hle
    have hlt : j < n := BitVec.lt_of_getLsbD hbit
    exact ⟨j - i, by omega, by rwa [Nat.add_sub_cancel' hj]⟩

/-- The length of the number below `m` is the exponent of the least power of two from `m`. -/
theorem isLeast_two_pow_size {m : Nat} (hm : 0 < m) :
    IsLeast {p | p.isPowerOfTwo ∧ m ≤ p} (2 ^ Nat.size (m - 1)) := by
  refine ⟨⟨⟨_, rfl⟩, ?_⟩, ?_⟩
  · have hlt := Nat.lt_size_self (m - 1)
    omega
  · rintro p ⟨⟨k, rfl⟩, hle⟩
    exact Nat.pow_le_pow_right Nat.two_pos (Nat.size_le.mpr (by omega))

end Toolkit
