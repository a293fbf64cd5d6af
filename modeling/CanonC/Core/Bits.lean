import CanonC.Toolkit.Fields

/-!
# Bit operations

The power-of-two test and the portable population count, which sums neighbouring
fields in place three times and adds the eight bytes with one multiplication.
-/

namespace CanonC

open Toolkit

/-- `bits_is_power_of_two`. -/
def bitsIsPowerOfTwo (value : Nat) : Bool := value != 0 && value &&& (value - 1) == 0

/-- The test of one bit finds the powers of two. -/
theorem bitsIsPowerOfTwo_iff {value : Nat} :
    bitsIsPowerOfTwo value = true ↔ value.isPowerOfTwo := by
  rw [← Nat.ne_zero_and_sub_one_eq_zero_iff_isPowerOfTwo]
  simp [bitsIsPowerOfTwo]

/-- `bits_popcount` without a compiler builtin. -/
def bitsPopcount (value : BitVec 64) : BitVec 32 :=
  let v := value - ((value >>> 1) &&& 0x5555555555555555#64)
  let v := (v &&& 0x3333333333333333#64) + ((v >>> 2) &&& 0x3333333333333333#64)
  let v := (v + (v >>> 4)) &&& 0x0F0F0F0F0F0F0F0F#64
  ((v * 0x0101010101010101#64) >>> 56).setWidth 32

private theorem popcount_pairs (v : BitVec 64) :
    (v - ((v >>> 1) &&& 0x5555555555555555#64)).toNat = Fields.pairSums 1 32 v.toNat := by
  have hmask : (0x5555555555555555#64).toNat = Fields.mask 1 32 := by decide
  obtain ⟨hsub, hle⟩ := Fields.sub_and_mask 32 (show v.toNat < 2 ^ ((1 + 1) * 32) from v.isLt)
  have hand : ((v >>> 1) &&& 0x5555555555555555#64).toNat =
      (v.toNat / 2 ^ 1 &&& Fields.mask 1 32) := by
    rw [BitVec.toNat_and, BitVec.toNat_ushiftRight, hmask, Nat.shiftRight_eq_div_pow]
  rw [BitVec.toNat_sub_of_le (by rw [BitVec.le_def, hand]; exact hle), hand, hsub]

private theorem popcount_nibbles (v : BitVec 64) :
    ((v &&& 0x3333333333333333#64) + ((v >>> 2) &&& 0x3333333333333333#64)).toNat =
      Fields.pairSums 2 16 v.toNat := by
  have hmask : (0x3333333333333333#64).toNat = Fields.mask 2 16 := by decide
  rw [BitVec.toNat_add, BitVec.toNat_and, BitVec.toNat_and, BitVec.toNat_ushiftRight, hmask,
    Nat.shiftRight_eq_div_pow, Fields.and_mask_add]
  exact Nat.mod_eq_of_lt (Fields.pairSums_lt (by decide) 16 _)

private theorem popcount_bytes {v : BitVec 64} (hv : Fields.Bounded 4 6 (8 + 8 + 1) v.toNat) :
    ((v + (v >>> 4)) &&& 0x0F0F0F0F0F0F0F0F#64).toNat = Fields.pairSums 4 8 v.toNat := by
  have hmask : (0x0F0F0F0F0F0F0F0F#64).toNat = Fields.mask 4 8 := by decide
  have hfull : (2 ^ 64 - 1) &&& Fields.mask 4 8 = Fields.mask 4 8 := by decide
  rw [BitVec.toNat_and, BitVec.toNat_add, BitVec.toNat_ushiftRight, hmask,
    Nat.shiftRight_eq_div_pow, ← Nat.and_two_pow_sub_one_eq_mod, Nat.and_assoc, hfull]
  exact Fields.add_shift_and_mask (by decide) 8 _ hv

private theorem popcount_sum {v : BitVec 64} (hv : Fields.total 8 8 v.toNat ≤ 64) :
    (((v * 0x0101010101010101#64) >>> 56).setWidth 32).toNat = Fields.total 8 8 v.toNat := by
  have hones : (0x0101010101010101#64).toNat = Fields.ones 8 8 := by decide
  have htop := Fields.mul_ones_div 7 (show Fields.total 8 (7 + 1) v.toNat < 2 ^ 8 from
    Nat.lt_of_le_of_lt hv (by decide))
  rw [BitVec.toNat_setWidth, BitVec.toNat_ushiftRight, BitVec.toNat_mul, hones,
    Nat.shiftRight_eq_div_pow]
  exact (congrArg (· % 2 ^ 32) htop).trans (Nat.mod_eq_of_lt (by omega))

/-- The population count is the number of set bits. -/
theorem toNat_bitsPopcount (value : BitVec 64) : (bitsPopcount value).toNat =
    ((Finset.range 64).filter fun i => value.getLsbD i = true).card := by
  have hle := (Finset.card_filter_le (Finset.range 64) fun i => value.getLsbD i = true)
  rw [Finset.card_range] at hle
  have h₁ := popcount_pairs value
  have h₂ := popcount_nibbles (value - ((value >>> 1) &&& 0x5555555555555555#64))
  have hb := Fields.bounded_pairSums (s := 2) (by decide) 16
    (value - ((value >>> 1) &&& 0x5555555555555555#64)).toNat (8 + 8 + 1)
  rw [← h₂] at hb
  have h₃ := popcount_bytes hb
  -- Every stage has the total of the one before, down to the single bits.
  have htotal : Fields.total 8 8 (Fields.pairSums 4 8 (Fields.pairSums 2 16
      (Fields.pairSums 1 32 value.toNat))) =
      ((Finset.range 64).filter fun i => value.getLsbD i = true).card := by
    rw [show (8 : Nat) = 4 + 4 from rfl, Fields.total_pairSums (by decide),
      show (4 : Nat) + 4 + (4 + 4) = 16 from rfl, show (4 : Nat) = 2 + 2 from rfl,
      Fields.total_pairSums (by decide), show (16 : Nat) + 16 = 32 from rfl,
      show (2 : Nat) = 1 + 1 from rfl, Fields.total_pairSums (by decide), Fields.total_one]
    rfl
  rw [h₂, h₁] at h₃
  rw [← h₃] at htotal
  have hsum := popcount_sum (htotal.trans_le hle)
  rw [htotal] at hsum
  exact hsum

end CanonC
