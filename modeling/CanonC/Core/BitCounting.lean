import CanonC.Core.Bits
import CanonC.Core.BitScan
import CanonC.Toolkit.Smear

/-!
# Counting and scanning the bits of a word

The one-based bit scans and the round up to a power of two, and what each portable
fallback computes bit by bit.
-/

namespace CanonC

open Toolkit

/-- `bits_ffs`. -/
def bitsFfs (value : BitVec 64) : Nat := if value = 0 then 0 else bitsCtz value + 1

/-- `bits_fls`. -/
def bitsFls (value : BitVec 64) : Nat := if value = 0 then 0 else 64 - bitsClz value

/-- `bits_next_power_of_two`. -/
def bitsNextPowerOfTwo (value : BitVec 64) : BitVec 64 :=
  if value = 0 then 0
  else if value.toNat > 2 ^ 63 then 0
  else
    let v := value - 1
    let v := v ||| v >>> 1
    let v := v ||| v >>> 2
    let v := v ||| v >>> 4
    let v := v ||| v >>> 8
    let v := v ||| v >>> 16
    let v := v ||| v >>> 32
    v + 1

/-- The leading zeros, all 64 bits of zero included. -/
theorem bitsClz_eq (value : BitVec 64) : bitsClz value = zerosBefore BitVec.getMsbD value := by
  by_cases hz : value = 0
  · rw [hz, fromHigh.zerosBefore_zero]
    rfl
  · obtain ⟨hset, hclear⟩ := bitsClz_spec hz
    exact (fromHigh.zerosBefore_eq hset hclear).symm

/-- The trailing zeros, all 64 bits of zero included. -/
theorem bitsCtz_eq (value : BitVec 64) : bitsCtz value = zerosBefore BitVec.getLsbD value := by
  by_cases hz : value = 0
  · rw [hz, fromLow.zerosBefore_zero]
    rfl
  · obtain ⟨hset, hclear⟩ := bitsCtz_spec hz
    exact (fromLow.zerosBefore_eq hset hclear).symm

/-- The first set bit, counted from one, is the lowest. -/
theorem bitsFfs_eq_succ_iff (value : BitVec 64) (p : Nat) : bitsFfs value = p + 1 ↔
    value.getLsbD p = true ∧ ∀ i < p, value.getLsbD i = false := by
  by_cases hz : value = 0
  · simp [bitsFfs, hz]
  · obtain ⟨hset, hclear⟩ := bitsCtz_spec hz
    rw [bitsFfs, if_neg hz, Nat.succ_inj]
    constructor
    · rintro rfl
      exact ⟨hset, hclear⟩
    · rintro ⟨hp, hbelow⟩
      rw [bitsCtz_eq]
      exact fromLow.zerosBefore_eq hp hbelow

/-- The last set bit, counted from one, is the highest. -/
theorem bitsFls_eq_succ_iff (value : BitVec 64) (p : Nat) : bitsFls value = p + 1 ↔
    value.getLsbD p = true ∧ ∀ i, p < i → value.getLsbD i = false := by
  by_cases hz : value = 0
  · simp [bitsFls, hz]
  · have hclz := bitsClz_eq value
    obtain ⟨hset, hclear⟩ := bitsClz_spec hz
    have hlt : bitsClz value < 64 := BitVec.lt_of_getMsbD hset
    rw [bitsFls, if_neg hz]
    constructor
    · intro hp
      rw [BitVec.getMsbD_eq_getLsbD, decide_eq_true hlt, Bool.true_and,
        show 64 - 1 - bitsClz value = p by omega] at hset
      refine ⟨hset, fun i hi => ?_⟩
      rw [BitVec.getLsbD_eq_getMsbD]
      by_cases hi64 : i < 64
      · rw [hclear _ (by omega), Bool.and_false]
      · rw [decide_eq_false hi64, Bool.false_and]
    · rintro ⟨hp, habove⟩
      have hp64 : p < 64 := BitVec.lt_of_getLsbD hp
      have hcount : zerosBefore BitVec.getMsbD value = 63 - p := by
        refine fromHigh.zerosBefore_eq ?_ fun i hi => ?_
        · rw [BitVec.getMsbD_eq_getLsbD, decide_eq_true (by omega), Bool.true_and,
            show 64 - 1 - (63 - p) = p by omega, hp]
        · rw [BitVec.getMsbD_eq_getLsbD, habove _ (by omega), Bool.and_false]
      omega

private theorem smeared_word (v : BitVec 64) :
    let v₁ := v ||| v >>> 1
    let v₂ := v₁ ||| v₁ >>> 2
    let v₃ := v₂ ||| v₂ >>> 4
    let v₄ := v₃ ||| v₃ >>> 8
    let v₅ := v₄ ||| v₄ >>> 16
    Smeared v 64 (v₅ ||| v₅ >>> 32) :=
  (smeared_self v).double.double.double.double.double.double

/-- Within the range of a word the round up adds one to the smeared predecessor. -/
theorem toNat_bitsNextPowerOfTwo {value : BitVec 64} (hne : value ≠ 0)
    (hle : value.toNat ≤ 2 ^ 63) :
    (bitsNextPowerOfTwo value).toNat = 2 ^ Nat.size (value.toNat - 1) := by
  have hpos : 0 < value.toNat := Nat.pos_of_ne_zero fun h => hne (BitVec.eq_of_toNat_eq h)
  have hpred : (value - 1).toNat = value.toNat - 1 :=
    BitVec.toNat_sub_of_le (BitVec.le_def.mpr hpos)
  have hsmear := (smeared_word (value - 1)).toNat
  rw [hpred] at hsmear
  have hsize : 2 ^ Nat.size (value.toNat - 1) ≤ 2 ^ 63 :=
    Nat.pow_le_pow_right Nat.two_pos (Nat.size_le.mpr (by omega))
  have hone : 0 < 2 ^ Nat.size (value.toNat - 1) := Nat.two_pow_pos _
  rw [bitsNextPowerOfTwo, if_neg hne, if_neg (Nat.not_lt.mpr hle), BitVec.toNat_add, hsmear]
  change (2 ^ Nat.size (value.toNat - 1) - 1 + 1) % 2 ^ 64 = _
  rw [Nat.sub_add_cancel hone]
  exact Nat.mod_eq_of_lt (by omega)

/-- The round up fails only at zero and past the highest power of two of a word. -/
theorem bitsNextPowerOfTwo_eq_zero_iff (value : BitVec 64) :
    bitsNextPowerOfTwo value = 0 ↔ value = 0 ∨ 2 ^ 63 < value.toNat := by
  constructor
  · intro hzero
    by_contra hin
    rw [not_or, Nat.not_lt] at hin
    have hval := toNat_bitsNextPowerOfTwo hin.1 hin.2
    rw [hzero] at hval
    exact absurd hval (Nat.two_pow_pos _).ne
  · rintro (rfl | hgt)
    · rfl
    · rw [bitsNextPowerOfTwo, if_pos hgt, ite_self]

/-- Every portable fallback computes what its name says of the bits of the word. -/
theorem bits_fallbacks (value : BitVec 64) :
    (bitsPopcount value).toNat =
        ((Finset.range 64).filter fun i => value.getLsbD i = true).card ∧
      bitsClz value = zerosBefore BitVec.getMsbD value ∧
      bitsCtz value = zerosBefore BitVec.getLsbD value ∧
      (bitsFfs value = 0 ↔ value = 0) ∧
      (∀ p, bitsFfs value = p + 1 ↔
        value.getLsbD p = true ∧ ∀ i < p, value.getLsbD i = false) ∧
      (bitsFls value = 0 ↔ value = 0) ∧
      (∀ p, bitsFls value = p + 1 ↔
        value.getLsbD p = true ∧ ∀ i, p < i → value.getLsbD i = false) ∧
      (bitsNextPowerOfTwo value = 0 ↔ value = 0 ∨ 2 ^ 63 < value.toNat) ∧
      (bitsNextPowerOfTwo value ≠ 0 →
        IsLeast {p | p.isPowerOfTwo ∧ value.toNat ≤ p} (bitsNextPowerOfTwo value).toNat) := by
  refine ⟨toNat_bitsPopcount value, bitsClz_eq value, bitsCtz_eq value, ?_,
    bitsFfs_eq_succ_iff value, ?_, bitsFls_eq_succ_iff value,
    bitsNextPowerOfTwo_eq_zero_iff value, fun hne => ?_⟩
  · simp [bitsFfs]
  · rw [bitsFls]
    split
    · rename_i hz
      exact iff_of_true rfl hz
    · rename_i hz
      have hlt : bitsClz value < 64 := BitVec.lt_of_getMsbD (bitsClz_spec hz).1
      exact iff_of_false (by omega) hz
  · rw [Ne, bitsNextPowerOfTwo_eq_zero_iff, not_or, Nat.not_lt] at hne
    rw [toNat_bitsNextPowerOfTwo hne.1 hne.2]
    exact isLeast_two_pow_size (Nat.pos_of_ne_zero fun h => hne.1 (BitVec.eq_of_toNat_eq h))

end CanonC
