import Mathlib.Data.BitVec
import Mathlib.Logic.Function.Basic
import Mathlib.SetTheory.Cardinal.Finite

/-!
# Scrambling a word

Adding a shifted copy of a word to itself without carries, and rotating it, lose nothing.
-/

namespace Toolkit.Scramble

open Function

variable {w : Nat}

/-- A word that is its own right shift is zero. -/
theorem eq_zero_of_ushiftRight_eq {x : BitVec w} {s : Nat} (hs : 0 < s) (h : x >>> s = x) :
    x = 0#w := by
  apply BitVec.eq_of_toNat_eq
  have hdiv : x.toNat / 2 ^ s = x.toNat := by
    rw [← Nat.shiftRight_eq_div_pow, ← BitVec.toNat_ushiftRight, h]
  have hpow : 1 < 2 ^ s := Nat.one_lt_two_pow (Nat.pos_iff_ne_zero.mp hs)
  rcases (Nat.div_eq_self.mp hdiv) with h0 | h1
  · rw [h0]
    simp
  · omega

/-- A word is recovered from its sum without carries with a right shift of itself. -/
theorem xorshift_injective {s : Nat} (hs : 0 < s) :
    Injective fun x : BitVec w => x >>> s ^^^ x := by
  intro x y h
  have hfix : (x ^^^ y) >>> s = x ^^^ y := by
    ext i hi
    have hbit : (x.getLsbD (s + i) ^^ x[i]) = (y.getLsbD (s + i) ^^ y[i]) := by
      simpa [hi] using congrArg (fun z : BitVec w => z.getLsbD i) h
    simp only [BitVec.getElem_ushiftRight, BitVec.getLsbD_xor, BitVec.getElem_xor]
    revert hbit
    cases x.getLsbD (s + i) <;> cases y.getLsbD (s + i) <;> cases x[i] <;> cases y[i] <;> simp
  exact BitVec.xor_eq_zero_iff.mp (eq_zero_of_ushiftRight_eq hs hfix)

/-- A word is recovered from its rotation. -/
theorem rotateRight_injective (n : Nat) : Injective fun x : BitVec w => x.rotateRight n := by
  intro x y h
  ext i hi
  have hn : n % w < w := Nat.mod_lt _ (by omega)
  by_cases hlt : n % w ≤ i
  · have := congrArg (fun z : BitVec w => z.getLsbD (i - n % w)) h
    simpa [BitVec.getLsbD_rotateRight, show i - n % w < w - n % w by omega,
      show n % w + (i - n % w) = i by omega, hi] using this
  · have := congrArg (fun z : BitVec w => z.getLsbD (i + (w - n % w))) h
    simpa [BitVec.getLsbD_rotateRight, show ¬ i + (w - n % w) < w - n % w by omega,
      show i + (w - n % w) < w by omega, hi] using this

/-- The branchless rotation: the shift to the left is the negated count modulo the width. -/
theorem rotateRight_eq {x rot : BitVec 32} (h : rot.toNat < 32) :
    x >>> rot ||| x <<< (-rot &&& 31#32) = x.rotateRight rot.toNat := by
  have hand : (-rot &&& 31#32).toNat = (2 ^ 32 - rot.toNat) % 2 ^ 32 % 2 ^ 5 := by
    rw [BitVec.toNat_and, BitVec.toNat_neg, show (31#32).toNat = 2 ^ 5 - 1 from rfl,
      Nat.and_two_pow_sub_one_eq_mod]
  rw [BitVec.ushiftRight_eq', BitVec.shiftLeft_eq', hand, BitVec.rotateRight_def,
    Nat.mod_eq_of_lt h]
  by_cases h0 : rot.toNat = 0
  · rw [h0]
    simp
  · rw [show (2 ^ 32 - rot.toNat) % 2 ^ 32 % 2 ^ 5 = 32 - rot.toNat by omega]

/-- A power of two as a word. -/
theorem toNat_two_pow (w k : Nat) : ((2 : BitVec w) ^ k).toNat = 2 ^ k % 2 ^ w := by
  have hcast : (2 : BitVec w) ^ k = ((2 ^ k : Nat) : BitVec w) := by
    rw [Nat.cast_pow]
    rfl
  rw [hcast, BitVec.natCast_eq_ofNat, BitVec.toNat_ofNat]

/-- The power of two that the width names is zero. -/
theorem two_pow_self (w : Nat) : (2 : BitVec w) ^ w = 0 :=
  BitVec.eq_of_toNat_eq (by rw [toNat_two_pow, Nat.mod_self]; simp)

/-- No smaller power of two is zero. -/
theorem two_pow_ne_zero {w k : Nat} (h : k < w) : (2 : BitVec w) ^ k ≠ 0 := by
  intro hzero
  have hnat := congrArg BitVec.toNat hzero
  rw [toNat_two_pow, Nat.mod_eq_of_lt (Nat.pow_lt_pow_right (by decide) h)] at hnat
  exact absurd hnat (by simp)

/-- The number of words of a width. -/
theorem natCard_bitVec (n : Nat) : Nat.card (BitVec n) = 2 ^ n :=
  (Nat.card_congr ⟨BitVec.toFin, BitVec.ofFin, fun _ => rfl, fun _ => rfl⟩).trans
    (Nat.card_fin (2 ^ n))

instance finite_bitVec (n : Nat) : Finite (BitVec n) :=
  Finite.of_injective BitVec.toFin fun _ _ => BitVec.eq_of_toFin_eq

end Toolkit.Scramble
