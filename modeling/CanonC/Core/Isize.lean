import CanonC.Core.Types

/-!
# Signed sizes

The values of `isize` are the integers from `-2 ^ 63` to `2 ^ 63 - 1`, and no other can
be built. A signed operation whose integer result is not among them is undefined
behaviour, modelled as a fault, and so is a division by zero; a conversion to `usize` is
taken modulo `usizeSize`.
-/

namespace CanonC

/-- `CANON_ISIZE_MIN`. -/
def isizeMin : Int := -9223372036854775808

/-- `CANON_ISIZE_MAX`. -/
def isizeMax : Int := 9223372036854775807

/-- The values of type `isize`. -/
abbrev Isize : Type := {i : Int // isizeMin ≤ i ∧ i ≤ isizeMax}

instance : OfNat Isize 0 := ⟨⟨0, by decide⟩⟩

instance : OfNat Isize 1 := ⟨⟨1, by decide⟩⟩

/-- The least `isize`. -/
def isizeLeast : Isize := ⟨isizeMin, by decide⟩

/-- The greatest `isize`. -/
def isizeGreatest : Isize := ⟨isizeMax, by decide⟩

/-- The fault of a signed operation whose result is no `isize`. -/
def signedOverflow : String := "signed overflow"

/-- The `isize` with the integer value of a signed operation, if there is one. -/
def isizeOf (i : Int) : Except String Isize :=
  if h : isizeMin ≤ i ∧ i ≤ isizeMax then .ok ⟨i, h⟩ else .error signedOverflow

/-- Signed addition. -/
def isizeAdd (a b : Isize) : Except String Isize := isizeOf (a.val + b.val)

/-- Signed subtraction. -/
def isizeSub (a b : Isize) : Except String Isize := isizeOf (a.val - b.val)

/-- Signed negation. -/
def isizeNeg (a : Isize) : Except String Isize := isizeOf (-a.val)

/-- Signed multiplication. -/
def isizeMul (a b : Isize) : Except String Isize := isizeOf (a.val * b.val)

/-- The fault of a division by zero. -/
def divisionByZero : String := "division by zero"

/-- Signed division, which truncates towards zero. -/
def isizeDiv (a b : Isize) : Except String Isize :=
  if b.val = 0 then .error divisionByZero else isizeOf (a.val.tdiv b.val)

/-- The conversion `(usize)` of a signed value. -/
def isizeToUsize (a : Isize) : Nat := (a.val % (usizeSize : Int)).toNat

/-- A signed operation whose result fits is exact. -/
theorem isizeOf_eq {i : Int} (h : isizeMin ≤ i ∧ i ≤ isizeMax) : isizeOf i = .ok ⟨i, h⟩ :=
  dif_pos h

/-- A quotient fits unless the least `isize` is divided by minus one. -/
theorem isizeDiv_eq {a b : Isize} (hb : b.val ≠ 0) (hmin : a.val ≠ isizeMin ∨ b.val ≠ -1) :
    ∃ q : Isize, isizeDiv a b = .ok q ∧ q.val = a.val.tdiv b.val := by
  have ha := a.property
  have hfits : isizeMin ≤ a.val.tdiv b.val ∧ a.val.tdiv b.val ≤ isizeMax := by
    simp only [isizeMin, isizeMax] at ha hmin ⊢
    by_cases hunit : b.val.natAbs = 1
    · rcases (show b.val = 1 ∨ b.val = -1 by omega) with hone | hone
      · rw [hone, Int.tdiv_one]
        exact ha
      · rw [hone, Int.tdiv_neg, Int.tdiv_one]
        omega
    · have hhalf : (a.val.tdiv b.val).natAbs ≤ a.val.natAbs / 2 := by
        rw [Int.natAbs_tdiv]
        exact Nat.div_le_div_left (by omega) (by decide)
      omega
  exact ⟨⟨_, hfits⟩, by rw [isizeDiv, if_neg hb, isizeOf_eq hfits], rfl⟩

/-- A value that is not negative is converted to itself. -/
theorem cast_isizeToUsize {a : Isize} (h : 0 ≤ a.val) : (isizeToUsize a : Int) = a.val := by
  have hle : a.val ≤ 9223372036854775807 := a.property.2
  have hlt : a.val < (usizeSize : Int) := by
    have : (usizeSize : Int) = 18446744073709551616 := rfl
    omega
  rw [isizeToUsize, Int.emod_eq_of_lt h hlt, Int.toNat_of_nonneg h]

end CanonC
