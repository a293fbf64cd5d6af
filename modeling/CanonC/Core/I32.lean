import CanonC.Core.Isize

/-!
# Signed 32-bit integers

The values of `i32` are the integers from `-2 ^ 31` to `2 ^ 31 - 1`. As for `isize`, an
operation whose integer result is not among them is a fault.
-/

namespace CanonC

/-- `INT32_MIN`. -/
def i32Min : Int := -2147483648

/-- `INT32_MAX`. -/
def i32Max : Int := 2147483647

/-- The values of type `i32`. -/
abbrev I32 : Type := {i : Int // i32Min ≤ i ∧ i ≤ i32Max}

/-- Signed addition. -/
def i32Add (a b : I32) : Except String I32 :=
  if h : i32Min ≤ a.val + b.val ∧ a.val + b.val ≤ i32Max then .ok ⟨a.val + b.val, h⟩
  else .error signedOverflow

/-- The conversion `(i32)` of an unsigned value, which keeps its bits. -/
def i32OfU32 (value : BitVec 32) : I32 :=
  ⟨value.toInt, BitVec.le_toInt value, Int.le_of_lt_add_one BitVec.toInt_lt⟩

/-- A value with the topmost bit clear is converted to itself. -/
theorem i32OfU32_of_lt {value : BitVec 32} (h : value.toNat < 2 ^ 31) :
    (i32OfU32 value).val = value.toNat :=
  BitVec.toInt_eq_toNat_of_lt (by omega)

end CanonC
