import CanonC.Core.Isize
import Mathlib.Tactic.Ring

/-!
# Integer types and the conversions between them

An integer type is its width and its signedness. A conversion takes the one value of the type
that is congruent modulo two to the power of the width.
-/

namespace CanonC

/-- An integer type; a signed one has a bit besides its sign. -/
structure IntType where
  /-- Number of bits. -/
  width : Nat
  /-- The type has negative values. -/
  isSigned : Bool
  /-- There is a bit for the value one. -/
  width_pos : (if isSigned then 1 else 0) < width

namespace IntType

variable {t : IntType} {i : Int}

/-- The type `isize`. -/
def isize : IntType := ⟨64, true, by decide⟩

/-- The least value of the type. -/
def least (t : IntType) : Int := if t.isSigned then -2 ^ (t.width - 1) else 0

/-- The type has the value. -/
def Represents (t : IntType) (i : Int) : Prop := t.least ≤ i ∧ i < t.least + 2 ^ t.width

instance (t : IntType) (i : Int) : Decidable (t.Represents i) :=
  inferInstanceAs (Decidable (_ ∧ _))

/-- The conversion to the type. -/
def convert (t : IntType) (i : Int) : Int := t.least + (i - t.least) % 2 ^ t.width

/-- A conversion gives a value of the type. -/
theorem represents_convert (t : IntType) (i : Int) : t.Represents (t.convert i) := by
  have hpos : (0 : Int) < 2 ^ t.width := Int.pow_pos (by decide)
  have hnonneg := Int.emod_nonneg (i - t.least) hpos.ne'
  have hlt := Int.emod_lt_of_pos (i - t.least) hpos
  unfold Represents convert
  omega

/-- A value of the type is converted to itself. -/
theorem convert_eq (h : t.Represents i) : t.convert i = i := by
  unfold Represents at h
  rw [convert, Int.emod_eq_of_lt (by omega) (by omega)]
  ring

/-- A type has zero and one, and with a value below zero it has as many values from zero up. -/
theorem least_spec (t : IntType) : t.least ≤ 0 ∧ 2 ≤ t.least + 2 ^ t.width ∧
    (t.least < 0 → t.least + 2 ^ t.width = -t.least) := by
  have hwidth := t.width_pos
  cases hsigned : t.isSigned with
  | true =>
    rw [hsigned] at hwidth
    obtain ⟨n, hn⟩ : ∃ n, t.width = n + 2 := ⟨t.width - 2, by simp at hwidth; omega⟩
    have hpos : (0 : Int) < 2 ^ n := Int.pow_pos (by decide)
    have hleast : t.least = -(2 * 2 ^ n) := by
      rw [least, if_pos hsigned, hn, Nat.add_succ_sub_one, pow_succ]
      ring
    have htop : (2 : Int) ^ t.width = 4 * 2 ^ n := by
      rw [hn, pow_add]
      ring
    omega
  | false =>
    rw [hsigned] at hwidth
    obtain ⟨n, hn⟩ : ∃ n, t.width = n + 1 := ⟨t.width - 1, by simp at hwidth; omega⟩
    have hpos : (0 : Int) < 2 ^ n := Int.pow_pos (by decide)
    have hleast : t.least = 0 := by rw [least, hsigned]; rfl
    have htop : (2 : Int) ^ t.width = 2 * 2 ^ n := by
      rw [hn, pow_succ]
      ring
    omega

/-- The type has every `isize`. -/
theorem isize_represents (a : Isize) : isize.Represents a.val := by
  have ha := a.property
  simp only [isizeMin, isizeMax] at ha
  change -2 ^ 63 ≤ a.val ∧ a.val < -2 ^ 63 + 2 ^ 64
  omega

/-- A value that is converted to the type and back, and whose sign the conversion keeps, is a
value of the type, and no other is. -/
theorem represents_iff_convert (t : IntType) (a : Isize) : t.Represents a.val ↔
    isize.convert (t.convert a.val) = a.val ∧ ¬(a.val < 0 ∧ ¬t.convert a.val < t.convert 1) := by
  obtain ⟨hzero, hone, hsym⟩ := t.least_spec
  have hconvertOne : t.convert 1 = 1 := convert_eq ⟨by omega, by omega⟩
  have ha := isize_represents a
  rw [hconvertOne]
  constructor
  · intro h
    rw [convert_eq h]
    exact ⟨convert_eq ha, by omega⟩
  · rintro ⟨hback, hsign⟩
    have hconvert := t.represents_convert a.val
    by_cases hin : isize.Represents (t.convert a.val)
    · rw [convert_eq hin] at hback
      rwa [hback] at hconvert
    · -- The type reaches past the end of `isize` on the side of the sign.
      unfold Represents at hconvert hin ha ⊢
      obtain ⟨-, -, hsize⟩ := isize.least_spec
      have hleast : isize.least < 0 := by decide
      have htop := hsize hleast
      by_cases hneg : a.val < 0
      · omega
      · omega

end IntType

end CanonC
