import CanonC.Data.Bitset.Model
import Mathlib.Tactic.Common

/-!
# Each operation at one position

Position `i` is bit `i % 64` of word `i / 64`. For every operation on the words there
is one equation for the bit it leaves at a position of the word array; what the
operation does to the set and to the padding is read off these equations.
-/

namespace CanonC

namespace Bitset

variable {bs other : Bitset} {i j : Nat}

/-- The bit at a position of the word array. -/
def bit (bs : Bitset) (i : Nat) : Bool := (bs.words (i / 64)).getLsbD (i % 64)

/-- Bits at indices `[capacity, word_count * 64)` are zero. -/
def Padded (bs : Bitset) : Prop :=
  ∀ i, bs.capacity ≤ i → i < 64 * bs.wordCount → bs.bit i = false

/-- The words are as many as the capacity takes. -/
theorem wordCount_eq_div (bs : Bitset) : bs.wordCount = (bs.capacity + 63) / 64 := by
  have hle := bs.capacity_le
  rw [bs.wordCount_eq, bitsetWordCount]
  have hw : usizeSub (usizeAdd bs.capacity 64) 1 = bs.capacity + 63 := by
    unfold usizeMax usizeSize at hle
    unfold usizeSub usizeAdd usizeSize
    omega
  rw [hw]

/-- The capacity lies in the last word. -/
theorem capacity_bounds (bs : Bitset) :
    bs.capacity ≤ 64 * bs.wordCount ∧ 64 * bs.wordCount < bs.capacity + 64 ∧
      0 < bs.wordCount := by
  have hw := bs.wordCount_eq_div
  have hp := bs.capacity_pos
  omega

/-- An offset is one in a word. -/
theorem mod_word_lt (i : Nat) : i % 64 < 64 := Nat.mod_lt i (by decide)

/-- The bit at an offset into a word of an array. -/
theorem getLsbD_offset (f : Nat → BitVec 64) (w : Nat) {k : Nat} (hk : k < 64) :
    (f ((64 * w + k) / 64)).getLsbD ((64 * w + k) % 64) = (f w).getLsbD k := by
  rw [Nat.mul_add_div (by decide), Nat.div_eq_of_lt hk, Nat.add_zero, Nat.mul_add_mod,
    Nat.mod_eq_of_lt hk]

/-- The bit at a word and an offset. -/
theorem bit_offset (bs : Bitset) (w : Nat) {k : Nat} (hk : k < 64) :
    bs.bit (64 * w + k) = (bs.words w).getLsbD k :=
  getLsbD_offset bs.words w hk

/-- Word arrays with the same bits are the same. -/
theorem words_ext (h : ∀ i, bs.bit i = other.bit i) : bs.words = other.words := by
  funext w
  apply BitVec.eq_of_getLsbD_eq
  intro k hk
  have hi := h (64 * w + k)
  rwa [bs.bit_offset w hk, other.bit_offset w hk] at hi

/-- The mask of an index has the one bit at its offset. -/
theorem getLsbD_maskOf (i j : Nat) :
    (bitsetMaskOf i).getLsbD (j % 64) = decide (i % 64 = j % 64) := by
  have hj : j % 64 < 64 := mod_word_lt _
  rw [bitsetMaskOf, BitVec.getLsbD_shiftLeft, BitVec.getLsbD_one, Bool.eq_iff_iff]
  simp only [hj, decide_true, Bool.true_and, Bool.and_eq_true, Bool.not_eq_true',
    decide_eq_false_iff_not, decide_eq_true_eq]
  omega

/-- The mask of `bitset_clear` keeps every other bit. -/
theorem getLsbD_and_not (x m : BitVec 64) (k : Nat) (hk : k < 64) :
    (x &&& ~~~m).getLsbD k = (x.getLsbD k && !m.getLsbD k) := by
  rw [BitVec.getLsbD_and, BitVec.getLsbD_not, decide_eq_true hk, Bool.true_and]

/-- A single-bit call succeeds exactly on an index below the capacity. -/
theorem modify_eq_ok {msg : String} {f : BitVec 64 → BitVec 64 → BitVec 64} {bs' : Bitset} :
    bitsetModify msg f bs i = .ok bs' ↔ i < bs.capacity ∧
      bs' = { bs with
        words := Function.update bs.words (bitsetWordOf i)
          (f (bs.words (bitsetWordOf i)) (bitsetMaskOf i)) } := by
  by_cases hi : i < bs.capacity
  · simp [bitsetModify, hi, eq_comm]
  · simp [bitsetModify, hi]

/-- A single-bit call combines the bit at its index with one and every other with zero. -/
theorem bit_modify {msg : String} {f : BitVec 64 → BitVec 64 → BitVec 64} {g : Bool → Bool → Bool}
    (hf : ∀ x m : BitVec 64, ∀ k < 64, (f x m).getLsbD k = g (x.getLsbD k) (m.getLsbD k))
    (hg : ∀ b, g b false = b) {bs' : Bitset} (h : bitsetModify msg f bs i = .ok bs') :
    bs'.bit j = g (bs.bit j) (decide (j = i)) := by
  obtain ⟨-, rfl⟩ := modify_eq_ok.mp h
  have hj : j % 64 < 64 := mod_word_lt _
  simp only [bit, bitsetWordOf]
  by_cases hw : j / 64 = i / 64
  · rw [hw, Function.update_self, hf _ _ _ hj, getLsbD_maskOf, decide_eq_decide.mpr]
    omega
  · rw [Function.update_of_ne hw, decide_eq_false (by rintro rfl; exact hw rfl), hg]

/-- Clearing the padding leaves the capacity. -/
@[simp] theorem capacity_clearPadding : (bitsetClearPadding bs).capacity = bs.capacity := by
  simp only [bitsetClearPadding]
  split <;> rfl

/-- Clearing the padding leaves the number of words. -/
@[simp] theorem wordCount_clearPadding : (bitsetClearPadding bs).wordCount = bs.wordCount := by
  simp only [bitsetClearPadding]
  split <;> rfl

private theorem getLsbD_lowMask {r k : Nat} (hr : r < 64) :
    (1#64 <<< r - 1#64).getLsbD k = decide (k < r) := by
  have hlt : 2 ^ r < 2 ^ 64 := Nat.pow_lt_pow_right (by decide) hr
  have hshift : (1#64 <<< r).toNat = 2 ^ r := by
    rw [BitVec.toNat_shiftLeft, Nat.shiftLeft_eq, BitVec.toNat_ofNat]
    omega
  have hmask : (1#64 <<< r - 1#64).toNat = 2 ^ r - 1 := by
    rw [BitVec.toNat_sub_of_le, hshift]
    · rfl
    · rw [BitVec.le_def, hshift]
      exact Nat.one_le_two_pow
  rw [← BitVec.testBit_toNat, hmask, Nat.testBit_two_pow_sub_one]

/-- Clearing the padding keeps the bits below the capacity. -/
theorem bit_clearPadding (hi : i < 64 * bs.wordCount) :
    (bitsetClearPadding bs).bit i = (bs.bit i && decide (i < bs.capacity)) := by
  have hw := bs.wordCount_eq_div
  have hr : bs.capacity % 64 < 64 := mod_word_lt _
  simp only [bitsetClearPadding, bne_iff_ne]
  split
  · rename_i hrem
    simp only [bit]
    by_cases hlast : i / 64 = bs.wordCount - 1
    · rw [← hlast, Function.update_self, BitVec.getLsbD_and, getLsbD_lowMask hr,
        decide_eq_decide.mpr]
      omega
    · rw [Function.update_of_ne hlast, decide_eq_true (by omega), Bool.and_true]
  · rw [decide_eq_true (by omega), Bool.and_true]

/-- Clearing the padding leaves a padded bitset. -/
theorem padded_clearPadding (bs : Bitset) : (bitsetClearPadding bs).Padded := by
  intro i hi hlt
  rw [capacity_clearPadding] at hi
  rw [wordCount_clearPadding] at hlt
  rw [bit_clearPadding hlt, decide_eq_false (by omega), Bool.and_false]

/-- Clearing the padding does not touch what lies past the word array. -/
theorem bit_clearPadding_past (hi : 64 * bs.wordCount ≤ i) :
    (bitsetClearPadding bs).bit i = bs.bit i := by
  have hpos := bs.capacity_bounds.2.2
  simp only [bitsetClearPadding]
  split
  · simp only [bit]
    rw [Function.update_of_ne (by omega)]
  · rfl

/-- Filling the word array with a word of equal bits. -/
theorem bit_fill {word : BitVec 64} {b : Bool} (hword : ∀ k < 64, word.getLsbD k = b)
    (hi : i < 64 * bs.wordCount) :
    ({ bs with words := bitsetFill bs.words bs.wordCount word } : Bitset).bit i = b := by
  simp only [bit, bitsetFill]
  rw [if_pos (by omega), hword _ (mod_word_lt _)]

/-- The binary loop combines the bits of the words both operands have. -/
theorem bit_zip {f : BitVec 64 → BitVec 64 → BitVec 64} {g : Bool → Bool → Bool}
    (hf : ∀ x y : BitVec 64, ∀ k < 64, (f x y).getLsbD k = g (x.getLsbD k) (y.getLsbD k)) :
    (bitsetZip f bs other).bit i =
      if i < 64 * bs.wordCount ∧ i < 64 * other.wordCount then g (bs.bit i) (other.bit i)
      else bs.bit i := by
  simp only [bit, bitsetZip]
  by_cases hi : i < 64 * bs.wordCount ∧ i < 64 * other.wordCount
  · rw [if_pos hi, if_pos (by split <;> omega), hf _ _ _ (mod_word_lt _)]
  · rw [if_neg hi, if_neg (by split <;> omega)]

/-- Conjunction at a position of the word array, the bits that `other` lacks being zero. -/
theorem bit_and (hi : i < 64 * bs.wordCount) :
    (bitsetAnd bs other).bit i =
      (bs.bit i && (decide (i < 64 * other.wordCount) && other.bit i)) := by
  simp only [bitsetAnd, bit, bitsetZip]
  by_cases ho : i < 64 * other.wordCount
  · rw [if_neg (by split <;> omega), if_pos (by split <;> omega), BitVec.getLsbD_and,
      decide_eq_true ho, Bool.true_and]
  · rw [if_pos (by split <;> omega), decide_eq_false ho, Bool.false_and, Bool.and_false]
    exact BitVec.getLsbD_zero

/-- Disjunction at any position. -/
theorem bit_or :
    (bitsetOr bs other).bit i =
      if i < 64 * bs.wordCount ∧ i < 64 * other.wordCount then bs.bit i || other.bit i
      else bs.bit i :=
  bit_zip fun _ _ _ _ => BitVec.getLsbD_or

/-- Symmetric difference at a position of the word array. -/
theorem bit_xor (hi : i < 64 * bs.wordCount) :
    (bitsetXor bs other).bit i =
      ((if i < 64 * other.wordCount then bs.bit i ^^ other.bit i else bs.bit i) &&
        decide (i < bs.capacity)) := by
  refine (bit_clearPadding ?_).trans ?_
  · exact hi
  rw [bit_zip fun _ _ _ _ => BitVec.getLsbD_xor]
  simp only [hi, true_and]
  rfl

/-- Complement at any position. -/
theorem bit_not :
    (bitsetNot bs).bit i =
      if i < 64 * bs.wordCount then !bs.bit i && decide (i < bs.capacity) else bs.bit i := by
  split
  · rename_i hi
    refine (bit_clearPadding ?_).trans ?_
    · exact hi
    simp only [bit]
    rw [if_pos (by omega), BitVec.getLsbD_not, decide_eq_true (mod_word_lt _),
      Bool.true_and]
  · rename_i hi
    refine (bit_clearPadding_past ?_).trans ?_
    · exact Nat.le_of_not_lt hi
    simp only [bit]
    rw [if_neg (by omega)]

end Bitset

end CanonC
