import Mathlib.Data.BitVec

/-!
# Bit fields of a word

A field is `count` bits from the bit `start` upwards. It is read right-justified and
written in place, each through a mask of its own.
-/

namespace CanonC

/-- `bits_extract`. -/
def bitsExtract (value : BitVec 64) (start count : Nat) : BitVec 64 :=
  if count = 0 then 0
  else if count ≥ 64 then value >>> start
  else
    let mask := (1#64 <<< count) - 1
    value >>> start &&& mask

/-- `bits_insert`. -/
def bitsInsert (dst src : BitVec 64) (start count : Nat) : BitVec 64 :=
  if count = 0 then dst
  else if count ≥ 64 then src <<< start
  else
    let mask := ((1#64 <<< count) - 1) <<< start
    dst &&& ~~~mask ||| src <<< start &&& mask

private theorem getLsbD_mask {count : Nat} (h : count < 64) (i : Nat) :
    ((1#64 <<< count) - 1).getLsbD i = decide (i < count) := by
  have hlt : 2 ^ count < 2 ^ 64 := Nat.pow_lt_pow_right (by decide) h
  have hone : (1#64 <<< count).toNat = 2 ^ count := by
    rw [BitVec.toNat_shiftLeft, Nat.shiftLeft_eq, show (1#64).toNat = 1 from rfl, Nat.one_mul,
      Nat.mod_eq_of_lt hlt]
  have hmask : ((1#64 <<< count) - 1).toNat = 2 ^ count - 1 := by
    rw [BitVec.toNat_sub_of_le (BitVec.le_def.mpr (hone ▸ Nat.two_pow_pos count)), hone]
    rfl
  rw [← BitVec.testBit_toNat, hmask, Nat.testBit_two_pow_sub_one]

/-- The field that is read, bit by bit. -/
theorem getLsbD_bitsExtract (value : BitVec 64) (start count i : Nat) :
    (bitsExtract value start count).getLsbD i =
      (decide (i < count) && value.getLsbD (start + i)) := by
  rw [bitsExtract]
  split
  · rename_i hz
    rw [hz, decide_eq_false (Nat.not_lt_zero i), Bool.false_and]
    exact BitVec.getLsbD_zero
  · split
    · rename_i hge
      rw [BitVec.getLsbD_ushiftRight]
      by_cases hi : i < count
      · rw [decide_eq_true hi, Bool.true_and]
      · rw [decide_eq_false hi, Bool.false_and]
        exact BitVec.getLsbD_of_ge _ _ (by omega)
    · rename_i hlt
      rw [BitVec.getLsbD_and, BitVec.getLsbD_ushiftRight, getLsbD_mask (Nat.lt_of_not_le hlt),
        Bool.and_comm]

/-- The word with a field written, bit by bit. -/
theorem getLsbD_bitsInsert (dst src : BitVec 64) {start count : Nat} (h : start + count ≤ 64)
    (i : Nat) : (bitsInsert dst src start count).getLsbD i =
      if start ≤ i ∧ i < start + count then src.getLsbD (i - start) else dst.getLsbD i := by
  rw [bitsInsert]
  split
  · rw [if_neg (by omega)]
  · split
    · -- The field is the whole word.
      rename_i hge
      have hstart : start = 0 := by omega
      subst hstart
      rw [BitVec.getLsbD_shiftLeft]
      by_cases hi : i < 64
      · rw [if_pos (by omega), decide_eq_true hi, Bool.true_and, decide_eq_false (by omega),
          Bool.not_false, Bool.true_and]
      · rw [if_neg (by omega), decide_eq_false hi, Bool.false_and, Bool.false_and]
        exact (BitVec.getLsbD_of_ge _ _ (Nat.le_of_not_lt hi)).symm
    · rename_i hlt
      rw [BitVec.getLsbD_or, BitVec.getLsbD_and, BitVec.getLsbD_and, BitVec.getLsbD_not,
        BitVec.getLsbD_shiftLeft, BitVec.getLsbD_shiftLeft, getLsbD_mask (Nat.lt_of_not_le hlt)]
      by_cases hi : i < 64
      · by_cases hs : start ≤ i
        · by_cases he : i < start + count
          · rw [if_pos ⟨hs, he⟩]
            simp [hi, Nat.not_lt.mpr hs, show i - start < count by omega]
          · rw [if_neg (by omega)]
            simp [hi, show ¬i - start < count by omega]
        · rw [if_neg (by omega)]
          simp [hi, Nat.lt_of_not_le hs]
      · rw [if_neg (by omega)]
        simp [hi, BitVec.getLsbD_of_ge dst i (Nat.le_of_not_lt hi)]

/-- A field reads back as written, the rest of the word stays, and writing a field back
changes nothing. -/
theorem bitsInsert_lens (d s : BitVec 64) {start count : Nat}
    (hcount : start + count ≤ 64) :
    (bitsExtract (bitsInsert d s start count) start count).toNat = s.toNat % 2 ^ count ∧
      (∀ i, i < start ∨ start + count ≤ i →
        (bitsInsert d s start count).getLsbD i = d.getLsbD i) ∧
      bitsInsert d (bitsExtract d start count) start count = d := by
  refine ⟨?_, fun i hi => ?_, ?_⟩
  · apply Nat.eq_of_testBit_eq
    intro i
    rw [BitVec.testBit_toNat, getLsbD_bitsExtract, getLsbD_bitsInsert d s hcount,
      Nat.testBit_mod_two_pow, BitVec.testBit_toNat]
    by_cases hi : i < count
    · rw [if_pos (by omega), Nat.add_sub_cancel_left]
    · rw [decide_eq_false hi, Bool.false_and, Bool.false_and]
  · rw [getLsbD_bitsInsert d s hcount, if_neg (by omega)]
  · apply BitVec.eq_of_getLsbD_eq
    intro i _
    rw [getLsbD_bitsInsert _ _ hcount]
    split
    · rename_i hin
      rw [getLsbD_bitsExtract, decide_eq_true (by omega), Bool.true_and,
        Nat.add_sub_cancel' hin.1]
    · rfl

/-- A field of four bits in a word of eight. -/
theorem bitsInsert_lens_nibble :
    (bitsExtract (bitsInsert 0xF0#64 0x15#64 2 4) 2 4).toNat = 0x15 % 2 ^ 4 ∧
      (∀ i, i < 2 ∨ 6 ≤ i →
        (bitsInsert 0xF0#64 0x15#64 2 4).getLsbD i = (0xF0#64).getLsbD i) ∧
      bitsInsert 0xF0#64 (bitsExtract 0xF0#64 2 4) 2 4 = 0xF0#64 :=
  bitsInsert_lens 0xF0#64 0x15#64 (by decide)

end CanonC
