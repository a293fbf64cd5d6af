import Mathlib.Data.BitVec
import Mathlib.Data.List.TakeWhile

/-!
# The first set bit by binary search

The bits of a word are counted from one of its ends. A search keeps how many bits it has
passed and the word shifted past them; each round asks whether the first half of what is
left has a set bit and passes over it when it has none.
-/

namespace Toolkit

variable {n : Nat} {bit : BitVec n → Nat → Bool} {shift : BitVec n → Nat → BitVec n}

/-- The bits of a word counted from one end, with the shift towards that end. -/
structure FromEnd (bit : BitVec n → Nat → Bool) (shift : BitVec n → Nat → BitVec n) : Prop where
  /-- No bit is set past the other end. -/
  past : ∀ x i, n ≤ i → bit x i = false
  /-- The bits determine the word. -/
  ext : ∀ x y, (∀ i < n, bit x i = bit y i) → x = y
  /-- Zero has no set bit. -/
  zero : ∀ i, bit 0 i = false
  /-- Conjunction is taken bit by bit. -/
  and : ∀ x y i, bit (x &&& y) i = (bit x i && bit y i)
  /-- The shift drops the first bits. -/
  shift : ∀ x k i, bit (shift x k) i = bit x (k + i)

/-- Bits are counted from the low end and shifted out to the right. -/
theorem fromLow : FromEnd (n := n) BitVec.getLsbD (fun x k => x >>> k) where
  past x i h := BitVec.getLsbD_of_ge x i h
  ext _ _ h := BitVec.eq_of_getLsbD_eq h
  zero _ := BitVec.getLsbD_zero
  and _ _ _ := BitVec.getLsbD_and
  shift x k i := BitVec.getLsbD_ushiftRight x k i

/-- Bits are counted from the high end and shifted out to the left. -/
theorem fromHigh : FromEnd (n := n) BitVec.getMsbD (fun x k => x <<< k) where
  past x i h := BitVec.getMsbD_of_ge x i h
  ext _ _ h := BitVec.eq_of_getMsbD_eq h
  zero _ := BitVec.getMsbD_zero
  and _ _ _ := BitVec.getMsbD_and
  shift x k i := by
    rw [BitVec.getMsbD_shiftLeft, Nat.add_comm]

/-- The number of bits before the first set one, which is the width when none is set. -/
def zerosBefore (bit : BitVec n → Nat → Bool) (x : BitVec n) : Nat :=
  ((List.range n).takeWhile fun i => !bit x i).length

/-- The word zero has only zeros. -/
theorem FromEnd.zerosBefore_zero (h : FromEnd bit shift) : zerosBefore bit 0 = n := by
  rw [zerosBefore, List.takeWhile_eq_self_iff.mpr fun i _ => by rw [h.zero, Bool.not_false],
    List.length_range]

/-- A set bit with none before it ends the count. -/
theorem FromEnd.zerosBefore_eq (h : FromEnd bit shift) {x : BitVec n} {k : Nat}
    (hset : bit x k = true) (hclear : ∀ i < k, bit x i = false) : zerosBefore bit x = k := by
  have hk : k < n := by
    by_contra hge
    rw [h.past x k (Nat.le_of_not_lt hge)] at hset
    cases hset
  have hsplit : List.range n = List.range k ++ k :: List.range' (k + 1) (n - (k + 1)) := by
    have happend := @List.range'_append_1 0 k (n - k)
    rw [Nat.zero_add, Nat.add_sub_cancel' hk.le] at happend
    rw [← List.range'_succ, show n - (k + 1) + 1 = n - k by omega, List.range_eq_range',
      List.range_eq_range', happend]
  rw [zerosBefore, hsplit, List.takeWhile_append_of_pos, List.takeWhile_cons_of_neg,
    List.append_nil, List.length_range]
  · rw [hset, Bool.not_true]
    exact Bool.false_ne_true
  · intro i hi
    rw [hclear i (List.mem_range.mp hi), Bool.not_false]

/-- Pass over the bits under the mask when none of them is set. -/
def halve (shift : BitVec n → Nat → BitVec n) (mask : BitVec n) (k : Nat) (s : Nat × BitVec n) :
    Nat × BitVec n :=
  if s.2 &&& mask = 0 then (s.1 + k, shift s.2 k) else s

/-- The state of a search for the first set bit, which is one of the next `width`. -/
structure Search (bit : BitVec n → Nat → Bool) (value : BitVec n) (width : Nat)
    (s : Nat × BitVec n) : Prop where
  /-- The word is the value without the bits that were passed. -/
  shifted : ∀ i, bit s.2 i = bit value (s.1 + i)
  /-- No bit that was passed is set. -/
  passed : ∀ i < s.1, bit value i = false
  /-- A set bit is near. -/
  near : ∃ i < width, bit s.2 i = true

/-- A word that is not zero is searched from its end. -/
theorem FromEnd.search (h : FromEnd bit shift) {value : BitVec n} (hne : value ≠ 0) :
    Search bit value n (0, value) where
  shifted i := by rw [Nat.zero_add]
  passed i hi := absurd hi (Nat.not_lt_zero i)
  near := by
    by_contra hnone
    refine hne (h.ext value 0 fun i hi => ?_)
    rw [h.zero, ← Bool.not_eq_true]
    exact fun hbit => hnone ⟨i, hi, hbit⟩

/-- Nothing is left under a mask of the first `k` bits when these are zero. -/
theorem FromEnd.and_mask_eq_zero (h : FromEnd bit shift) {mask : BitVec n} {k : Nat}
    (hmask : ∀ i < n, bit mask i = decide (i < k)) (x : BitVec n) :
    x &&& mask = 0 ↔ ∀ i < k, bit x i = false := by
  constructor
  · intro hzero i hi
    by_cases hin : i < n
    · have hbit := h.and x mask i
      rw [hzero, h.zero, hmask i hin, decide_eq_true hi, Bool.and_true] at hbit
      exact hbit.symm
    · exact h.past x i (Nat.le_of_not_lt hin)
  · intro hfirst
    refine h.ext _ _ fun i hi => ?_
    rw [h.and, hmask i hi, h.zero]
    by_cases hik : i < k
    · rw [hfirst i hik, Bool.false_and]
    · rw [decide_eq_false hik, Bool.and_false]

/-- A round halves the distance within which the first set bit lies. -/
theorem FromEnd.halve (h : FromEnd bit shift) (mask : BitVec n) (k : Nat)
    (hmask : ∀ i < n, bit mask i = decide (i < k)) {value : BitVec n} {s : Nat × BitVec n}
    (hs : Search bit value (k + k) s) : Search bit value k (halve shift mask k s) := by
  rw [Toolkit.halve]
  obtain ⟨j, hj, hbit⟩ := hs.near
  split
  · rename_i hzero
    rw [h.and_mask_eq_zero hmask] at hzero
    have hle : k ≤ j := by
      by_contra hlt
      rw [hzero j (Nat.lt_of_not_le hlt)] at hbit
      cases hbit
    refine ⟨fun i => ?_, fun i hi => ?_, j - k, by omega, ?_⟩
    · rw [h.shift, hs.shifted, Nat.add_assoc]
    · by_cases hlt : i < s.1
      · exact hs.passed i hlt
      · have hi' : i < s.1 + k := hi
        have hshift := hs.shifted (i - s.1)
        rwa [hzero _ (by omega), Nat.add_sub_cancel' (Nat.le_of_not_lt hlt), eq_comm] at hshift
    · rw [h.shift, Nat.add_sub_cancel' hle, hbit]
  · rename_i hne
    rw [h.and_mask_eq_zero hmask] at hne
    push Not at hne
    obtain ⟨i, hi, hset⟩ := hne
    exact ⟨hs.shifted, hs.passed, i, hi, Bool.not_eq_false _ ▸ hset⟩

/-- A search that has closed has passed exactly the bits before the first set one. -/
theorem Search.done {value : BitVec n} {s : Nat × BitVec n} (hs : Search bit value 1 s) :
    bit value s.1 = true ∧ ∀ i < s.1, bit value i = false := by
  obtain ⟨i, hi, hbit⟩ := hs.near
  obtain rfl : i = 0 := Nat.lt_one_iff.mp hi
  exact ⟨(hs.shifted 0).symm.trans hbit, hs.passed⟩

end Toolkit
