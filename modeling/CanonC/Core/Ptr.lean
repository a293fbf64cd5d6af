import CanonC.Core.Types
import CanonC.Toolkit.Cyclic
import CanonC.Toolkit.Rounding
import Mathlib.Data.Nat.ModEq

/-!
# Addresses and alignment

An address is a `usize` and NULL is zero. The padding that takes an address to the next
multiple of a power of two is computed without a bound on the address.
-/

namespace CanonC

/-- `is_power_of_two`. -/
def isPowerOfTwo (n : Nat) : Bool := 0 < n && n &&& (n - 1) == 0

/-- `align_padding`. -/
def alignPadding (n align : Nat) : Nat := usizeSub 0 n &&& (align - 1)

/-- `ptr_align_padding`. -/
def ptrAlignPadding (p align : Nat) : Nat := if p = 0 then 0 else alignPadding p align

/-- `ptr_offset`. -/
def ptrOffset (p n : Nat) : Except String Nat :=
  if p = 0 then .ok 0
  else do
    requireMsg (p ≤ usizeSub usizeMax n) "ptr_offset: offset would overflow address space"
    .ok (usizeAdd p n)

/-- `align_up`. -/
def alignUp (n align : Nat) : Except String Nat := do
  requireMsg (isPowerOfTwo align) "align_up: align must be a nonzero power of two"
  .ok (usizeSub (usizeAdd n align) 1 &&& (usizeMax ^^^ (align - 1)))

/-- `align_down`. -/
def alignDown (n align : Nat) : Except String Nat := do
  requireMsg (isPowerOfTwo align) "align_down: align must be a nonzero power of two"
  .ok (n &&& (usizeMax ^^^ (align - 1)))

/-- `ptr_elem`. -/
def ptrElem (base index elemSize : Nat) : Except String Nat := do
  requireMsg (base ≠ 0) "ptr_elem: base cannot be NULL"
  requireMsg (0 < elemSize) "ptr_elem: elem_size must be > 0"
  requireMsg (index ≤ usizeMax / elemSize) "ptr_elem: index * elem_size overflows usize"
  ptrOffset base (usizeMul index elemSize)

/-- `CANON_DEFAULT_ALIGN`. -/
def defaultAlign : Nat := 16

/-- `mem_align`. -/
def memAlign (size : Nat) : Except String Nat :=
  if size = 0 then .ok 0
  else if size > usizeMax - (defaultAlign - 1) then .ok usizeMax
  else alignUp size defaultAlign

/-- `mem_align_to`. -/
def memAlignTo (size alignment : Nat) : Except String Nat := do
  requireMsg (0 < alignment) "mem_align_to: alignment must be > 0"
  requireMsg (isPowerOfTwo alignment) "mem_align_to: alignment must be a power of 2"
  if size = 0 then .ok 0
  else if size > usizeMax - (alignment - 1) then .ok usizeMax
  else alignUp size alignment

/-- The test of one bit finds the powers of two. -/
theorem isPowerOfTwo_iff {n : Nat} : isPowerOfTwo n = true ↔ n.isPowerOfTwo := by
  rw [← Nat.ne_zero_and_sub_one_eq_zero_iff_isPowerOfTwo]
  simp [isPowerOfTwo, Nat.pos_iff_ne_zero]

/-- A power of two is positive. -/
theorem pos_of_isPowerOfTwo {n : Nat} (h : isPowerOfTwo n = true) : 0 < n :=
  Nat.pos_of_isPowerOfTwo (isPowerOfTwo_iff.mp h)

/-- The bytes that are missing to the next multiple, over the integers. -/
def padding (n align : Nat) : Nat := (align - n % align) % align

/-- The padding is less than the alignment. -/
theorem padding_lt {n align : Nat} (h : 0 < align) : padding n align < align := Nat.mod_lt _ h

/-- The padding leads to a multiple of the alignment. -/
theorem dvd_add_padding (n : Nat) {align : Nat} (h : 0 < align) : align ∣ n + padding n align := by
  have hlt := Nat.mod_lt n h
  have hsum : n % align + (align - n % align) = align := by omega
  apply Nat.dvd_of_mod_eq_zero
  rw [padding, Nat.add_mod_mod, ← Nat.mod_add_mod, hsum, Nat.mod_self]

/-- No smaller padding leads to a multiple. -/
theorem padding_le {n align k : Nat} (h : 0 < align) (hdvd : align ∣ n + k) :
    padding n align ≤ k := by
  have hmod : n + padding n align ≡ n + k [MOD align] := by
    rw [Nat.ModEq, Nat.mod_eq_zero_of_dvd (dvd_add_padding n h), Nat.mod_eq_zero_of_dvd hdvd]
  have hk := Nat.ModEq.add_left_cancel' n hmod
  rw [Nat.ModEq, Nat.mod_eq_of_lt (padding_lt h)] at hk
  rw [hk]
  exact Nat.mod_le k align

/-- An alignment divides the number of words. -/
theorem dvd_usizeSize {align : Nat} (ha : isPowerOfTwo align = true) (hlt : align < usizeSize) :
    align ∣ usizeSize := by
  obtain ⟨k, rfl⟩ := isPowerOfTwo_iff.mp ha
  have hk : k < 64 := (Nat.pow_lt_pow_iff_right (by decide)).mp hlt
  exact Nat.pow_dvd_pow 2 (Nat.le_of_lt hk)

/-- The wrapped computation gives the exact padding. -/
theorem alignPadding_eq {n align : Nat} (ha : isPowerOfTwo align = true) (hlt : align < usizeSize)
    (hn : n < usizeSize) : alignPadding n align = padding n align := by
  have hpos := pos_of_isPowerOfTwo ha
  have hdvd := dvd_usizeSize ha hlt
  rw [alignPadding, Toolkit.Cyclic.and_pred_eq_mod (isPowerOfTwo_iff.mp ha), usizeSub, Nat.zero_add,
    Nat.mod_mod_of_dvd _ hdvd, ← Nat.mod_eq_of_lt (padding_lt hpos)]
  -- Both numbers lead from `n` to a multiple of the alignment.
  apply Nat.ModEq.add_left_cancel' n
  have hsum : n + (usizeSize - n) = usizeSize := by omega
  rw [Nat.ModEq, hsum, Nat.mod_eq_zero_of_dvd hdvd,
    Nat.mod_eq_zero_of_dvd (dvd_add_padding n hpos)]

private theorem and_not_eq {n align : Nat} (ha : isPowerOfTwo align = true)
    (hlt : align < usizeSize) (hn : n < usizeSize) :
    n &&& (usizeMax ^^^ (align - 1)) = align * (n / align) := by
  obtain ⟨k, rfl⟩ := isPowerOfTwo_iff.mp ha
  have hk : k < 64 := (Nat.pow_lt_pow_iff_right (by decide)).mp hlt
  have hmax : usizeMax = 2 ^ 64 - 1 := rfl
  apply Nat.eq_of_testBit_eq
  intro i
  rw [Nat.testBit_and, Nat.testBit_xor, hmax, Nat.testBit_two_pow_sub_one,
    Nat.testBit_two_pow_sub_one, Nat.mul_comm, Nat.testBit_mul_two_pow]
  by_cases hi : k ≤ i
  · have hlow : ¬ i < k := by omega
    rw [Nat.testBit_div_two_pow, Nat.sub_add_cancel hi]
    by_cases hword : i < 64
    · simp [hi, hlow, hword]
    · have hzero : n.testBit i = false :=
        Nat.testBit_lt_two_pow (Nat.lt_of_lt_of_le hn (Nat.pow_le_pow_right (by decide) (by omega)))
      simp [hzero]
  · have hlow : i < k := by omega
    have hword : i < 64 := by omega
    simp [hi, hlow, hword]

/-- The padding leads to the least multiple from the number on. -/
theorem isLeast_add_padding (n : Nat) {align : Nat} (h : 0 < align) :
    IsLeast {m | align ∣ m ∧ n ≤ m} (n + padding n align) := by
  refine ⟨⟨dvd_add_padding n h, Nat.le_add_right _ _⟩, ?_⟩
  rintro m ⟨hdvd, hle⟩
  have hk := padding_le (k := m - n) h (by rwa [Nat.add_sub_cancel' hle])
  omega

/-- A multiple needs no padding. -/
theorem padding_of_dvd {n align : Nat} (h : align ∣ n) : padding n align = 0 := by
  rw [padding, Nat.mod_eq_zero_of_dvd h, Nat.sub_zero, Nat.mod_self]

/-- The wrapped computation rounds up, modulo the number of words. -/
theorem alignUp_eq_mod {n align : Nat} (ha : isPowerOfTwo align = true) (hlt : align < usizeSize) :
    alignUp n align = .ok ((n + padding n align) % usizeSize) := by
  have hpos := pos_of_isPowerOfTwo ha
  have hdvd : align ∣ usizeSize := dvd_usizeSize ha hlt
  have hsum : usizeSub (usizeAdd n align) 1 = (n + align - 1) % usizeSize := by
    have hwrap : n + align + (usizeSize - 1) = n + align - 1 + usizeSize := by
      have hone : 0 < usizeSize := by decide
      omega
    rw [usizeSub, usizeAdd, Nat.mod_add_mod, hwrap, Nat.add_mod_right]
  have hround : n + padding n align = align * ((n + align - 1) / align) :=
    (isLeast_add_padding n hpos).unique (Toolkit.Rounding.isLeast_mul_ceilDiv n hpos)
  rw [alignUp, ha, requireMsg_true, ok_bind, hsum, and_not_eq ha hlt (Nat.mod_lt _ (by decide)),
    Toolkit.Rounding.mul_mod_div hdvd, hround]

/-- Some multiple from a number on is a word, unless the number is near the limit. -/
theorem exists_multiple_iff {n align : Nat} (ha : isPowerOfTwo align = true)
    (hlt : align < usizeSize) :
    (∃ m < usizeSize, align ∣ m ∧ n ≤ m) ↔ n ≤ usizeMax - (align - 1) := by
  have hpos := pos_of_isPowerOfTwo ha
  have hmax := usizeMax_succ
  rw [Toolkit.Rounding.exists_multiple_lt_iff hpos (dvd_usizeSize ha hlt)]
  omega

/-- The next multiple is a word when the number is not near the limit. -/
theorem add_padding_lt {n align : Nat} (ha : isPowerOfTwo align = true) (hlt : align < usizeSize)
    (hle : n ≤ usizeMax - (align - 1)) : n + padding n align < usizeSize := by
  have hpos := pos_of_isPowerOfTwo ha
  obtain ⟨m, hm, hdvd, hnm⟩ := (exists_multiple_iff ha hlt).mpr hle
  have hleast : n + padding n align ≤ m := (isLeast_add_padding n hpos).2 ⟨hdvd, hnm⟩
  exact Nat.lt_of_le_of_lt hleast hm

/-- A number that is not near the limit is rounded up by its padding. -/
theorem alignUp_eq {n align : Nat} (ha : isPowerOfTwo align = true) (hlt : align < usizeSize)
    (hle : n ≤ usizeMax - (align - 1)) : alignUp n align = .ok (n + padding n align) := by
  rw [alignUp_eq_mod ha hlt, Nat.mod_eq_of_lt (add_padding_lt ha hlt hle)]

/-- Clearing the low bits rounds down, without a bound on the number. -/
theorem alignDown_eq {n align : Nat} (ha : isPowerOfTwo align = true) (hlt : align < usizeSize)
    (hn : n < usizeSize) : alignDown n align = .ok (align * (n / align)) := by
  rw [alignDown, ha, requireMsg_true, ok_bind, and_not_eq ha hlt hn]

/-- A size is rounded up by its padding, or saturates near the limit. -/
theorem memAlignTo_eq {size alignment : Nat} (ha : isPowerOfTwo alignment = true)
    (hlt : alignment < usizeSize) :
    memAlignTo size alignment =
      .ok (if size ≤ usizeMax - (alignment - 1) then size + padding size alignment
        else usizeMax) := by
  have hpos := pos_of_isPowerOfTwo ha
  rw [memAlignTo, decide_eq_true hpos, ha, requireMsg_true, requireMsg_true, ok_bind, ok_bind]
  by_cases hzero : size = 0
  · rw [if_pos hzero, hzero, if_pos (Nat.zero_le _), padding_of_dvd (Nat.dvd_zero _)]
  · by_cases hle : size ≤ usizeMax - (alignment - 1)
    · rw [if_neg hzero, if_neg (Nat.not_lt.mpr hle), if_pos hle, alignUp_eq ha hlt hle]
    · rw [if_neg hzero, if_pos (Nat.not_le.mp hle), if_neg hle]

/-- The default alignment is an alignment like any other. -/
theorem memAlign_eq_memAlignTo (size : Nat) : memAlign size = memAlignTo size defaultAlign := rfl

/-- A size is rounded up to the default alignment, or saturates near the limit. -/
theorem memAlign_eq (size : Nat) :
    memAlign size =
      .ok (if size ≤ usizeMax - (defaultAlign - 1) then size + padding size defaultAlign
        else usizeMax) := by
  rw [memAlign_eq_memAlignTo, memAlignTo_eq (by decide) (by decide)]

/-- A size that does not saturate is only rounded up. -/
theorem le_of_memAlign {size aligned : Nat} (h : memAlign size = .ok aligned)
    (hne : aligned ≠ usizeMax) : size ≤ aligned := by
  rw [memAlign_eq] at h
  have haligned := Except.ok.inj h
  split at haligned
  · rw [← haligned]
    exact Nat.le_add_right _ _
  · exact absurd haligned.symm hne

/-- Pointer arithmetic inside an object. -/
theorem ptrOffset_of_le {p n : Nat} (hpos : 0 < p) (h : p + n ≤ usizeMax) :
    ptrOffset p n = .ok (p + n) := by
  have hmax := usizeMax_succ
  have hle : p ≤ usizeSub usizeMax n := by
    rw [usizeSub_of_le (by omega) (by omega)]
    omega
  rw [ptrOffset, if_neg (by omega), decide_eq_true hle, requireMsg_true, ok_bind,
    usizeAdd_of_lt (by omega)]

/-- The address of an element of an array. -/
theorem ptrElem_of_le {base index elemSize : Nat} (hbase : 0 < base) (hsize : 0 < elemSize)
    (h : base + index * elemSize ≤ usizeMax) :
    ptrElem base index elemSize = .ok (base + index * elemSize) := by
  have hmax := usizeMax_succ
  have hindex : index ≤ usizeMax / elemSize := (Nat.le_div_iff_mul_le hsize).mpr (by omega)
  have hne : base ≠ 0 := by omega
  simp only [ptrElem, hne, ne_eq, not_false_eq_true, hsize, hindex, decide_true, requireMsg_true,
    ok_bind]
  rw [usizeMul_of_lt (by omega)]
  exact ptrOffset_of_le hbase h

end CanonC
