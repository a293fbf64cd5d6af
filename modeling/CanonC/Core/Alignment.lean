import CanonC.Core.Ptr

/-!
# Rounding to an alignment

The alignments are the powers of two that are words, and they divide the number of words. So
the masked computations, which wrap, meet the integer ones: exactly as long as the next
multiple is a word itself where they round up, and without a bound where they round down.
-/

namespace CanonC

variable {n align : Nat}

/-- A sum that wraps keeps its remainder, so the padding is the least one for it as well. -/
theorem isLeast_alignPadding (ha : isPowerOfTwo align = true) (hlt : align < usizeSize)
    (hn : n < usizeSize) :
    IsLeast {p | align ∣ usizeAdd n p} (alignPadding n align) := by
  have hpos := pos_of_isPowerOfTwo ha
  have hwrap : ∀ p, align ∣ usizeAdd n p ↔ align ∣ n + p := fun p =>
    Nat.dvd_mod_iff (dvd_usizeSize ha hlt)
  rw [alignPadding_eq ha hlt hn]
  refine ⟨(hwrap _).mpr (dvd_add_padding n hpos), ?_⟩
  intro p hdvd
  exact padding_le hpos ((hwrap p).mp hdvd)

/-- NULL is a multiple of every alignment, so its separate case returns what the others do. -/
theorem ptrAlignPadding_eq (p : Nat) (ha : isPowerOfTwo align = true) (hlt : align < usizeSize) :
    ptrAlignPadding p align = alignPadding p align := by
  rw [ptrAlignPadding]
  split
  · rename_i hnull
    rw [hnull, alignPadding_eq ha hlt (by decide), padding_of_dvd (Nat.dvd_zero _)]
  · rfl

/-- A multiple is already rounded up. -/
theorem alignUp_of_dvd (ha : isPowerOfTwo align = true) (hlt : align < usizeSize)
    (hn : n < usizeSize) (hdvd : align ∣ n) : alignUp n align = .ok n := by
  rw [alignUp_eq_mod ha hlt, padding_of_dvd hdvd, Nat.add_zero, Nat.mod_eq_of_lt hn]

/-- A multiple is already rounded down. -/
theorem alignDown_of_dvd (ha : isPowerOfTwo align = true) (hlt : align < usizeSize)
    (hn : n < usizeSize) (hdvd : align ∣ n) : alignDown n align = .ok n := by
  rw [alignDown_eq ha hlt hn, Nat.mul_div_cancel' hdvd]

/-- Rounding up gives a multiple, which is zero where the next one is no word, and rounding it
up again changes nothing. -/
theorem alignUp_idempotent {up : Nat} (ha : isPowerOfTwo align = true)
    (hlt : align < usizeSize) (h : alignUp n align = .ok up) : alignUp up align = .ok up := by
  have hpos := pos_of_isPowerOfTwo ha
  rw [alignUp_eq_mod ha hlt] at h
  rw [← Except.ok.inj h]
  exact alignUp_of_dvd ha hlt (Nat.mod_lt _ (by decide))
    ((Nat.dvd_mod_iff (dvd_usizeSize ha hlt)).mpr (dvd_add_padding n hpos))

/-- Rounding down gives a multiple, and rounding it down again changes nothing. -/
theorem alignDown_idempotent {down : Nat} (ha : isPowerOfTwo align = true)
    (hlt : align < usizeSize) (hn : n < usizeSize) (h : alignDown n align = .ok down) :
    alignDown down align = .ok down := by
  rw [alignDown_eq ha hlt hn] at h
  rw [← Except.ok.inj h]
  exact alignDown_of_dvd ha hlt (Nat.lt_of_le_of_lt (Nat.mul_div_le n align) hn)
    (Nat.dvd_mul_right _ _)

/-- Every computation with an alignment rounds as its name says, as far as the multiple is a word;
where the next one is none, the padding still leads to it modulo the number of words, and the size
of an allocation saturates. -/
theorem alignment_rounds (n align : Usize) (ha : isPowerOfTwo align = true) :
    IsLeast {p | align.val ∣ usizeAdd n p} (alignPadding n align) ∧
      ptrAlignPadding n align = alignPadding n align ∧
      (∃ up, alignUp n align = .ok up ∧ alignUp up align = .ok up ∧
        (n.val ≤ usizeMax - (align.val - 1) →
          alignPadding n align = usizeSub up n ∧ IsLeast {m | align.val ∣ m ∧ n.val ≤ m} up)) ∧
      (∃ down, alignDown n align = .ok down ∧ alignDown down align = .ok down ∧
        IsGreatest {m | align.val ∣ m ∧ m ≤ n.val} down) ∧
      ∃ aligned, memAlignTo n align = .ok aligned ∧
        ((∃ m : Usize, align.val ∣ m.val ∧ n ≤ m) →
          IsLeast {m | align.val ∣ m ∧ n.val ≤ m} aligned) ∧
        ((¬ ∃ m : Usize, align.val ∣ m.val ∧ n ≤ m) → aligned = usizeMax) := by
  have hlt := align.isLt
  have hn := n.isLt
  have hpos := pos_of_isPowerOfTwo ha
  have hup := alignUp_eq_mod (n := n.val) ha hlt
  have hdown := alignDown_eq ha hlt hn
  have hrepresentable : (∃ m : Usize, align.val ∣ m.val ∧ n ≤ m) ↔
      n.val ≤ usizeMax - (align.val - 1) := by
    rw [← exists_multiple_iff ha hlt]
    constructor
    · rintro ⟨m, hdvd, hle⟩
      exact ⟨m.val, m.isLt, hdvd, hle⟩
    · rintro ⟨m, hm, hdvd, hle⟩
      exact ⟨⟨m, hm⟩, hdvd, hle⟩
  refine ⟨isLeast_alignPadding ha hlt hn, ptrAlignPadding_eq n.val ha hlt,
    ⟨_, hup, alignUp_idempotent ha hlt hup, ?_⟩,
    ⟨_, hdown, alignDown_idempotent ha hlt hn hdown,
      Toolkit.Rounding.isGreatest_mul_div n.val hpos⟩,
    _, memAlignTo_eq ha hlt, ?_, ?_⟩
  · intro hle
    have hfit := add_padding_lt ha hlt hle
    rw [Nat.mod_eq_of_lt hfit, usizeSub_of_le (Nat.le_add_right _ _) hfit,
      Nat.add_sub_cancel_left]
    exact ⟨alignPadding_eq ha hlt hn, isLeast_add_padding n.val hpos⟩
  · intro hmultiple
    rw [if_pos (hrepresentable.mp hmultiple)]
    exact isLeast_add_padding n.val hpos
  · intro hnone
    exact if_neg fun hle => hnone (hrepresentable.mpr hle)

/-- A number in the middle, and one past the last multiple: there the padding wraps the sum to
zero and the size saturates. -/
theorem alignment_rounds_eight :
    (alignUp 13 8 = .ok 16 ∧ IsLeast {m | 8 ∣ m ∧ 13 ≤ m} 16) ∧
      IsLeast {p | 8 ∣ usizeAdd (usizeMax - 2) p} 3 ∧
      memAlignTo (usizeMax - 2) 8 = .ok usizeMax := by
  have hmax : usizeMax = 2 ^ 64 - 1 := rfl
  obtain ⟨-, -, ⟨up, hup, -, hround⟩, -⟩ :=
    alignment_rounds ⟨13, by decide⟩ ⟨8, by decide⟩ (by decide)
  obtain ⟨hleast, -, -, -, aligned, haligned, -, hsaturated⟩ :=
    alignment_rounds ⟨usizeMax - 2, by decide⟩ ⟨8, by decide⟩ (by decide)
  have hsixteen : alignUp 13 8 = .ok 16 := by decide
  have hthree : alignPadding (usizeMax - 2) 8 = 3 := by decide
  obtain rfl : up = 16 := Except.ok.inj (hup.symm.trans hsixteen)
  have hnone : ¬ ∃ m : Usize, 8 ∣ m.val ∧ (⟨usizeMax - 2, by decide⟩ : Usize) ≤ m := by
    rintro ⟨m, hdvd, hle⟩
    have hm : m.val < 2 ^ 64 := m.isLt
    have hval : usizeMax - 2 ≤ m.val := hle
    omega
  refine ⟨⟨hsixteen, (hround (by decide)).2⟩, ?_, ?_⟩
  · rwa [hthree] at hleast
  · rwa [hsaturated hnone] at haligned

end CanonC
