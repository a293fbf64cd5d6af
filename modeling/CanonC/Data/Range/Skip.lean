import CanonC.Data.Range.Counting

/-!
# Skipping is stepping

A jump of `n` elements leaves the range where `n` single steps leave it, or where the
last step does when there are fewer elements. Before the last element the steps add up;
the last one puts the range on its bound, and there the jump puts it as well.
-/

namespace CanonC

open Toolkit Toolkit.Progression

variable {r : Range}

/-- A range with terms left has one before its bound. -/
theorem Range.near_of_remaining (hpos : 0 < r.remaining) :
    r.step.val ≠ 0 ∧ Near r.step.val r.end_.val r.current.val := by
  have hnear : Near r.step.val r.end_.val r.current.val := by
    by_contra hfar
    exact hpos.ne' (count_of_not_near hfar)
  refine ⟨?_, hnear⟩
  rcases hnear with ⟨h, -⟩ | ⟨h, -⟩ <;> omega

/-- A range is empty exactly when it has no terms left. -/
theorem rangeIsEmpty_iff : rangeIsEmpty (some r) = true ↔ r.remaining = 0 := by
  have hnext : rangeHasNext (some r) = true ↔ 0 < r.remaining := by
    refine rangeHasNext_iff.trans ⟨fun hnear => ?_, fun hpos => (Range.near_of_remaining hpos).2⟩
    rw [Range.remaining, count, if_pos hnear]
    exact Nat.succ_pos _
  rw [rangeHasNext, Bool.not_eq_true'] at hnext
  rw [← Bool.not_eq_false, hnext]
  omega

/-- Before the last term the steps add up. -/
theorem rangeNextTimes_eq (h0 : r.step.val ≠ 0) {k : Nat} (hk : k < r.remaining) :
    ∃ current : Isize, rangeNextTimes k (some r) = .ok (some { r with current := current }) ∧
      current.val = r.current.val + k * r.step.val := by
  induction k generalizing r with
  | zero => exact ⟨r.current, rfl, by simp⟩
  | succ k ih =>
    have hnear : Near r.step.val r.end_.val r.current.val :=
      (count_pos_iff h0).mp (Nat.zero_lt_of_lt hk)
    obtain ⟨next, hnext, hval⟩ := rangeNext_eq hnear
    have hone : Near r.step.val r.end_.val (r.current.val + r.step.val) := by
      have h1 := (Range.near_iff h0 1).mpr (by omega)
      rwa [Nat.cast_one, one_mul] at h1
    rw [if_pos hone] at hval
    have hrem : ({ r with current := next } : Range).remaining = r.remaining - 1 := by
      rw [Range.remaining, hval, count_add_step h0 hnear, Range.remaining]
    obtain ⟨current, hcur, hsum⟩ := ih (r := { r with current := next }) h0 (by omega)
    refine ⟨current, ?_, ?_⟩
    · rw [rangeNextTimes, hnext, ok_bind]
      exact hcur
    · rw [hsum, hval, Nat.cast_succ]
      ring

/-- One more call is made at the end. -/
theorem rangeNextTimes_succ (k : Nat) (p : Option Range) :
    rangeNextTimes (k + 1) p = (do
      let q ← rangeNextTimes k p
      let (_, s) ← rangeNext q
      .ok (some s)) := by
  induction k generalizing p with
  | zero => rfl
  | succ k ih =>
    rw [rangeNextTimes]
    conv_rhs => rw [rangeNextTimes]
    rcases rangeNext p with e | ⟨value, s⟩
    · rfl
    · exact ih (some s)

/-- After the last term the range is on its bound. -/
theorem rangeNextTimes_remaining (h0 : r.step.val ≠ 0) (hpos : 0 < r.remaining) :
    rangeNextTimes r.remaining (some r) = .ok (some { r with current := r.end_ }) := by
  obtain ⟨k, hk⟩ := Nat.exists_eq_succ_of_ne_zero hpos.ne'
  obtain ⟨current, hcur, hsum⟩ := rangeNextTimes_eq h0 (k := k) (by omega)
  have hnear : Near r.step.val r.end_.val current.val := by
    rw [hsum]
    exact (Range.near_iff h0 k).mpr (by omega)
  obtain ⟨next, hnext, hval⟩ := rangeNext_eq (r := { r with current := current }) hnear
  have hfar : ¬ Near r.step.val r.end_.val (current.val + r.step.val) := by
    have hterm : current.val + r.step.val = r.current.val + (k + 1 : Nat) * r.step.val := by
      rw [hsum]
      push_cast
      ring
    rw [hterm, Range.near_iff h0]
    omega
  rw [if_neg hfar] at hval
  have hend : next = r.end_ := Subtype.ext hval
  rw [hk, rangeNextTimes_succ, hcur, ok_bind, hnext, ok_bind, hend]

private theorem isizeOf_of_val {i : Int} {a : Isize} (h : i = a.val) : isizeOf i = .ok a := by
  rw [h, isizeOf_eq a.property]

/-- Two moves in one direction whose sum ends on a value pass only over values. -/
theorem rangeJump_eq {move : Isize → Isize → Except String Isize} {sign : Int}
    (hsign : sign = 1 ∨ sign = -1)
    (hmove : ∀ a b : Isize, move a b = isizeOf (a.val + sign * b.val))
    {current target : Isize} {offset : Nat} (hoffset : (offset : Int) ≤ 2 * isizeMax)
    (htarget : target.val = current.val + sign * offset) :
    rangeJump move current offset = .ok target := by
  have hcur := current.property
  have htgt := target.property
  have hhalf : isizeToUsize isizeGreatest = 9223372036854775807 := by decide
  simp only [isizeMin, isizeMax] at hoffset hcur htgt
  rw [rangeJump, hhalf]
  by_cases hbig : 9223372036854775807 < offset
  · have hmiddle : isizeMin ≤ current.val + sign * isizeMax ∧
        current.val + sign * isizeMax ≤ isizeMax := by
      simp only [isizeMin, isizeMax]
      rcases hsign with rfl | rfl <;> omega
    have hrest : isizeMin ≤ ((offset - 9223372036854775807 : Nat) : Int) ∧
        ((offset - 9223372036854775807 : Nat) : Int) ≤ isizeMax := by
      simp only [isizeMin, isizeMax]
      omega
    have hsize : usizeSize = 18446744073709551616 := rfl
    have hfirst : move current isizeGreatest = .ok ⟨_, hmiddle⟩ := by
      rw [hmove]
      exact isizeOf_eq hmiddle
    rw [if_pos hbig, hfirst, ok_bind, usizeSub_of_le hbig.le (by omega), usizeToIsize,
      isizeOf_eq hrest, ok_bind, hmove]
    refine isizeOf_of_val ?_
    simp only [isizeMax, htarget]
    rcases hsign with rfl | rfl <;> omega
  · have hwhole : isizeMin ≤ (offset : Int) ∧ (offset : Int) ≤ isizeMax := by
      simp only [isizeMin, isizeMax]
      omega
    rw [if_neg hbig, usizeToIsize, isizeOf_eq hwhole, ok_bind, hmove]
    exact isizeOf_of_val htarget.symm

/-- The distance to a term before the bound. -/
theorem Range.offset_bound (h0 : r.step.val ≠ 0) {n : Nat} (hn : n < r.remaining) :
    n * r.step.val.natAbs < usizeSize ∧ ((n * r.step.val.natAbs : Nat) : Int) ≤ 2 * isizeMax ∧
      isizeMin ≤ r.current.val + n * r.step.val ∧ r.current.val + n * r.step.val ≤ isizeMax := by
  have hcur := r.current.property
  have hend := r.end_.property
  have hsize : usizeSize = 18446744073709551616 := rfl
  have hnear := (Range.near_iff h0 n).mpr hn
  have habs : ((n * r.step.val.natAbs : Nat) : Int) = ((n : Int) * r.step.val).natAbs := by
    rw [Int.natAbs_mul, Int.natAbs_natCast]
  have hsign : 0 ≤ (n : Int) * r.step.val ∧ 0 < r.step.val ∨
      (n : Int) * r.step.val ≤ 0 ∧ r.step.val < 0 := by
    rcases lt_or_gt_of_ne h0 with hneg | hpos
    · exact .inr ⟨mul_nonpos_of_nonneg_of_nonpos (Int.natCast_nonneg n) hneg.le, hneg⟩
    · exact .inl ⟨mul_nonneg (Int.natCast_nonneg n) hpos.le, hpos⟩
  generalize (n : Int) * r.step.val = jump at *
  generalize n * r.step.val.natAbs = offset at *
  simp only [isizeMin, isizeMax, Near] at *
  omega

/-- A jump before the last term is exact. -/
theorem rangeSkip_of_lt (h0 : r.step.val ≠ 0) (hmin : r.step.val ≠ isizeMin) {n : Nat}
    (hn : 0 < n) (hlt : n < r.remaining) :
    ∃ current : Isize, rangeSkip (some r) n = .ok (some { r with current := current }) ∧
      current.val = r.current.val + n * r.step.val := by
  obtain ⟨hsize, hoffset, hfits⟩ := Range.offset_bound h0 hlt
  have hempty : ¬ (n = 0 ∨ rangeIsEmpty (some r) = true) := by
    rw [rangeIsEmpty_iff]
    omega
  have hjump : rangeJump (if 0 < r.step.val then isizeAdd else isizeSub) r.current
      (n * r.step.val.natAbs) = .ok ⟨_, hfits⟩ := by
    by_cases hpos : 0 < r.step.val
    · rw [if_pos hpos]
      refine rangeJump_eq (.inl rfl) (fun a b => by rw [isizeAdd, one_mul]) hoffset ?_
      rw [one_mul, Nat.cast_mul, Int.natAbs_of_nonneg hpos.le]
    · rw [if_neg hpos]
      refine rangeJump_eq (.inr rfl) (fun a b => ?_) hoffset ?_
      · rw [isizeSub, neg_one_mul, sub_eq_add_neg]
      · rw [Nat.cast_mul, Int.ofNat_natAbs_of_nonpos (not_lt.mp hpos)]
        ring
  refine ⟨⟨_, hfits⟩, ?_, rfl⟩
  rw [rangeSkip, if_neg hempty, rangeLen_eq hmin, ok_bind, if_neg (by omega),
    rangeAbsStep_eq hmin, ok_bind, usizeMul_of_lt hsize]
  dsimp only
  rw [hjump, ok_bind]

/-- A jump by at least the length ends on the bound. -/
theorem rangeSkip_of_le (hmin : r.step.val ≠ isizeMin) {n : Nat} (hpos : 0 < r.remaining)
    (hle : r.remaining ≤ n) :
    rangeSkip (some r) n = .ok (some { r with current := r.end_ }) := by
  have hempty : ¬ (n = 0 ∨ rangeIsEmpty (some r) = true) := by
    rw [rangeIsEmpty_iff]
    omega
  rw [rangeSkip, if_neg hempty, rangeLen_eq hmin, ok_bind, if_pos hle]

/-- For every range whose step is not the least `isize`, which no constructor builds, and
every `n` the jump leaves the range that as many single steps leave as there are elements
up to `n`; neither overflows. -/
theorem rangeSkip_eq_rangeNextTimes (p : Option Range) (n : Nat)
    (hmin : ∀ r ∈ p, r.step.val ≠ isizeMin) :
    ∃ len q, rangeLen p = .ok len ∧ rangeSkip p n = .ok q ∧
      rangeNextTimes (min n len) p = .ok q := by
  cases p with
  | none => exact ⟨0, none, rfl, rfl, by rw [Nat.min_zero, rangeNextTimes]⟩
  | some r =>
    have hlen := rangeLen_eq (hmin r rfl)
    rcases Nat.eq_zero_or_pos n with rfl | hn
    · exact ⟨_, some r, hlen, by rw [rangeSkip, if_pos (.inl rfl)], by
        rw [Nat.zero_min, rangeNextTimes]⟩
    rcases Nat.eq_zero_or_pos r.remaining with hzero | hpos
    · exact ⟨_, some r, hlen, by rw [rangeSkip, if_pos (.inr (rangeIsEmpty_iff.mpr hzero))], by
        rw [hzero, Nat.min_zero, rangeNextTimes]⟩
    have h0 := (Range.near_of_remaining hpos).1
    by_cases hlt : n < r.remaining
    · obtain ⟨current, hskip, hval⟩ := rangeSkip_of_lt h0 (hmin r rfl) hn hlt
      obtain ⟨stepped, hsteps, hsum⟩ := rangeNextTimes_eq h0 hlt
      have he : stepped = current := Subtype.ext (hsum.trans hval.symm)
      exact ⟨_, _, hlen, hskip, by rw [Nat.min_eq_left hlt.le, hsteps, he]⟩
    · rw [not_lt] at hlt
      exact ⟨_, _, hlen, rangeSkip_of_le (hmin r rfl) hpos hlt, by
        rw [Nat.min_eq_right hlt, rangeNextTimes_remaining h0 hpos]⟩

/-- A jump over more than half of the widest range. -/
theorem rangeSkip_eq_rangeNextTimes_widest : ∃ len q,
    rangeLen (some ⟨isizeLeast, isizeGreatest, 1⟩) = .ok len ∧
      rangeSkip (some ⟨isizeLeast, isizeGreatest, 1⟩) (2 ^ 63 + 7) = .ok q ∧
      rangeNextTimes (min (2 ^ 63 + 7) len) (some ⟨isizeLeast, isizeGreatest, 1⟩) = .ok q :=
  rangeSkip_eq_rangeNextTimes _ _ (by
    rintro r ⟨⟩
    decide)

end CanonC
