import CanonC.Data.Range.Model
import CanonC.Toolkit.Progression

/-!
# A range yields its progression

A range has a next value exactly when its progression has a term before the bound, its
length is the number of those terms, and each step yields the first of them and leaves
a range with one term less. Clamping to the bound does not change which terms are left.
-/

namespace CanonC

open Toolkit Toolkit.Progression

variable {r : Range}

/-- The number of terms of the progression that are left. -/
def Range.remaining (r : Range) : Nat := count r.step.val r.end_.val r.current.val

/-- A value of the progression is before the end when fewer than all are passed. -/
theorem Range.near_iff (h0 : r.step.val ≠ 0) (k : Nat) :
    Near r.step.val r.end_.val (r.current.val + k * r.step.val) ↔ k < r.remaining :=
  near_add_mul_iff h0

/-- A value is left exactly when the current one is before the bound. -/
theorem rangeHasNext_iff : rangeHasNext (some r) = true ↔
    Near r.step.val r.end_.val r.current.val := by
  rw [rangeHasNext, rangeIsEmpty, Near]
  split <;> rename_i hpos
  · simp [hpos, not_lt_of_gt hpos]
  · split <;> rename_i hneg <;> simp [hpos, hneg]

private theorem isizeToUsize_eq {a : Isize} {n : Nat} (h : a.val = n) : isizeToUsize a = n := by
  have hcast := cast_isizeToUsize (a := a) (by omega)
  omega

/-- The magnitude of the step is exact. -/
theorem rangeAbsStep_eq (hmin : r.step.val ≠ isizeMin) :
    rangeAbsStep r.step = .ok r.step.val.natAbs := by
  have hstep := r.step.property
  by_cases hpos : 0 < r.step.val
  · rw [rangeAbsStep, if_pos hpos, isizeToUsize_eq (n := r.step.val.natAbs) (by omega)]
  · have hneg : isizeMin ≤ -r.step.val ∧ -r.step.val ≤ isizeMax := by
      simp only [isizeMin, isizeMax] at hstep hmin ⊢
      omega
    rw [rangeAbsStep, if_neg hpos, isizeNeg, isizeOf_eq hneg, ok_bind,
      isizeToUsize_eq (n := r.step.val.natAbs) (show -r.step.val = _ by omega)]

/-- The distance between two endpoints, taken by their signs, is exact. -/
theorem rangeSpan_eq {lo hi : Isize} (h : lo.val < hi.val) :
    rangeSpan lo hi = .ok (hi.val - lo.val).natAbs := by
  have hlo := lo.property
  have hhi := hi.property
  simp only [isizeMin, isizeMax] at hlo hhi
  by_cases hsign : 0 ≤ lo.val ∨ hi.val < 0
  · have hdiff : isizeMin ≤ hi.val - lo.val ∧ hi.val - lo.val ≤ isizeMax := by
      simp only [isizeMin, isizeMax]
      omega
    rw [rangeSpan, if_pos hsign, isizeSub, isizeOf_eq hdiff, ok_bind,
      isizeToUsize_eq (n := (hi.val - lo.val).natAbs) (show hi.val - lo.val = _ by omega)]
  · have hsucc : isizeMin ≤ lo.val + 1 ∧ lo.val + 1 ≤ isizeMax := by
      simp only [isizeMin, isizeMax]
      omega
    have hneg : isizeMin ≤ -(lo.val + 1) ∧ -(lo.val + 1) ≤ isizeMax := by
      simp only [isizeMin, isizeMax]
      omega
    have hsize : usizeSize = 18446744073709551616 := rfl
    rw [rangeSpan, if_neg hsign, isizeAdd, show (1 : Isize).val = 1 from rfl, isizeOf_eq hsucc,
      ok_bind, isizeNeg, isizeOf_eq hneg, ok_bind,
      isizeToUsize_eq (n := hi.val.natAbs) (by omega),
      isizeToUsize_eq (n := (lo.val + 1).natAbs) (show -(lo.val + 1) = _ by omega),
      usizeAdd_of_lt (a := hi.val.natAbs) (by omega), usizeAdd_of_lt (by omega)]
    exact congrArg Except.ok (by omega)

/-- The length is the number of terms left. -/
theorem rangeLen_eq (hmin : r.step.val ≠ isizeMin) :
    rangeLen (some r) = .ok r.remaining := by
  by_cases hnear : Near r.step.val r.end_.val r.current.val
  · have hempty : rangeIsEmpty (some r) = false := by
      simpa [rangeHasNext] using rangeHasNext_iff.mpr hnear
    have hcur := r.current.property
    have hend := r.end_.property
    simp only [isizeMin, isizeMax] at hcur hend
    have hlt : (if 0 < r.step.val then r.current else r.end_).val <
        (if 0 < r.step.val then r.end_ else r.current).val := by
      rcases hnear with ⟨h, hb⟩ | ⟨h, hb⟩
      · rwa [if_pos h, if_pos h]
      · rwa [if_neg (by omega), if_neg (by omega)]
    have hspan : ((if 0 < r.step.val then r.end_ else r.current).val -
        (if 0 < r.step.val then r.current else r.end_).val).natAbs =
        (r.end_.val - r.current.val).natAbs := by
      split <;> omega
    have hsize : usizeSize = 18446744073709551616 := rfl
    have hle := Nat.div_le_self ((r.end_.val - r.current.val).natAbs - 1) r.step.val.natAbs
    have hpos : 1 ≤ (r.end_.val - r.current.val).natAbs := by
      rcases hnear with ⟨-, h⟩ | ⟨-, h⟩ <;> omega
    simp only [rangeLen, hempty, Bool.false_eq_true, if_false]
    rw [rangeAbsStep_eq hmin, ok_bind, rangeSpan_eq hlt, ok_bind, hspan,
      usizeSub_of_le hpos (by omega), usizeAdd_of_lt (by omega), Range.remaining, count,
      if_pos hnear]
  · have hempty : rangeIsEmpty (some r) = true := by
      simpa [rangeHasNext] using mt rangeHasNext_iff.mp hnear
    rw [rangeLen, if_pos hempty, Range.remaining, count_of_not_near hnear]

/-- A step yields the current value and moves to the next term, or to the bound when that
term is not before it. -/
theorem rangeNext_eq (hnear : Near r.step.val r.end_.val r.current.val) :
    ∃ next : Isize, rangeNext (some r) = .ok (r.current, { r with current := next }) ∧
      next.val = if Near r.step.val r.end_.val (r.current.val + r.step.val)
        then r.current.val + r.step.val else r.end_.val := by
  have hend := r.end_.property
  have hcur := r.current.property
  have hnext := rangeHasNext_iff.mpr hnear
  simp only [rangeNext, Option.isSome_some, hnext, requireMsg_true, ok_bind, checkedAddIsize_eq]
  by_cases hfits : isizeMin ≤ r.current.val + r.step.val ∧ r.current.val + r.step.val ≤ isizeMax
  · simp only [dif_pos hfits]
    rcases hnear with ⟨hpos, -⟩ | ⟨hneg, -⟩
    · by_cases hover : r.end_.val ≤ r.current.val + r.step.val
      · refine ⟨r.end_, by simp [hpos, hover], ?_⟩
        rw [if_neg (by rw [near_of_pos hpos]; omega)]
      · refine ⟨⟨_, hfits⟩, by simp [hpos, hover, not_lt_of_gt hpos], ?_⟩
        rw [if_pos (by rw [near_of_pos hpos]; omega)]
    · by_cases hover : r.current.val + r.step.val ≤ r.end_.val
      · refine ⟨r.end_, by simp [hneg, hover, not_lt_of_gt hneg], ?_⟩
        rw [if_neg (by rw [near_of_neg hneg]; omega)]
      · refine ⟨⟨_, hfits⟩, by simp [hover, not_lt_of_gt hneg], ?_⟩
        rw [if_pos (by rw [near_of_neg hneg]; omega)]
  · refine ⟨r.end_, by simp only [dif_neg hfits], (if_neg ?_).symm⟩
    rcases hnear with ⟨hpos, hb⟩ | ⟨hneg, hb⟩
    · rw [near_of_pos hpos]
      omega
    · rw [near_of_neg hneg]
      omega

/-- A step leaves the same terms except the first. -/
theorem rangeNext_remaining (hnear : Near r.step.val r.end_.val r.current.val) :
    ∃ r' : Range, rangeNext (some r) = .ok (r.current, r') ∧ r'.end_ = r.end_ ∧
      r'.step = r.step ∧ r'.remaining = r.remaining - 1 ∧
      (0 < r'.remaining → r'.current.val = r.current.val + r.step.val) := by
  have hstep : r.step.val ≠ 0 := by
    rcases hnear with ⟨h, -⟩ | ⟨h, -⟩ <;> omega
  obtain ⟨next, heq, hval⟩ := rangeNext_eq hnear
  refine ⟨{ r with current := next }, heq, rfl, rfl, ?_, ?_⟩
  all_goals rw [Range.remaining]
  all_goals by_cases hn : Near r.step.val r.end_.val (r.current.val + r.step.val)
  · rw [hval, if_pos hn, count_add_step hstep hnear, Range.remaining]
  · rw [hval, if_neg hn, count_of_not_near not_near_bound, Range.remaining,
      ← count_add_step hstep hnear, count_of_not_near hn]
  · exact fun _ => by rw [hval, if_pos hn]
  · rw [hval, if_neg hn, count_of_not_near not_near_bound]
    exact fun h => absurd h (lt_irrefl 0)

/-- The values of the first `n` rounds are the first terms in order, and the range left
behind has the other terms. -/
theorem rangeRounds_eq (h0 : r.step.val ≠ 0) (n : Nat) :
    ∃ values r', rangeRounds n r = .ok (values, r') ∧ r'.end_ = r.end_ ∧ r'.step = r.step ∧
      r'.remaining = r.remaining - n ∧
      values.map Subtype.val = (List.range (min n r.remaining)).map fun k : Nat =>
        r.current.val + k * r.step.val := by
  induction n generalizing r with
  | zero => exact ⟨[], r, rfl, rfl, rfl, rfl, by simp⟩
  | succ n ih =>
    by_cases hnear : Near r.step.val r.end_.val r.current.val
    · obtain ⟨t, ht, hend, hstep, hrem, hcur⟩ := rangeNext_remaining hnear
      obtain ⟨values, r', hr, hend', hstep', hrem', hvals⟩ := ih (r := t) (by rwa [hstep])
      have hpos : 0 < r.remaining := (count_pos_iff h0).mpr hnear
      refine ⟨r.current :: values, r', ?_, hend'.trans hend, hstep'.trans hstep, by omega, ?_⟩
      · simp only [rangeRounds, rangeHasNext_iff.mpr hnear, if_true, ht, ok_bind, hr]
      · have hmin : min (n + 1) r.remaining = min n t.remaining + 1 := by omega
        rw [List.map_cons, hvals, hmin, List.range_succ_eq_map, List.map_cons, List.map_map,
          Nat.cast_zero, zero_mul, add_zero]
        refine congrArg _ (List.map_congr_left fun k hk => ?_)
        rw [List.mem_range] at hk
        rw [Function.comp_apply, hcur (by omega), hstep, Nat.cast_succ]
        ring
    · have hzero : r.remaining = 0 := count_of_not_near hnear
      refine ⟨[], r, ?_, rfl, rfl, by omega, by simp [hzero]⟩
      rw [rangeRounds, if_neg (mt rangeHasNext_iff.mp hnear)]

/-- For every start, bound and step other than zero and the least `isize`, the length is
the number of terms of the progression before the bound, any number of rounds yields that
many of them from the first on without signed overflow, the length of the range left behind
is the number of the others, and the range stays exhausted once all were yielded. -/
theorem range_yields_progression (start end_ step : Isize) (h0 : step.val ≠ 0)
    (hmin : step.val ≠ isizeMin) :
    rangeMake start end_ step = .ok ⟨start, end_, step⟩ ∧
      ∃ len : Nat, rangeLen (some ⟨start, end_, step⟩) = .ok len ∧
        (∀ k : Nat, Near step.val end_.val (start.val + k * step.val) ↔ k < len) ∧
        ∀ n, ∃ values r, rangeRounds n ⟨start, end_, step⟩ = .ok (values, r) ∧
          values.map Subtype.val =
            (List.range (min n len)).map (fun k : Nat => start.val + k * step.val) ∧
          rangeLen (some r) = .ok (len - n) ∧
          (∀ k : Nat, Near step.val end_.val (r.current.val + k * step.val) ↔ k < len - n) ∧
          (rangeHasNext (some r) = true ↔ n < len) := by
  refine ⟨?_, Range.remaining ⟨start, end_, step⟩, rangeLen_eq hmin,
    Range.near_iff (r := ⟨start, end_, step⟩) h0, fun n => ?_⟩
  · simp [rangeMake, hmin, h0]
  · obtain ⟨values, r, hr, hend, hstep, hrem, hvals⟩ :=
      rangeRounds_eq (r := ⟨start, end_, step⟩) h0 n
    refine ⟨values, r, hr, hvals, ?_, fun k => ?_, ?_⟩
    · rw [rangeLen_eq (by rwa [hstep]), hrem]
    · have hk := Range.near_iff (r := r) (by rwa [hstep]) k
      rwa [hrem, hend, hstep] at hk
    · rw [rangeHasNext_iff, ← count_pos_iff (by rwa [hstep]), ← Range.remaining, hrem]
      omega

/-- The widest range, whose length no `isize` can hold. -/
theorem range_yields_widest : ∃ len : Nat,
    rangeLen (some ⟨isizeLeast, isizeGreatest, 1⟩) = .ok len ∧
    ∀ n, ∃ values r, rangeRounds n ⟨isizeLeast, isizeGreatest, 1⟩ = .ok (values, r) ∧
      rangeLen (some r) = .ok (len - n) := by
  obtain ⟨-, len, hlen, -, hrounds⟩ :=
    range_yields_progression isizeLeast isizeGreatest 1 (by decide) (by decide)
  refine ⟨len, hlen, fun n => ?_⟩
  obtain ⟨values, r, hr, -, hrem, -⟩ := hrounds n
  exact ⟨values, r, hr, hrem⟩

end CanonC
