import CanonC.Core.Checked
import Mathlib.Algebra.Order.Ring.Int

/-!
# The overflow tests are exact

A portable checked operation and the compiler builtin it stands for are compared on every
pair of arguments. Both succeed exactly when the integer result is a value of the type,
and then store that value; the tests of the portable one neither overflow nor divide by
zero. On `usize` the two even store the same wrapped value when they fail.
-/

namespace CanonC

/-- What `__builtin_add_overflow` and its siblings report of the exact result: whether the
cast to the type keeps it, and the cast value, which is stored in any case. -/
def builtinResult {T : Type} (value : T → Int) (cast : Int → T) (exact : Int) : Bool × T :=
  (decide (value (cast exact) = exact), cast exact)

/-- The integer value of a `usize`. -/
def usizeValue (a : Usize) : Int := (a.val : Int)

/-- The cast of an integer to `usize`. -/
def usizeCast (i : Int) : Usize :=
  ⟨(i % (usizeSize : Int)).toNat, by
    have hpos : (0 : Int) < (usizeSize : Int) := by decide
    have hlt := Int.emod_lt_of_pos i hpos
    have hnonneg := Int.emod_nonneg i hpos.ne'
    omega⟩

/-- A remainder counted from the least value is a value of the type. -/
theorem isizeCast_fits (i : Int) : isizeMin ≤ (i - isizeMin) % (usizeSize : Int) + isizeMin ∧
    (i - isizeMin) % (usizeSize : Int) + isizeMin ≤ isizeMax := by
  have hpos : (0 : Int) < (usizeSize : Int) := by decide
  have hlt := Int.emod_lt_of_pos (i - isizeMin) hpos
  have hnonneg := Int.emod_nonneg (i - isizeMin) hpos.ne'
  have hsize : (usizeSize : Int) = 18446744073709551616 := rfl
  simp only [isizeMin, isizeMax] at *
  omega

/-- The cast of an integer to `isize`. -/
def isizeCast (i : Int) : Isize :=
  ⟨(i - isizeMin) % (usizeSize : Int) + isizeMin, isizeCast_fits i⟩

/-- The value stored by a call that succeeds. -/
def kept {T : Type} (p : Bool × T) : Option T := if p.1 then some p.2 else none

/-- The outcome is a value of the type exactly when that value is the exact result. -/
def Reports {T : Type} (value : T → Int) (exact : Int) (outcome : Option T) : Prop :=
  ∀ x, outcome = some x ↔ value x = exact

/-- `checked_add` without a compiler builtin: its result and what it stores. -/
def checkedAddStore (a b : Usize) : Bool × Usize :=
  (decide (a + b ≥ a), a + b)

/-- `checked_sub` without a compiler builtin: its result and what it stores. -/
def checkedSubStore (a b : Usize) : Bool × Usize :=
  (decide (b ≤ a), a - b)

/-- Unsigned division. -/
def usizeDiv (a b : Usize) : Except String Usize :=
  if b = 0 then .error divisionByZero else .ok (a / b)

/-- `checked_mul` without a compiler builtin: its result and what it stores. -/
def checkedMulStore (a b : Usize) : Except String (Bool × Usize) :=
  if a = 0 ∨ b = 0 then .ok (true, 0)
  else do
    let quotient ← usizeDiv (a * b) a
    .ok (decide (quotient = b), a * b)

/-- The builtin succeeds exactly when the result is a value of the type. -/
theorem reports_builtin {T : Type} {value : T → Int} {cast : Int → T}
    (h : Function.LeftInverse cast value) (exact : Int) :
    Reports value exact (kept (builtinResult value cast exact)) := by
  intro x
  by_cases he : value (cast exact) = exact
  · rw [kept, builtinResult, decide_eq_true he, if_pos rfl, Option.some.injEq]
    constructor
    · rintro rfl
      exact he
    · rintro rfl
      exact h x
  · rw [kept, builtinResult, decide_eq_false he, if_neg Bool.false_ne_true]
    refine iff_of_false (Option.some_ne_none x).symm ?_
    rintro rfl
    exact he (congrArg value (h x))

private theorem usizeSize_lit : (usizeSize : Int) = 18446744073709551616 := rfl

/-- The values of `usize` are those of a word. -/
theorem usizeValue_bounds (a : Usize) : 0 ≤ usizeValue a ∧ usizeValue a < 18446744073709551616 := by
  have hlt : a.val < 18446744073709551616 := a.isLt
  unfold usizeValue
  omega

/-- A cast to `usize` is modulo the word. -/
theorem usizeValue_cast (i : Int) : usizeValue (usizeCast i) = i % 18446744073709551616 := by
  have hnonneg : 0 ≤ i % (usizeSize : Int) := Int.emod_nonneg i (by decide)
  exact Int.toNat_of_nonneg hnonneg

/-- A `usize` is determined by its value. -/
theorem usizeValue_injective : Function.Injective usizeValue := fun _ _ h =>
  Fin.ext (Int.natCast_inj.mp h)

/-- A cast of a `usize` value is that `usize`. -/
theorem usizeCast_value : Function.LeftInverse usizeCast usizeValue := by
  intro a
  apply usizeValue_injective
  have ha := usizeValue_bounds a
  rw [usizeValue_cast, Int.emod_eq_of_lt ha.1 ha.2]

/-- A cast of an `isize` value is that `isize`. -/
theorem isizeCast_value : Function.LeftInverse isizeCast Subtype.val := by
  intro a
  apply Subtype.ext
  have ha := a.property
  change (a.val - isizeMin) % (usizeSize : Int) + isizeMin = a.val
  rw [usizeSize_lit]
  simp only [isizeMin, isizeMax] at *
  omega

/-- The sum of two `usize` values is the cast of the exact one. -/
theorem usizeValue_add (a b : Usize) :
    usizeValue (a + b) = (usizeValue a + usizeValue b) % 18446744073709551616 := by
  rw [usizeValue, Fin.val_add, Int.natCast_emod, Int.natCast_add]
  rfl

/-- The difference of two `usize` values is the cast of the exact one. -/
theorem usizeValue_sub (a b : Usize) :
    usizeValue (a - b) = (usizeValue a - usizeValue b) % 18446744073709551616 := by
  have hb := b.isLt
  rw [usizeValue, Fin.val_sub, Int.natCast_emod, Int.natCast_add, Int.natCast_sub hb.le,
    usizeSize_lit, usizeValue, usizeValue]
  omega

/-- The product of two `usize` values is the cast of the exact one. -/
theorem usizeValue_mul (a b : Usize) :
    usizeValue (a * b) = (usizeValue a * usizeValue b) % 18446744073709551616 := by
  rw [usizeValue, Fin.val_mul, Int.natCast_emod, Int.natCast_mul]
  rfl

private theorem store_eq_builtin {x : Usize} {exact : Int} {p : Prop} [Decidable p]
    (hx : usizeValue x = exact % 18446744073709551616) (hp : p ↔ usizeValue x = exact) :
    (decide p, x) = builtinResult usizeValue usizeCast exact := by
  have hcast : usizeCast exact = x := usizeValue_injective (by rw [usizeValue_cast, hx])
  rw [builtinResult, hcast, decide_eq_decide.mpr hp]

/-- The wrapped sum is not below an argument exactly when it did not wrap. -/
theorem checkedAddStore_eq (a b : Usize) :
    checkedAddStore a b = builtinResult usizeValue usizeCast (usizeValue a + usizeValue b) := by
  have ha := usizeValue_bounds a
  have hb := usizeValue_bounds b
  have hadd := usizeValue_add a b
  have hle : a + b ≥ a ↔ usizeValue a ≤ usizeValue (a + b) := by
    simp only [usizeValue, ge_iff_le, Fin.le_def, Int.ofNat_le]
  exact store_eq_builtin hadd (by rw [hle]; omega)

/-- The test of a difference reports what the builtin reports. -/
theorem checkedSubStore_eq (a b : Usize) :
    checkedSubStore a b = builtinResult usizeValue usizeCast (usizeValue a - usizeValue b) := by
  have ha := usizeValue_bounds a
  have hb := usizeValue_bounds b
  have hsub := usizeValue_sub a b
  have hle : b ≤ a ↔ usizeValue b ≤ usizeValue a := by
    simp only [usizeValue, Fin.le_def, Int.ofNat_le]
  exact store_eq_builtin hsub (by rw [hle]; omega)

/-- Dividing the wrapped product gives back the factor exactly when it did not wrap. -/
theorem usizeMul_div_eq_iff {a b : Nat} (h0 : ¬ (a = 0 ∨ b = 0)) :
    usizeMul a b / a = b ↔ a * b < usizeSize := by
  have hmul := checkedMul_eq a b
  rw [checkedMul, if_neg h0] at hmul
  by_cases hfits : a * b < usizeSize
  · refine iff_of_true (not_not.mp fun hne => ?_) hfits
    rw [if_pos hne, if_pos hfits] at hmul
    exact Option.some_ne_none _ hmul.symm
  · refine iff_of_false (fun he => ?_) hfits
    rw [if_neg (not_not.mpr he), if_neg hfits] at hmul
    exact Option.some_ne_none _ hmul

/-- The quotient is taken by a factor that is not zero. -/
theorem checkedMulStore_eq (a b : Usize) :
    checkedMulStore a b =
      .ok (builtinResult usizeValue usizeCast (usizeValue a * usizeValue b)) := by
  have hmul := usizeValue_mul a b
  by_cases h0 : a = 0 ∨ b = 0
  · have hzero : usizeValue a * usizeValue b = 0 := by
      rcases h0 with rfl | rfl
      · exact zero_mul _
      · exact mul_zero _
    have hstore : (decide True, (0 : Usize)) = builtinResult usizeValue usizeCast 0 :=
      store_eq_builtin rfl (iff_of_true trivial rfl)
    rw [checkedMulStore, if_pos h0, hzero, ← hstore, decide_true]
  · have hval : ¬ (a.val = 0 ∨ b.val = 0) := by
      rwa [Fin.ext_iff, Fin.ext_iff] at h0
    have hquot : a * b / a = b ↔ usizeValue (a * b) = usizeValue a * usizeValue b := by
      have hfits : usizeValue a * usizeValue b < 18446744073709551616 ↔
          a.val * b.val < usizeSize := by
        rw [usizeValue, usizeValue, ← usizeSize_lit]
        exact_mod_cast Iff.rfl
      have hnonneg : 0 ≤ usizeValue a * usizeValue b :=
        mul_nonneg (usizeValue_bounds a).1 (usizeValue_bounds b).1
      have hdiv : a * b / a = b ↔ usizeMul a.val b.val / a.val = b.val := Fin.ext_iff
      rw [hdiv, usizeMul_div_eq_iff hval, ← hfits]
      omega
    rw [checkedMulStore, if_neg h0, usizeDiv, if_neg (not_or.mp h0).1, ok_bind,
      store_eq_builtin hmul hquot]

/-- A builtin on `usize` stores a natural number that is in range. -/
theorem kept_builtin_natCast (n : Nat) :
    (kept (builtinResult usizeValue usizeCast n)).map Fin.val =
      if n < usizeSize then some n else none := by
  have hcast := usizeValue_cast n
  have hval : ((usizeCast n).val : Int) = usizeValue (usizeCast n) := rfl
  have hsize : usizeSize = 18446744073709551616 := rfl
  by_cases hfits : n < usizeSize
  · have hn : (usizeCast n).val = n := by omega
    rw [kept, builtinResult, if_pos hfits, decide_eq_true (by omega), if_pos rfl, Option.map_some,
      hn]
  · rw [kept, builtinResult, if_neg hfits, decide_eq_false (by omega),
      if_neg Bool.false_ne_true, Option.map_none]

/-- A builtin on `usize` fails on a negative result. -/
theorem kept_builtin_neg {exact : Int} (h : exact < 0) :
    kept (builtinResult usizeValue usizeCast exact) = none := by
  have hcast := usizeValue_cast exact
  rw [kept, builtinResult, decide_eq_false (by omega), if_neg Bool.false_ne_true]

/-- The operations the other modules use are these calls without their stores. -/
theorem checkedAdd_eq_kept (a b : Usize) :
    checkedAdd a.val b.val = (kept (checkedAddStore a b)).map Fin.val := by
  have hadd : usizeValue a + usizeValue b = (a.val + b.val : Nat) := (Int.natCast_add _ _).symm
  rw [checkedAddStore_eq, hadd, kept_builtin_natCast, checkedAdd_eq a.isLt b.isLt]

/-- The checked difference is what is stored on success. -/
theorem checkedSub_eq_kept (a b : Usize) :
    checkedSub a.val b.val = (kept (checkedSubStore a b)).map Fin.val := by
  rw [checkedSubStore_eq, checkedSub_eq a.isLt]
  by_cases hle : b.val ≤ a.val
  · have hsub : usizeValue a - usizeValue b = (a.val - b.val : Nat) := (Int.natCast_sub hle).symm
    rw [if_pos hle, hsub, kept_builtin_natCast, if_pos (Nat.lt_of_le_of_lt (Nat.sub_le _ _) a.isLt)]
  · have hneg : usizeValue a - usizeValue b < 0 := by
      unfold usizeValue
      omega
    rw [if_neg hle, kept_builtin_neg hneg, Option.map_none]

/-- The checked product is what is stored on success. -/
theorem checkedMul_eq_kept (a b : Usize) :
    ∃ stored, checkedMulStore a b = .ok stored ∧
      checkedMul a.val b.val = (kept stored).map Fin.val := by
  have hmul : usizeValue a * usizeValue b = (a.val * b.val : Nat) := (Int.natCast_mul _ _).symm
  exact ⟨_, checkedMulStore_eq a b, by rw [hmul, kept_builtin_natCast, checkedMul_eq]⟩

/-- The `isize` that is the exact result, if there is one. -/
def isizeExact (i : Int) : Option Isize :=
  if h : isizeMin ≤ i ∧ i ≤ isizeMax then some ⟨i, h⟩ else none

/-- A value in range is an `isize`. -/
theorem isizeExact_of_fits {i : Int} (h : isizeMin ≤ i ∧ i ≤ isizeMax) :
    isizeExact i = some ⟨i, h⟩ := dif_pos h

/-- A value out of range is none. -/
theorem isizeExact_of_not_fits {i : Int} (h : ¬ (isizeMin ≤ i ∧ i ≤ isizeMax)) :
    isizeExact i = none := dif_neg h

/-- Every `isize` is in range. -/
theorem isizeExact_val (a : Isize) : isizeExact a.val = some a := dif_pos a.property

/-- Nothing else is reported as the exact result. -/
theorem reports_isizeExact (i : Int) : Reports Subtype.val i (isizeExact i) := by
  intro x
  by_cases h : isizeMin ≤ i ∧ i ≤ isizeMax
  · rw [isizeExact_of_fits h, Option.some.injEq, Subtype.ext_iff]
    exact eq_comm
  · rw [isizeExact_of_not_fits h]
    refine iff_of_false (Option.some_ne_none x).symm ?_
    rintro rfl
    exact h x.property

/-- An outcome is determined by what it reports. -/
theorem Reports.unique {T : Type} {value : T → Int} {exact : Int} {r s : Option T}
    (hr : Reports value exact r) (hs : Reports value exact s) : r = s :=
  Option.ext fun x => (hr x).trans (hs x).symm

/-- A checked signed difference is the exact one, and it is absent when that is no `isize`;
the test itself never overflows. -/
theorem checkedSubIsize_eq (a b : Isize) :
    checkedSubIsize a b = .ok (isizeExact (a.val - b.val)) := by
  have ha := a.property
  have hb := b.property
  simp only [isizeMin, isizeMax] at ha hb
  rcases lt_trichotomy b.val 0 with hneg | hzero | hpos
  · have hroom : isizeMin ≤ isizeMax + b.val ∧ isizeMax + b.val ≤ isizeMax := by
      simp only [isizeMin, isizeMax]
      omega
    have hlimit : isizeAdd isizeGreatest b = .ok ⟨_, hroom⟩ := isizeOf_eq hroom
    rw [checkedSubIsize, testLimit_of_not (not_lt_of_gt hneg), ok_bind,
      if_neg Bool.false_ne_true, testLimit_of hneg hlimit, ok_bind]
    by_cases hover : isizeMax + b.val < a.val
    · rw [if_pos (decide_eq_true hover), isizeExact_of_not_fits (by omega)]
    · have hfits : isizeMin ≤ a.val - b.val ∧ a.val - b.val ≤ isizeMax := by
        simp only [isizeMin, isizeMax] at hover ⊢
        omega
      rw [if_neg (mt of_decide_eq_true hover), isizeSub, isizeOf_eq hfits, ok_bind,
        isizeExact_of_fits hfits]
  · have hfits : isizeMin ≤ a.val - b.val ∧ a.val - b.val ≤ isizeMax := by
      simp only [isizeMin, isizeMax]
      omega
    rw [checkedSubIsize, testLimit_of_not (by omega), ok_bind,
      if_neg Bool.false_ne_true, testLimit_of_not (by omega), ok_bind,
      if_neg Bool.false_ne_true, isizeSub, isizeOf_eq hfits, ok_bind, isizeExact_of_fits hfits]
  · have hroom : isizeMin ≤ isizeMin + b.val ∧ isizeMin + b.val ≤ isizeMax := by
      simp only [isizeMin, isizeMax]
      omega
    have hlimit : isizeAdd isizeLeast b = .ok ⟨_, hroom⟩ := isizeOf_eq hroom
    rw [checkedSubIsize, testLimit_of hpos hlimit, ok_bind]
    by_cases hunder : a.val < isizeMin + b.val
    · rw [if_pos (decide_eq_true hunder), isizeExact_of_not_fits (by omega)]
    · have hfits : isizeMin ≤ a.val - b.val ∧ a.val - b.val ≤ isizeMax := by
        simp only [isizeMin, isizeMax] at hunder ⊢
        omega
      rw [if_neg (mt of_decide_eq_true hunder), testLimit_of_not (not_lt_of_gt hpos),
        ok_bind, if_neg Bool.false_ne_true, isizeSub, isizeOf_eq hfits, ok_bind,
        isizeExact_of_fits hfits]

/-- A truncated quotient of a limit that is not negative is below a value exactly when the
limit is below the product. -/
theorem tdiv_lt_iff {limit x d : Int} (hlimit : 0 ≤ limit) (hd : 0 < d) :
    limit.tdiv d < x ↔ limit < x * d := by
  rw [Int.tdiv_eq_ediv_of_nonneg hlimit, Int.ediv_lt_iff_lt_mul hd]

/-- A value is below the truncated quotient of a limit that is not positive exactly when the
product is below the limit. -/
theorem lt_tdiv_iff {limit x d : Int} (hlimit : limit ≤ 0) (hd : 0 < d) :
    x < limit.tdiv d ↔ x * d < limit := by
  have hneg : limit.tdiv d = -((-limit).tdiv d) := by rw [Int.neg_tdiv, neg_neg]
  have hmul : -x * d = -(x * d) := neg_mul x d
  rw [hneg, lt_neg, tdiv_lt_iff (by omega) hd, hmul]
  omega

/-- A product is taken when the test that guards it excludes exactly an overflow. -/
theorem guarded_product {a b : Isize} {outside : Bool}
    (h : outside = true ↔ ¬ (isizeMin ≤ a.val * b.val ∧ a.val * b.val ≤ isizeMax)) :
    (if outside then .ok none
      else do
        let product ← isizeMul a b
        .ok (some product)) =
      (.ok (isizeExact (a.val * b.val)) : Except String (Option Isize)) := by
  by_cases hfits : isizeMin ≤ a.val * b.val ∧ a.val * b.val ≤ isizeMax
  · rw [if_neg (mt h.mp (not_not.mpr hfits)), isizeMul, isizeOf_eq hfits, ok_bind,
      isizeExact_of_fits hfits]
  · rw [if_pos (h.mpr hfits), isizeExact_of_not_fits hfits]

section quadrants

variable {a b : Isize}

private theorem mul_bothPos (ha : 0 < a.val) (hb : 0 < b.val) {limit : Isize}
    (hlimit : limit.val = isizeMax.tdiv b.val) :
    limit.val < a.val ↔ ¬ (isizeMin ≤ a.val * b.val ∧ a.val * b.val ≤ isizeMax) := by
  have hpos : 0 < a.val * b.val := mul_pos ha hb
  rw [hlimit, tdiv_lt_iff (by decide) hb]
  simp only [isizeMin, isizeMax]
  omega

private theorem mul_bothNeg (ha : a.val < 0) (hb : b.val < 0) {limit : Isize}
    (hlimit : limit.val = isizeMax.tdiv b.val) :
    a.val < limit.val ↔ ¬ (isizeMin ≤ a.val * b.val ∧ a.val * b.val ≤ isizeMax) := by
  have hpos : 0 < a.val * b.val := mul_pos_of_neg_of_neg ha hb
  have hneg : isizeMax.tdiv b.val = -isizeMax.tdiv (-b.val) := by rw [Int.tdiv_neg, neg_neg]
  have hmul : -a.val * -b.val = a.val * b.val := neg_mul_neg a.val b.val
  rw [hlimit, hneg, lt_neg, tdiv_lt_iff (by decide) (by omega), hmul]
  simp only [isizeMin, isizeMax]
  omega

private theorem mul_posNeg (ha : 0 < a.val) (hb : b.val < 0) {limit : Isize}
    (hlimit : limit.val = isizeMin.tdiv a.val) :
    b.val < limit.val ↔ ¬ (isizeMin ≤ a.val * b.val ∧ a.val * b.val ≤ isizeMax) := by
  have hneg : a.val * b.val < 0 := mul_neg_of_pos_of_neg ha hb
  rw [hlimit, lt_tdiv_iff (by decide) ha, mul_comm]
  simp only [isizeMin, isizeMax]
  omega

private theorem mul_negPos (ha : a.val < 0) (hb : 0 < b.val) {limit : Isize}
    (hlimit : limit.val = isizeMin.tdiv b.val) :
    a.val < limit.val ↔ ¬ (isizeMin ≤ a.val * b.val ∧ a.val * b.val ≤ isizeMax) := by
  have hneg : a.val * b.val < 0 := mul_neg_of_neg_of_pos ha hb
  rw [hlimit, lt_tdiv_iff (by decide) hb]
  simp only [isizeMin, isizeMax]
  omega

end quadrants

/-- A product with the least `isize` overflows unless the other factor is zero or one. -/
theorem mul_isizeMin_not_fits {x : Int} (h0 : x ≠ 0) (h1 : x ≠ 1) :
    ¬ (isizeMin ≤ isizeMin * x ∧ isizeMin * x ≤ isizeMax) := by
  simp only [isizeMin, isizeMax]
  omega

/-- Away from zero, one and the least `isize` the test of the two signs decides. -/
private theorem checkedMulIsize_signs {a b : Isize} (ha0 : a.val ≠ 0) (hb0 : b.val ≠ 0)
    (ha1 : a.val ≠ 1) (hb1 : b.val ≠ 1) (hamin : a.val ≠ isizeMin) (hbmin : b.val ≠ isizeMin) :
    checkedMulIsize a b = .ok (isizeExact (a.val * b.val)) := by
  rw [checkedMulIsize, if_neg (not_or.mpr ⟨ha0, hb0⟩), if_neg ha1, if_neg hb1,
    if_neg (not_or.mpr ⟨hamin, hbmin⟩)]
  rcases lt_or_gt_of_ne ha0 with ha | ha <;> rcases lt_or_gt_of_ne hb0 with hb | hb
  · obtain ⟨limit, hdiv, hlimit⟩ := isizeDiv_eq (a := isizeGreatest) hb0 (.inl (by decide))
    rw [testLimit_of_not (by omega), ok_bind, if_neg Bool.false_ne_true,
      testLimit_of ⟨ha, hb⟩ hdiv, ok_bind,
      testLimit_of_not (by omega), ok_bind, if_neg Bool.false_ne_true,
      testLimit_of_not (by omega), ok_bind, if_neg Bool.false_ne_true]
    exact guarded_product (decide_eq_true_iff.trans (mul_bothNeg ha hb hlimit))
  · obtain ⟨limit, hdiv, hlimit⟩ := isizeDiv_eq (a := isizeLeast) hb0 (.inr (by omega))
    rw [testLimit_of_not (by omega), ok_bind, if_neg Bool.false_ne_true,
      testLimit_of_not (by omega), ok_bind, if_neg Bool.false_ne_true,
      testLimit_of_not (by omega), ok_bind, if_neg Bool.false_ne_true,
      testLimit_of ⟨ha, hb⟩ hdiv, ok_bind]
    exact guarded_product (decide_eq_true_iff.trans (mul_negPos ha hb hlimit))
  · obtain ⟨limit, hdiv, hlimit⟩ := isizeDiv_eq (a := isizeLeast) ha0 (.inr (by omega))
    rw [testLimit_of_not (by omega), ok_bind, if_neg Bool.false_ne_true,
      testLimit_of_not (by omega), ok_bind, if_neg Bool.false_ne_true,
      testLimit_of ⟨ha, hb⟩ hdiv, ok_bind,
      testLimit_of_not (by omega), ok_bind, if_neg Bool.false_ne_true]
    exact guarded_product (decide_eq_true_iff.trans (mul_posNeg ha hb hlimit))
  · obtain ⟨limit, hdiv, hlimit⟩ := isizeDiv_eq (a := isizeGreatest) hb0 (.inl (by decide))
    rw [testLimit_of ⟨ha, hb⟩ hdiv, ok_bind,
      testLimit_of_not (by omega), ok_bind, if_neg Bool.false_ne_true,
      testLimit_of_not (by omega), ok_bind, if_neg Bool.false_ne_true,
      testLimit_of_not (by omega), ok_bind, if_neg Bool.false_ne_true]
    exact guarded_product (decide_eq_true_iff.trans (mul_bothPos ha hb hlimit))

/-- A checked signed product is the exact one, and it is absent when that is no `isize`;
the tests divide neither by zero nor the least `isize` by minus one. -/
theorem checkedMulIsize_eq (a b : Isize) :
    checkedMulIsize a b = .ok (isizeExact (a.val * b.val)) := by
  by_cases h0 : a.val = 0 ∨ b.val = 0
  · have hzero : a.val * b.val = (0 : Isize).val := mul_eq_zero.mpr h0
    rw [checkedMulIsize, if_pos h0, hzero, isizeExact_val]
  by_cases ha1 : a.val = 1
  · rw [checkedMulIsize, if_neg h0, if_pos ha1, ha1, one_mul, isizeExact_val]
  by_cases hb1 : b.val = 1
  · rw [checkedMulIsize, if_neg h0, if_neg ha1, if_pos hb1, hb1, mul_one, isizeExact_val]
  obtain ⟨ha0, hb0⟩ := not_or.mp h0
  by_cases hmin : a.val = isizeMin ∨ b.val = isizeMin
  · have hover : ¬ (isizeMin ≤ a.val * b.val ∧ a.val * b.val ≤ isizeMax) := by
      rcases hmin with hmin | hmin
      · rw [hmin]
        exact mul_isizeMin_not_fits hb0 hb1
      · rw [hmin, mul_comm]
        exact mul_isizeMin_not_fits ha0 ha1
    rw [checkedMulIsize, if_neg h0, if_neg ha1, if_neg hb1, if_pos hmin,
      isizeExact_of_not_fits hover]
  · obtain ⟨hamin, hbmin⟩ := not_or.mp hmin
    exact checkedMulIsize_signs ha0 hb0 ha1 hb1 hamin hbmin

/-- For all arguments the portable checked operations succeed exactly when the integer
result is a value of the type and then store it, as the compiler builtins do, and no test
of theirs overflows or divides by zero. -/
theorem checked_fallbacks_exact (a b : Usize) (c d : Isize) :
    (Reports usizeValue (usizeValue a + usizeValue b) (kept (checkedAddStore a b)) ∧
      checkedAddStore a b = builtinResult usizeValue usizeCast (usizeValue a + usizeValue b)) ∧
    (Reports usizeValue (usizeValue a - usizeValue b) (kept (checkedSubStore a b)) ∧
      checkedSubStore a b = builtinResult usizeValue usizeCast (usizeValue a - usizeValue b)) ∧
    (∃ stored, checkedMulStore a b = .ok stored ∧
      Reports usizeValue (usizeValue a * usizeValue b) (kept stored) ∧
      stored = builtinResult usizeValue usizeCast (usizeValue a * usizeValue b)) ∧
    (∃ sum, checkedAddIsize c d = .ok sum ∧ Reports Subtype.val (c.val + d.val) sum ∧
      sum = kept (builtinResult Subtype.val isizeCast (c.val + d.val))) ∧
    (∃ diff, checkedSubIsize c d = .ok diff ∧ Reports Subtype.val (c.val - d.val) diff ∧
      diff = kept (builtinResult Subtype.val isizeCast (c.val - d.val))) ∧
    ∃ product, checkedMulIsize c d = .ok product ∧
      Reports Subtype.val (c.val * d.val) product ∧
      product = kept (builtinResult Subtype.val isizeCast (c.val * d.val)) := by
  have husize := reports_builtin usizeCast_value
  have hisize := reports_builtin isizeCast_value
  refine ⟨⟨?_, checkedAddStore_eq a b⟩, ⟨?_, checkedSubStore_eq a b⟩, ?_, ?_, ?_, ?_⟩
  · rw [checkedAddStore_eq]
    exact husize _
  · rw [checkedSubStore_eq]
    exact husize _
  · exact ⟨_, checkedMulStore_eq a b, husize _, rfl⟩
  · exact ⟨_, checkedAddIsize_eq c d, reports_isizeExact _,
      (reports_isizeExact _).unique (hisize _)⟩
  · exact ⟨_, checkedSubIsize_eq c d, reports_isizeExact _,
      (reports_isizeExact _).unique (hisize _)⟩
  · exact ⟨_, checkedMulIsize_eq c d, reports_isizeExact _,
      (reports_isizeExact _).unique (hisize _)⟩

end CanonC
