import CanonC.Core.Isize

/-!
# Checked arithmetic

A sum, a difference or a product of `usize` values, absent where the integer result is
none. The code looks at the wrapped result; on `usize` arguments this detects every
overflow. A signed operation is tested before it is carried out.
-/

namespace CanonC

/-- `checked_add`. -/
def checkedAdd (a b : Nat) : Option Nat :=
  if usizeAdd a b ≥ a then some (usizeAdd a b) else none

/-- `checked_sub`. -/
def checkedSub (a b : Nat) : Option Nat :=
  if b ≤ a then some (usizeSub a b) else none

/-- `checked_mul`. -/
def checkedMul (a b : Nat) : Option Nat :=
  if a = 0 ∨ b = 0 then some 0
  else if usizeMul a b / a ≠ b then none else some (usizeMul a b)

/-- The condition `a && x < limit` with a computed limit, which is evaluated only when the
first part holds. -/
def testLimit (cond : Bool) (limit : Except String Isize) (test : Isize → Bool) :
    Except String Bool :=
  if cond then do
    let bound ← limit
    .ok (test bound)
  else .ok false

/-- `checked_add_isize` without a compiler builtin. -/
def checkedAddIsize (a b : Isize) : Except String (Option Isize) := do
  let tooLarge ← testLimit (0 < a.val ∧ 0 < b.val) (isizeSub isizeGreatest a)
    fun limit => limit.val < b.val
  if tooLarge then .ok none
  else
    let tooSmall ← testLimit (a.val < 0 ∧ b.val < 0) (isizeSub isizeLeast a)
      fun limit => b.val < limit.val
    if tooSmall then .ok none
    else
      let sum ← isizeAdd a b
      .ok (some sum)

/-- `checked_sub_isize` without a compiler builtin. -/
def checkedSubIsize (a b : Isize) : Except String (Option Isize) := do
  let tooSmall ← testLimit (0 < b.val) (isizeAdd isizeLeast b) fun limit => a.val < limit.val
  if tooSmall then .ok none
  else
    let tooLarge ← testLimit (b.val < 0) (isizeAdd isizeGreatest b) fun limit => limit.val < a.val
    if tooLarge then .ok none
    else
      let diff ← isizeSub a b
      .ok (some diff)

/-- `checked_mul_isize` without a compiler builtin. -/
def checkedMulIsize (a b : Isize) : Except String (Option Isize) :=
  if a.val = 0 ∨ b.val = 0 then .ok (some 0)
  else if a.val = 1 then .ok (some b)
  else if b.val = 1 then .ok (some a)
  else if a.val = isizeMin ∨ b.val = isizeMin then .ok none
  else do
    let bothPos ← testLimit (0 < a.val ∧ 0 < b.val) (isizeDiv isizeGreatest b)
      fun limit => limit.val < a.val
    if bothPos then .ok none
    else
      let bothNeg ← testLimit (a.val < 0 ∧ b.val < 0) (isizeDiv isizeGreatest b)
        fun limit => a.val < limit.val
      if bothNeg then .ok none
      else
        let posNeg ← testLimit (0 < a.val ∧ b.val < 0) (isizeDiv isizeLeast a)
          fun limit => b.val < limit.val
        if posNeg then .ok none
        else
          let negPos ← testLimit (a.val < 0 ∧ 0 < b.val) (isizeDiv isizeLeast b)
            fun limit => a.val < limit.val
          if negPos then .ok none
          else
            let product ← isizeMul a b
            .ok (some product)

/-- A checked sum is the exact one, and it is absent when that is no `usize`. -/
theorem checkedAdd_eq {a b : Nat} (ha : a < usizeSize) (hb : b < usizeSize) :
    checkedAdd a b = if a + b < usizeSize then some (a + b) else none := by
  by_cases h : a + b < usizeSize
  · rw [checkedAdd, usizeAdd_of_lt h, if_pos (Nat.le_add_right a b), if_pos h]
  · have hwrap : usizeAdd a b = a + b - usizeSize := by
      rw [usizeAdd, Nat.mod_eq_sub_mod (by omega), Nat.mod_eq_of_lt (by omega)]
    rw [checkedAdd, hwrap, if_neg (by omega), if_neg h]

/-- A checked difference is the exact one, and it is absent when that is negative. -/
theorem checkedSub_eq {a b : Nat} (ha : a < usizeSize) :
    checkedSub a b = if b ≤ a then some (a - b) else none := by
  by_cases h : b ≤ a
  · rw [checkedSub, if_pos h, if_pos h, usizeSub_of_le h ha]
  · rw [checkedSub, if_neg h, if_neg h]

/-- A checked product is the exact one, and it is absent when that is no `usize`. -/
theorem checkedMul_eq (a b : Nat) :
    checkedMul a b = if a * b < usizeSize then some (a * b) else none := by
  by_cases h0 : a = 0 ∨ b = 0
  · have hab : a * b = 0 := Nat.mul_eq_zero.mpr h0
    rw [checkedMul, if_pos h0, hab, if_pos (by decide)]
  · rw [not_or] at h0
    have ha : 0 < a := Nat.pos_of_ne_zero h0.1
    rw [checkedMul, if_neg (by simpa [not_or] using h0)]
    by_cases h : a * b < usizeSize
    · rw [usizeMul_of_lt h, Nat.mul_div_cancel_left b ha, if_neg (by simp), if_pos h]
    · have hne : usizeMul a b / a ≠ b := by
        intro he
        -- The wrapped product is smaller than the exact one by a multiple of `usizeSize`.
        have hle : a * b ≤ usizeMul a b := by
          calc a * b = a * (usizeMul a b / a) := by rw [he]
            _ ≤ usizeMul a b := Nat.mul_div_le _ _
        have hlt : usizeMul a b < usizeSize := Nat.mod_lt _ (by decide)
        omega
      rw [if_pos hne, if_neg h]

/-- A checked product that is there is the exact one. -/
theorem checkedMul_eq_some {a b c : Nat} :
    checkedMul a b = some c ↔ a * b < usizeSize ∧ a * b = c := by
  rw [checkedMul_eq]
  by_cases h : a * b < usizeSize
  · simp [h]
  · simp [h]

/-- A limit that is not needed is not computed. -/
theorem testLimit_of_not {p : Prop} [Decidable p] {limit : Except String Isize}
    {test : Isize → Bool} (h : ¬ p) : testLimit (decide p) limit test = .ok false := by
  rw [decide_eq_false h]
  rfl

/-- A limit that is needed decides the condition. -/
theorem testLimit_of {p : Prop} [Decidable p] {limit : Except String Isize}
    {test : Isize → Bool} {bound : Isize} (h : p) (hlimit : limit = .ok bound) :
    testLimit (decide p) limit test = .ok (test bound) := by
  rw [decide_eq_true h, testLimit, if_pos rfl, hlimit, ok_bind]

/-- A checked signed sum is the exact one, and it is absent when that is no `isize`; the
test itself never overflows. -/
theorem checkedAddIsize_eq (a b : Isize) :
    checkedAddIsize a b = .ok (if h : isizeMin ≤ a.val + b.val ∧ a.val + b.val ≤ isizeMax then
      some ⟨a.val + b.val, h⟩ else none) := by
  have ha := a.property
  have hb := b.property
  by_cases hpos : 0 < a.val ∧ 0 < b.val
  · have hneg : ¬ (a.val < 0 ∧ b.val < 0) := by omega
    have hroom : isizeMin ≤ isizeMax - a.val ∧ isizeMax - a.val ≤ isizeMax := by
      simp only [isizeMin, isizeMax] at ha ⊢
      omega
    have hlimit : isizeSub isizeGreatest a = .ok ⟨_, hroom⟩ := isizeOf_eq hroom
    rw [checkedAddIsize, testLimit_of hpos hlimit, ok_bind]
    by_cases hover : isizeMax - a.val < b.val
    · rw [dif_neg (by omega), if_pos (decide_eq_true hover)]
    · have hfits : isizeMin ≤ a.val + b.val ∧ a.val + b.val ≤ isizeMax := by omega
      rw [dif_pos hfits, if_neg (mt of_decide_eq_true hover), testLimit_of_not hneg, ok_bind,
        if_neg Bool.false_ne_true, isizeAdd, isizeOf_eq hfits, ok_bind]
  · rw [checkedAddIsize, testLimit_of_not hpos, ok_bind, if_neg Bool.false_ne_true]
    by_cases hneg : a.val < 0 ∧ b.val < 0
    · have hroom : isizeMin ≤ isizeMin - a.val ∧ isizeMin - a.val ≤ isizeMax := by
        simp only [isizeMin, isizeMax] at ha ⊢
        omega
      have hlimit : isizeSub isizeLeast a = .ok ⟨_, hroom⟩ := isizeOf_eq hroom
      rw [testLimit_of hneg hlimit, ok_bind]
      by_cases hunder : b.val < isizeMin - a.val
      · rw [dif_neg (by omega), if_pos (decide_eq_true hunder)]
      · have hfits : isizeMin ≤ a.val + b.val ∧ a.val + b.val ≤ isizeMax := by omega
        rw [dif_pos hfits, if_neg (mt of_decide_eq_true hunder), isizeAdd, isizeOf_eq hfits,
          ok_bind]
    · have hfits : isizeMin ≤ a.val + b.val ∧ a.val + b.val ≤ isizeMax := by omega
      rw [testLimit_of_not hneg, ok_bind, if_neg Bool.false_ne_true, dif_pos hfits, isizeAdd,
        isizeOf_eq hfits, ok_bind]

end CanonC
