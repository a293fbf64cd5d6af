import CanonC.Core.IntType
import CanonC.Data.Range.Counting
import CanonC.Data.Vec.Model

/-!
# Extension of a vector by the values of a range

The number of values is computed once, checked against the capacity and bounds the loop. Each
value is converted to the element type and back before it is stored.
-/

namespace CanonC

open Toolkit Toolkit.Progression

/-- The value is not kept by the conversion to the element type. -/
def vecRangeRejects (type : IntType) (value elem : Int) : Prop :=
  IntType.isize.convert elem ≠ value ∨ value < 0 ∧ ¬elem < type.convert 1

instance (type : IntType) (value elem : Int) : Decidable (vecRangeRejects type value elem) :=
  inferInstanceAs (Decidable (_ ∨ _))

/-- The last `n` rounds of the loop of `vec_extend_from_range`, from index `i` on: the slots it
leaves and whether it came to its end. -/
def vecExtendFromRangeLoop (type : IntType) (len : Nat) :
    Nat → Nat → Range → (Nat → Int) → Except String ((Nat → Int) × Bool)
  | 0, _, _, items => .ok (items, true)
  | n + 1, i, r, items => do
    let (value, r) ← rangeNext (some r)
    let elem := type.convert value.val
    if vecRangeRejects type value.val elem then .ok (items, false)
    else
      vecExtendFromRangeLoop type len n (i + 1) r (Function.update items (usizeAdd len i) elem)

/-- The number of values that `vec_extend_from_range` is to append. -/
def vecRangeCount (r : Range) : Except String Nat :=
  if r.step.val = 0 then .ok 0 else rangeLen (some r)

/-- `vec_extend_from_range`. -/
def vecExtendFromRange (type : IntType) (v : Vec Int) (r : Range) :
    Except String (Vec Int × Except Error Bool) :=
  match v.items with
  | none => .ok (v, .error .invalidArg)
  | some items =>
    if r.step.val = isizeMin then .ok (v, .error .invalidArg)
    else do
      let count ← vecRangeCount r
      match checkedAdd v.len count with
      | none => .ok (v, .error .overflow)
      | some total =>
        if total > v.capacity then .ok (v, .error .capacityExceeded)
        else do
          let (items, done) ← vecExtendFromRangeLoop type v.len count 0 r items
          if done then .ok ({ v with items := some items, len := total }, .ok true)
          else .ok ({ v with items := some items }, .error .outOfRange)

variable {type : IntType} {v : Vec Int} {r : Range} {items : Nat → Int} {len n : Nat}

/-- The value at an index of the range. -/
def Range.value (r : Range) (k : Nat) : Int := r.current.val + k * r.step.val

/-- The terms left of a range with any step. -/
theorem Range.near_value_iff (r : Range) (k : Nat) :
    Near r.step.val r.end_.val (r.value k) ↔ k < r.remaining := by
  by_cases h0 : r.step.val = 0
  · simp [Range.remaining, count, Near, h0]
  · exact Range.near_iff h0 k

/-- The check after the conversion finds the values that the element type does not have. -/
theorem vecRangeRejects_iff (type : IntType) (value : Isize) :
    vecRangeRejects type value.val (type.convert value.val) ↔ ¬type.Represents value.val := by
  rw [type.represents_iff_convert value, vecRangeRejects, not_and_or, not_not]

/-- One round stores the next value and goes on with the values behind it, or stops at a value that
the element type does not have. -/
theorem vecExtendFromRangeLoop_succ (type : IntType) (len n i : Nat) (items : Nat → Int)
    (hrem : 0 < r.remaining) : ∃ r' : Range, r'.remaining = r.remaining - 1 ∧
      (∀ k, k + 1 < r.remaining → r'.value k = r.value (k + 1)) ∧
      vecExtendFromRangeLoop type len (n + 1) i r items =
        if type.Represents (r.value 0) then vecExtendFromRangeLoop type len n (i + 1) r'
          (Function.update items (usizeAdd len i) (r.value 0))
        else .ok (items, false) := by
  have hnear := (r.near_value_iff 0).mpr hrem
  have hfirst : r.value 0 = r.current.val := by simp [Range.value]
  rw [hfirst] at hnear ⊢
  obtain ⟨r', hnext, -, hstep, hrem', hcurrent⟩ := rangeNext_remaining hnear
  refine ⟨r', hrem', ?_, ?_⟩
  · intro k hk
    rw [Range.value, Range.value, hcurrent (by omega), hstep]
    push_cast
    ring
  · have hround : vecExtendFromRangeLoop type len (n + 1) i r items =
        if vecRangeRejects type r.current.val (type.convert r.current.val) then .ok (items, false)
        else vecExtendFromRangeLoop type len n (i + 1) r'
          (Function.update items (usizeAdd len i) (type.convert r.current.val)) := by
      rw [vecExtendFromRangeLoop, hnext]
      rfl
    have hrejects := vecRangeRejects_iff type r.current
    rw [hround]
    by_cases hrep : type.Represents r.current.val
    · rw [if_neg fun h => hrejects.mp h hrep, if_pos hrep, IntType.convert_eq hrep]
    · rw [if_pos (hrejects.mpr hrep), if_neg hrep]

/-- The loop stores the values in order up to the first that the element type does not have,
and writes to no other slot than theirs. -/
theorem vecExtendFromRangeLoop_spec (n : Nat) : ∀ (i : Nat) (r : Range) (items : Nat → Int),
    r.remaining = n → len + i + n < usizeSize →
    ∃ items' done, vecExtendFromRangeLoop type len n i r items = .ok (items', done) ∧
      (done = true ↔ ∀ k < n, type.Represents (r.value k)) ∧
      (done = true → ∀ k < n, items' (len + i + k) = r.value k) ∧
      ∀ j, j < len + i ∨ len + i + n ≤ j → items' j = items j := by
  induction n with
  | zero => exact fun i r items _ _ => ⟨items, true, rfl, by simp, by simp, fun _ _ => rfl⟩
  | succ n ih =>
    intro i r items hrem hlt
    obtain ⟨r', hrem', hvalue, hround⟩ :=
      vecExtendFromRangeLoop_succ type len n i items (show 0 < r.remaining by omega)
    have hsplit : (∀ k < n + 1, type.Represents (r.value k)) ↔
        type.Represents (r.value 0) ∧ ∀ k < n, type.Represents (r'.value k) := by
      rw [Nat.forall_lt_succ_left]
      exact and_congr_right fun _ => forall₂_congr fun k hk => by rw [hvalue k (by omega)]
    rw [hround]
    by_cases hrep : type.Represents (r.value 0)
    · rw [if_pos hrep, usizeAdd_of_lt (by omega)]
      obtain ⟨items', done, hloop, hdone, hstored, hothers⟩ :=
        ih (i + 1) r' (Function.update items (len + i) (r.value 0)) (by omega) (by omega)
      refine ⟨items', done, hloop, ?_, fun hok k hk => ?_, fun j hj => ?_⟩
      · rw [hdone, hsplit]
        exact (and_iff_right hrep).symm
      · cases k with
        | zero => rw [hothers _ (by omega), Nat.add_zero, Function.update_self]
        | succ k =>
          rw [← hvalue k (by omega), ← hstored hok k (by omega)]
          congr 1
          omega
      · rw [hothers j (by omega), Function.update_of_ne (by omega)]
    · have hstop := iff_of_false Bool.false_ne_true fun hall => hrep (hsplit.mp hall).1
      exact ⟨items, false, if_neg hrep, hstop, fun h => absurd h Bool.false_ne_true,
        fun _ _ => rfl⟩

/-- The number of terms left is a `usize`. -/
theorem Range.remaining_lt (r : Range) : r.remaining < usizeSize := by
  have hcur := r.current.property
  have hend := r.end_.property
  have hsize : usizeSize = 18446744073709551616 := rfl
  have hle := Nat.div_le_self ((r.end_.val - r.current.val).natAbs - 1) r.step.val.natAbs
  simp only [isizeMin, isizeMax] at hcur hend
  rw [Range.remaining, count]
  split <;> omega

/-- The count that bounds the loop. -/
theorem vecRangeCount_eq (hmin : r.step.val ≠ isizeMin) :
    vecRangeCount r = .ok r.remaining := by
  rw [vecRangeCount]
  split
  · rename_i h0
    simp [Range.remaining, count, Near, h0]
  · exact rangeLen_eq hmin

/-- Why an extension is refused. -/
def vecRangeError (v : Vec Int) (r : Range) (count : Nat) : Error :=
  if r.step.val = isizeMin then .invalidArg
  else if usizeMax < v.len + count then .overflow
  else if v.capacity < v.len + count then .capacityExceeded
  else .outOfRange

/-- Without a buffer the extension is refused. -/
theorem vecExtendFromRange_of_null (type : IntType) (r : Range) (hitems : v.items = none) :
    vecExtendFromRange type v r = .ok (v, .error .invalidArg) := by
  rw [vecExtendFromRange, hitems]

/-- What the extension does to a vector with a buffer. -/
structure VecExtended (type : IntType) (r : Range) (v : Vec Int) (items : Nat → Int) (count : Nat)
    (w : Vec Int) (result : Except Error Bool) : Prop where
  /-- It succeeds exactly when the step can be negated, the values fit behind the elements and
  the element type has each of them. -/
  ok_iff : result = .ok true ↔ r.step.val ≠ isizeMin ∧ v.len + count ≤ v.capacity ∧
    ∀ k < count, type.Represents (r.value k)
  /-- It then appends them in order. -/
  appended : result = .ok true → w.elements = v.elements ++ (List.range count).map r.value
  /-- Otherwise it says why and leaves the elements alone. -/
  refused : result ≠ .ok true →
    result = .error (vecRangeError v r count) ∧ w.len = v.len ∧ w.elements = v.elements
  /-- The vector keeps its slots. -/
  capacity_eq : w.capacity = v.capacity
  /-- It writes to no slot of an element and to none at or beyond the capacity. -/
  kept : ∃ items', w.items = some items' ∧ ∀ j, j < v.len ∨ v.capacity ≤ j → items' j = items j

/-- A refusal that leaves the vector as it is. -/
theorem VecExtended.unchanged (hitems : v.items = some items)
    (hno : ¬(r.step.val ≠ isizeMin ∧ v.len + n ≤ v.capacity ∧
      ∀ k < n, type.Represents (r.value k))) :
    VecExtended type r v items n v (.error (vecRangeError v r n)) where
  ok_iff := iff_of_false nofun hno
  appended := nofun
  refused := fun _ => ⟨rfl, rfl, rfl⟩
  capacity_eq := rfl
  kept := ⟨items, hitems, fun _ _ => rfl⟩

/-- The extension of a vector with a buffer. -/
theorem vecExtendFromRange_spec (type : IntType) (r : Range) (hitems : v.items = some items)
    (hlen : v.len ≤ v.capacity) (hcap : v.capacity < usizeSize) :
    ∃ w result, vecExtendFromRange type v r = .ok (w, result) ∧
      VecExtended type r v items r.remaining w result := by
  have helements : v.elements = Cells.read items 0 v.len := by rw [Vec.elements, hitems]
  have hsize : usizeSize = usizeMax + 1 := rfl
  by_cases hmin : r.step.val = isizeMin
  · refine ⟨v, _, ?_, .unchanged hitems fun h => h.1 hmin⟩
    simp only [vecExtendFromRange, hitems, vecRangeError, if_pos hmin]
  have hadd := @checkedAdd_eq v.len r.remaining (by omega) r.remaining_lt
  by_cases hfits : v.len + r.remaining ≤ v.capacity
  · rw [if_pos (by omega)] at hadd
    obtain ⟨items', done, hloop, hdone, hstored, hothers⟩ :=
      @vecExtendFromRangeLoop_spec type v.len r.remaining 0 r items rfl (by omega)
    have hbelow : Cells.read items' 0 v.len = Cells.read items 0 v.len :=
      Cells.read_congr fun j _ hj => hothers j (by omega)
    cases done with
    | true =>
      refine ⟨{ v with items := some items', len := v.len + r.remaining }, .ok true, ?_, ?_,
        fun _ => ?_, fun h => absurd rfl h, rfl, items', rfl, fun j hj => hothers j (by omega)⟩
      · simp only [vecExtendFromRange, hitems, if_neg hmin, vecRangeCount_eq hmin, ok_bind, hadd,
          if_neg (Nat.not_lt.mpr hfits), hloop, if_true]
      · exact iff_of_true rfl ⟨hmin, hfits, hdone.mp rfl⟩
      · change Cells.read items' 0 (v.len + r.remaining) = _
        rw [helements, ← hbelow, Cells.read_add]
        congr 1
        apply List.map_congr_left
        intro k hk
        have hk' := hstored rfl k (List.mem_range.mp hk)
        rw [Nat.zero_add]
        exact hk'
    | false =>
      refine ⟨{ v with items := some items' }, .error .outOfRange, ?_, ?_, nofun,
        fun _ => ⟨?_, rfl, ?_⟩, rfl, items', rfl, fun j hj => hothers j (by omega)⟩
      · simp only [vecExtendFromRange, hitems, if_neg hmin, vecRangeCount_eq hmin, ok_bind, hadd,
          if_neg (Nat.not_lt.mpr hfits), hloop, Bool.false_eq_true, if_false]
      · exact iff_of_false nofun fun h => by simpa using hdone.mpr h.2.2
      · rw [vecRangeError, if_neg hmin, if_neg (by omega), if_neg (by omega)]
      · rw [helements, ← hbelow]
        rfl
  · -- Both refusals of the count leave the vector as it is.
    refine ⟨v, _, ?_, .unchanged hitems fun h => hfits h.2.1⟩
    simp only [vecExtendFromRange, hitems, if_neg hmin, vecRangeCount_eq hmin, ok_bind,
      vecRangeError]
    by_cases hover : v.len + r.remaining < usizeSize
    · rw [hadd, if_pos hover, if_neg (show ¬usizeMax < v.len + r.remaining by omega)]
      simp only [gt_iff_lt, if_pos (Nat.lt_of_not_le hfits)]
    · rw [hadd, if_neg hover, if_pos (show usizeMax < v.len + r.remaining by omega)]

/-- A vector without a buffer is refused every range, and one with a buffer is extended by the
values of the range or told why it is not. -/
theorem vecExtendFromRange_extends (type : IntType) (v : Vec Int) (r : Range)
    (hlen : v.len ≤ v.capacity) (hcap : v.capacity < usizeSize) :
    (v.items = none → vecExtendFromRange type v r = .ok (v, .error .invalidArg)) ∧
      ∀ items, v.items = some items → ∃ (count : Nat) (w : Vec Int) (result : Except Error Bool),
        (∀ k : Nat, Near r.step.val r.end_.val (r.value k) ↔ k < count) ∧
        vecExtendFromRange type v r = .ok (w, result) ∧
        VecExtended type r v items count w result := by
  refine ⟨vecExtendFromRange_of_null type r, fun items hitems => ?_⟩
  obtain ⟨w, result, hcall, hextended⟩ := vecExtendFromRange_spec type r hitems hlen hcap
  exact ⟨r.remaining, w, result, r.near_value_iff, hcall, hextended⟩

/-- Three values from 254 down into a vector of bytes. -/
theorem vecExtendFromRange_extends_bytes : ∃ w : Vec Int,
    vecExtendFromRange ⟨8, false, by decide⟩ ⟨some fun _ => 7, 1, 4⟩
        ⟨⟨254, by decide⟩, ⟨249, by decide⟩, ⟨-2, by decide⟩⟩ = .ok (w, .ok true) ∧
      w.elements = [7, 254, 252, 250] := by
  obtain ⟨count, w, result, hnear, hcall, hextended⟩ :=
    (vecExtendFromRange_extends ⟨8, false, by decide⟩ ⟨some fun _ => 7, 1, 4⟩
      ⟨⟨254, by decide⟩, ⟨249, by decide⟩, ⟨-2, by decide⟩⟩ (by decide) (by decide)).2 _ rfl
  have hlast : 2 < count := (hnear 2).mp (by decide)
  have hend : ¬ 3 < count := fun hlt => absurd ((hnear 3).mpr hlt) (by decide)
  obtain rfl : count = 3 := by omega
  have hok : result = .ok true := hextended.ok_iff.mpr ⟨by decide, by decide, by decide⟩
  exact ⟨w, hok ▸ hcall, hextended.appended hok⟩

/-- The empty vector refuses an empty range, which has no value that does not fit. -/
theorem vecExtendFromRange_null :
    vecExtendFromRange ⟨32, true, by decide⟩ ⟨none, 0, 0⟩ ⟨0, 0, 1⟩ =
        .ok (⟨none, 0, 0⟩, .error .invalidArg) ∧
      ∀ k : Nat, ¬Near 1 0 (Range.value ⟨0, 0, 1⟩ k) := by
  refine ⟨rfl, fun k hnear => ?_⟩
  have hcount := ((⟨0, 0, 1⟩ : Range).near_value_iff k).mp hnear
  exact absurd hcount (Nat.not_lt_zero k)

end CanonC
