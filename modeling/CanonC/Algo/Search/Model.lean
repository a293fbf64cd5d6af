import CanonC.Core.Compare
import CanonC.Core.Memory

/-!
# The binary searches as the code computes them

Both bounds halve an interval of indices in `usize` arithmetic; they differ in whether an
element level with the key is passed over. The other searches are read off the bounds. A
read outside the array is a fault.
-/

namespace CanonC

variable {α Ctx : Type*}

/-- The fault of a loop that has not ended within the rounds allotted. -/
def searchUnfinished : String := "search loop did not end"

/-- The loop `while (low < high)` of both bounds, which goes on with the right half when
the comparison of the middle element with the key says so. -/
def algoBoundLoop (goRight : Int → Bool) (cmp : AlgoCmpFn α Ctx) (ctx : Ctx) (array : List α)
    (key : α) : Nat → Nat → Nat → Except String Nat
  | 0, _, _ => .error searchUnfinished
  | rounds + 1, low, high =>
    if low < high then
      let mid := usizeAdd low (usizeSub high low / 2)
      match readElem array mid with
      | .error e => .error e
      | .ok elem =>
        if goRight (cmp elem key ctx) then
          algoBoundLoop goRight cmp ctx array key rounds (usizeAdd mid 1) high
        else algoBoundLoop goRight cmp ctx array key rounds low mid
    else .ok low

/-- The rounds that halve every interval of `usize` values down to nothing. -/
def boundRounds : Nat := 65

/-- `algo_lower_bound_impl`. -/
def algoLowerBoundImpl (array : List α) (key : α) (cmp : AlgoCmpFn α Ctx) (ctx : Ctx) :
    Except String Nat :=
  algoBoundLoop (· < 0) cmp ctx array key boundRounds 0 array.length

/-- `algo_lower_bound`. -/
def algoLowerBound (array : List α) (elemSize : Nat) (key : α) (cmp : AlgoCmpFn α Ctx)
    (ctx : Ctx) : Except String Nat := do
  requireMsg (0 < elemSize) "algo_lower_bound: elem_size must be > 0"
  if array.length = 0 then .ok 0
  else algoLowerBoundImpl array key cmp ctx

/-- `algo_upper_bound`. -/
def algoUpperBound (array : List α) (elemSize : Nat) (key : α) (cmp : AlgoCmpFn α Ctx)
    (ctx : Ctx) : Except String Nat := do
  requireMsg (0 < elemSize) "algo_upper_bound: elem_size must be > 0"
  if array.length = 0 then .ok 0
  else algoBoundLoop (· ≤ 0) cmp ctx array key boundRounds 0 array.length

/-- `algo_find_sorted`. -/
def algoFindSorted (array : List α) (elemSize : Nat) (key : α) (cmp : AlgoCmpFn α Ctx)
    (ctx : Ctx) : Except String Nat := do
  requireMsg (0 < elemSize) "algo_find_sorted: elem_size must be > 0"
  if array.length = 0 then .ok usizeMax
  else do
    let pos ← algoLowerBoundImpl array key cmp ctx
    if pos < array.length then
      match readElem array pos with
      | .error e => .error e
      | .ok elem => if cmp elem key ctx = 0 then .ok pos else .ok usizeMax
    else .ok usizeMax

/-- `algo_binary_search`. -/
def algoBinarySearch (array : List α) (elemSize : Nat) (key : α) (cmp : AlgoCmpFn α Ctx)
    (ctx : Ctx) : Except String Bool := do
  let pos ← algoFindSorted array elemSize key cmp ctx
  .ok (pos ≠ usizeMax)

/-- `algo_equal_range`: the two bounds stored in the output array. -/
def algoEqualRange (array : List α) (elemSize : Nat) (key : α) (cmp : AlgoCmpFn α Ctx)
    (ctx : Ctx) : Except String (Nat × Nat) := do
  requireMsg (0 < elemSize) "algo_equal_range: elem_size must be > 0"
  if array.length = 0 then .ok (0, 0)
  else do
    let lower ← algoLowerBoundImpl array key cmp ctx
    let upper ← algoUpperBound array elemSize key cmp ctx
    .ok (lower, upper)

end CanonC
