import CanonC.Core.Compare
import CanonC.Core.Memory

/-!
# Removal of consecutive duplicates as the code computes it

One pass compares each element with the last one kept and moves it down when it differs.
-/

namespace CanonC

variable {α Ctx : Type*}

/-- The loop of `algo_unique`, from index `read` on: the array it leaves and how many
elements it keeps. -/
def algoUniqueLoop (cmp : AlgoCmpFn α Ctx) (ctx : Ctx) (len read : Nat) (array : List α)
    (write : Nat) : Except String (List α × Nat) :=
  if read < len then do
    let prev ← readElem array (write - 1)
    let curr ← readElem array read
    if cmp prev curr ctx ≠ 0 then
      if write ≠ read then do
        let array ← writeElem array write curr
        algoUniqueLoop cmp ctx len (read + 1) array (write + 1)
      else algoUniqueLoop cmp ctx len (read + 1) array (write + 1)
    else algoUniqueLoop cmp ctx len (read + 1) array write
  else .ok (array, write)
termination_by len - read

/-- `algo_unique` on the first `len` elements of an array: the array it leaves and the new
length. -/
def algoUnique (array : List α) (len elemSize : Nat) (cmp : AlgoCmpFn α Ctx) (ctx : Ctx) :
    Except String (List α × Nat) := do
  requireMsg (0 < elemSize) "algo_unique: elem_size must be > 0"
  if len ≤ 1 then .ok (array, len)
  else algoUniqueLoop cmp ctx len 1 array 1

end CanonC
