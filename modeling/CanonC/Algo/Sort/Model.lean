import CanonC.Core.Compare
import CanonC.Core.Memory

/-!
# The hybrid sort as the code computes it

Insertion sort by adjacent exchanges, and merge sort through a scratch buffer that
hands ranges of fewer than sixteen elements to insertion sort. Every read and write of
the array and of the scratch buffer is checked against its length, and the context is
handed from one call of the comparator to the next.
-/

namespace CanonC

variable {α Ctx : Type*}

/-- `ALGO_SORT_SWAP_BUF_SIZE`. -/
def algoSortSwapBufSize : Nat := 256

/-- `algo_sort_swap` of the elements at two indices. -/
def algoSortSwap (base : List α) (a b elemSize : Nat) : Except String (List α) := do
  requireMsg (elemSize ≤ algoSortSwapBufSize)
    "algo_sort_swap: elem_size exceeds ALGO_SORT_SWAP_BUF_SIZE"
  let x ← readElem base a
  let y ← readElem base b
  let base ← writeElem base a y
  writeElem base b x

/-- The inner loop of `algo_insertion_sort_range`, from index `j` down to `left`. -/
def algoInsertionInner (cmp : AlgoCmpProc α Ctx) (elemSize left : Nat) :
    Nat → List α → Ctx → Except String (List α × Ctx)
  | 0, base, ctx => .ok (base, ctx)
  | j + 1, base, ctx =>
    if left < j + 1 then
      match readElem base j, readElem base (j + 1) with
      | .ok a, .ok b =>
        if (cmp a b ctx).1 ≤ 0 then .ok (base, (cmp a b ctx).2)
        else
          match algoSortSwap base j (j + 1) elemSize with
          | .ok base => algoInsertionInner cmp elemSize left j base (cmp a b ctx).2
          | .error e => .error e
      | .error e, _ => .error e
      | .ok _, .error e => .error e
    else .ok (base, ctx)

/-- The outer loop of `algo_insertion_sort_range`, from index `i` up to `right`. -/
def algoInsertionOuter (cmp : AlgoCmpProc α Ctx) (elemSize left right i : Nat) (base : List α)
    (ctx : Ctx) : Except String (List α × Ctx) :=
  if i < right then do
    let (base, ctx) ← algoInsertionInner cmp elemSize left i base ctx
    algoInsertionOuter cmp elemSize left right (i + 1) base ctx
  else .ok (base, ctx)
termination_by right - i

/-- `algo_insertion_sort_range`. -/
def algoInsertionSortRange (base : List α) (left right elemSize : Nat) (cmp : AlgoCmpProc α Ctx)
    (ctx : Ctx) : Except String (List α × Ctx) :=
  algoInsertionOuter cmp elemSize left right (left + 1) base ctx

/-- The first loop of `algo_merge`, while both halves have elements: the indices it
ends at, the scratch buffer and the context. -/
def algoMergeBoth (cmp : AlgoCmpProc α Ctx) (base : List α) (mid right i j k : Nat)
    (temp : List α) (ctx : Ctx) : Except String (Nat × Nat × Nat × List α × Ctx) :=
  if i < mid ∧ j < right then
    match readElem base i, readElem base j with
    | .ok le, .ok re =>
      if (cmp le re ctx).1 ≤ 0 then
        match writeElem temp k le with
        | .ok temp => algoMergeBoth cmp base mid right (i + 1) j (k + 1) temp (cmp le re ctx).2
        | .error e => .error e
      else
        match writeElem temp k re with
        | .ok temp => algoMergeBoth cmp base mid right i (j + 1) (k + 1) temp (cmp le re ctx).2
        | .error e => .error e
    | .error e, _ => .error e
    | .ok _, .error e => .error e
  else .ok (i, j, k, temp, ctx)
termination_by (mid - i) + (right - j)

/-- The second and the third loop of `algo_merge`: what is left of one half goes to the
scratch buffer. -/
def algoMergeRest (base : List α) (stop i k : Nat) (temp : List α) :
    Except String (Nat × List α) :=
  if i < stop then do
    let x ← readElem base i
    let temp ← writeElem temp k x
    algoMergeRest base stop (i + 1) (k + 1) temp
  else .ok (k, temp)
termination_by stop - i

/-- The rest of `algo_merge` behind its first loop: what is left of the halves goes to the scratch
buffer, and all of it back into the array. -/
def algoMergeBack (base : List α) (left mid right i j k : Nat) (temp : List α) :
    Except String (List α × List α) := do
  let (k, temp) ← algoMergeRest base mid i k temp
  let (_, temp) ← algoMergeRest base right j k temp
  let base ← copyElems base left temp (right - left)
  .ok (base, temp)

/-- `algo_merge`. -/
def algoMerge (base : List α) (left mid right : Nat) (cmp : AlgoCmpProc α Ctx) (temp : List α)
    (ctx : Ctx) : Except String (List α × List α × Ctx) := do
  let (i, j, k, temp, ctx) ← algoMergeBoth cmp base mid right left mid 0 temp ctx
  (algoMergeBack base left mid right i j k temp).map fun (base, temp) => (base, temp, ctx)

/-- `algo_merge_sort_range`. -/
def algoMergeSortRange (cmp : AlgoCmpProc α Ctx) (elemSize : Nat) (base : List α)
    (left right : Nat) (temp : List α) (ctx : Ctx) : Except String (List α × List α × Ctx) :=
  if right - left ≤ 1 then .ok (base, temp, ctx)
  else if right - left < 16 then do
    let (base, ctx) ← algoInsertionSortRange base left right elemSize cmp ctx
    .ok (base, temp, ctx)
  else do
    let mid := left + (right - left) / 2
    let (base, temp, ctx) ← algoMergeSortRange cmp elemSize base left mid temp ctx
    let (base, temp, ctx) ← algoMergeSortRange cmp elemSize base mid right temp ctx
    algoMerge base left mid right cmp temp ctx
termination_by right - left

/-- `algo_sort`: the array, the scratch buffer and the context it leaves. -/
def algoSortWith (base : List α) (elemSize : Nat) (cmp : AlgoCmpProc α Ctx) (ctx : Ctx)
    (tempBuffer : Option (List α)) : Except String (List α × Option (List α) × Ctx) := do
  requireMsg (0 < elemSize) "algo_sort: elem_size must be > 0"
  if base.length < 2 then .ok (base, tempBuffer, ctx)
  else
    match tempBuffer with
    | none => do
      let (base, ctx) ← algoInsertionSortRange base 0 base.length elemSize cmp ctx
      .ok (base, none, ctx)
    | some temp =>
      if base.length < 16 then do
        let (base, ctx) ← algoInsertionSortRange base 0 base.length elemSize cmp ctx
        .ok (base, some temp, ctx)
      else do
        let (base, temp, ctx) ← algoMergeSortRange cmp elemSize base 0 base.length temp ctx
        .ok (base, some temp, ctx)

/-- `algo_sort` with a comparator that leaves its context alone. -/
def algoSort (base : List α) (elemSize : Nat) (cmp : AlgoCmpFn α Ctx) (ctx : Ctx)
    (tempBuffer : Option (List α)) : Except String (List α × Option (List α)) :=
  (algoSortWith base elemSize cmp.call ctx tempBuffer).map fun (base, tempBuffer, _) =>
    (base, tempBuffer)

/-- The loop of `algo_is_sorted`, from index `i` on. -/
def algoIsSortedFrom (cmp : AlgoCmpFn α Ctx) (ctx : Ctx) (base : List α) (i : Nat) :
    Except String Bool :=
  if i < base.length then
    match readElem base (i - 1), readElem base i with
    | .ok x, .ok y =>
      if cmp x y ctx > 0 then .ok false else algoIsSortedFrom cmp ctx base (i + 1)
    | .error e, _ => .error e
    | .ok _, .error e => .error e
  else .ok true
termination_by base.length - i

/-- `algo_is_sorted`. -/
def algoIsSorted (base : List α) (elemSize : Nat) (cmp : AlgoCmpFn α Ctx) (ctx : Ctx) :
    Except String Bool := do
  requireMsg (0 < elemSize) "algo_is_sorted: elem_size must be > 0"
  if base.length < 2 then .ok true
  else algoIsSortedFrom cmp ctx base 1

end CanonC
