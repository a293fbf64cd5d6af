import CanonC.Core.Memory

/-!
# The scans with a predicate as the code computes them

The predicate is a function pointer with a context that it may change. The generic functions step
through the array by the size of its elements, the ones for slices by the index; both read each
element once, from the left, and stop as soon as the result is known.
-/

namespace CanonC

variable {α Ctx : Type*}

/-- `algo_pred_fn`: the answer about an element, and the context it leaves. -/
abbrev AlgoPredFn (α Ctx : Type*) := α → Ctx → Bool × Ctx

/-- The loop of `algo_filter` and of `algo_filter_slice`, from element `i` on with `written`
elements in the output. -/
def algoFilterLoop (pred : AlgoPredFn α Ctx) (outCap : Nat) (base : List α) (i written : Nat)
    (out : List α) (ctx : Ctx) : Except String (List α × Nat × Ctx) :=
  if i < base.length then
    match readElem base i with
    | .error e => .error e
    | .ok elem =>
      if (pred elem ctx).1 then
        match writeElem out written elem with
        | .error e => .error e
        | .ok out =>
          if written + 1 ≥ outCap then .ok (out, written + 1, (pred elem ctx).2)
          else algoFilterLoop pred outCap base (i + 1) (written + 1) out (pred elem ctx).2
      else algoFilterLoop pred outCap base (i + 1) written out (pred elem ctx).2
  else .ok (out, written, ctx)
termination_by base.length - i

/-- `algo_filter`: the output, the number of elements written, and the context. -/
def algoFilter (out : List α) (outCap : Nat) (base : List α) (elemSize : Nat)
    (pred : AlgoPredFn α Ctx) (ctx : Ctx) : Except String (List α × Nat × Ctx) := do
  requireMsg (0 < elemSize) "algo_filter: elem_size must be > 0"
  if base.length = 0 ∨ outCap = 0 then .ok (out, 0, ctx)
  else algoFilterLoop pred outCap base 0 0 out ctx

/-- `algo_filter_slice`. -/
def algoFilterSlice (out : List α) (outCap : Nat) (sv : List α) (pred : AlgoPredFn α Ctx)
    (ctx : Ctx) : Except String (List α × Nat × Ctx) :=
  if sv.length = 0 ∨ outCap = 0 then .ok (out, 0, ctx)
  else algoFilterLoop pred outCap sv 0 0 out ctx

/-- The loop of the searches, from element `i` on: the index of the first element with the answer
`stop`, and the context. -/
def algoSearchLoop (pred : AlgoPredFn α Ctx) (stop : Bool) (base : List α) (i : Nat) (ctx : Ctx) :
    Except String (Option Nat × Ctx) :=
  if i < base.length then
    match readElem base i with
    | .error e => .error e
    | .ok elem =>
      if (pred elem ctx).1 = stop then .ok (some i, (pred elem ctx).2)
      else algoSearchLoop pred stop base (i + 1) (pred elem ctx).2
  else .ok (none, ctx)
termination_by base.length - i

/-- `algo_any`. -/
def algoAny (base : List α) (elemSize : Nat) (pred : AlgoPredFn α Ctx) (ctx : Ctx) :
    Except String (Bool × Ctx) := do
  requireMsg (0 < elemSize) "algo_any: elem_size must be > 0"
  let (found, ctx) ← algoSearchLoop pred true base 0 ctx
  .ok (found.isSome, ctx)

/-- `algo_any_slice`. -/
def algoAnySlice (sv : List α) (pred : AlgoPredFn α Ctx) (ctx : Ctx) :
    Except String (Bool × Ctx) := do
  let (found, ctx) ← algoSearchLoop pred true sv 0 ctx
  .ok (found.isSome, ctx)

/-- `algo_all`. -/
def algoAll (base : List α) (elemSize : Nat) (pred : AlgoPredFn α Ctx) (ctx : Ctx) :
    Except String (Bool × Ctx) := do
  requireMsg (0 < elemSize) "algo_all: elem_size must be > 0"
  let (found, ctx) ← algoSearchLoop pred false base 0 ctx
  .ok (found.isNone, ctx)

/-- `algo_all_slice`. -/
def algoAllSlice (sv : List α) (pred : AlgoPredFn α Ctx) (ctx : Ctx) :
    Except String (Bool × Ctx) := do
  let (found, ctx) ← algoSearchLoop pred false sv 0 ctx
  .ok (found.isNone, ctx)

/-- `algo_find`, with or without a place for the index and for the address of the element: the
flag, what is written to the two places, an address as the index of its element, and the
context. -/
def algoFind (base : List α) (elemSize : Nat) (pred : AlgoPredFn α Ctx) (ctx : Ctx)
    (outIndex outElem : Bool) : Except String (Bool × Option Nat × Option Nat × Ctx) := do
  requireMsg (0 < elemSize) "algo_find: elem_size must be > 0"
  if base.length = 0 then .ok (false, none, none, ctx)
  else do
    let (found, ctx) ← algoSearchLoop pred true base 0 ctx
    .ok (found.isSome, if outIndex then found else none, if outElem then found else none, ctx)

/-- `algo_find_slice`. -/
def algoFindSlice (sv : List α) (pred : AlgoPredFn α Ctx) (ctx : Ctx) :
    Except String (Option α × Ctx) :=
  match algoSearchLoop pred true sv 0 ctx with
  | .error e => .error e
  | .ok (none, ctx) => .ok (none, ctx)
  | .ok (some i, ctx) =>
    match readElem sv i with
    | .error e => .error e
    | .ok elem => .ok (some elem, ctx)

/-- `algo_find_index_slice`. -/
def algoFindIndexSlice (sv : List α) (pred : AlgoPredFn α Ctx) (ctx : Ctx) :
    Except String (Nat × Ctx) := do
  let (found, ctx) ← algoSearchLoop pred true sv 0 ctx
  .ok (found.getD usizeMax, ctx)

end CanonC
