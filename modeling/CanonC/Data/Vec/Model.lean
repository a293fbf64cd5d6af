import CanonC.Core.Checked
import CanonC.Core.Memory
import CanonC.Toolkit.Cells

/-!
# The vector as the code computes it

A caller-owned buffer of fixed capacity with the number of its live elements. The three
tiers of a push are written out separately in the source, and so they are here. An absent
buffer is a NULL pointer; the slots behind the live elements hold no values to read.
-/

namespace CanonC

open Toolkit

/-- `CANON_VEC_MAX_CAPACITY`, in bytes. -/
def vecMaxCapacity : Nat := 2 ^ 30

/-- The vector structure. -/
structure Vec (α : Type*) where
  /-- Element storage. -/
  items : Option (Nat → α)
  /-- Number of live elements. -/
  len : Nat
  /-- Number of slots. -/
  capacity : Nat

/-- An array handed to a call. -/
inductive VecSource (α : Type*) where
  /-- NULL. -/
  | null
  /-- An array outside the vector. -/
  | array (xs : List α)
  /-- The slots of the vector itself from an index on. -/
  | slots (start : Usize)

variable {α : Type*}

/-- The live elements of a vector. -/
def Vec.elements (v : Vec α) : List α :=
  match v.items with
  | none => []
  | some items => Cells.read items 0 v.len

/-- `vec_init`. -/
def vecInit (fn : String) (buffer : Option (Nat → α)) (capacity elemSize : Nat) :
    Except String (Vec α) := do
  requireMsg (buffer.isSome ∨ capacity = 0) (fn ++ ": buffer cannot be NULL when capacity > 0")
  if capacity > vecMaxCapacity / elemSize then .ok ⟨none, 0, 0⟩
  else .ok ⟨buffer, 0, capacity⟩

/-- `vec_push`. -/
def vecPush (v : Vec α) (item : α) : Vec α × Except Error Bool :=
  match v.items with
  | none => (v, .error .invalidArg)
  | some items =>
    if v.len ≥ v.capacity then (v, .error .capacityExceeded)
    else ({ v with items := some (Function.update items v.len item), len := v.len + 1 }, .ok true)

/-- `vec_try_push`. -/
def vecTryPush (v : Vec α) (item : α) : Vec α × Bool :=
  match v.items with
  | none => (v, false)
  | some items =>
    if v.len ≥ v.capacity then (v, false)
    else ({ v with items := some (Function.update items v.len item), len := v.len + 1 }, true)

/-- `vec_push_unchecked`, with its assertions. -/
def vecPushUnchecked (fn : String) (v : Vec α) (item : α) : Except String (Vec α) :=
  match v.items with
  | none => .error (fn ++ ": v->items cannot be NULL")
  | some items => do
    requireMsg (v.len < v.capacity) (fn ++ ": vector is full")
    .ok { v with items := some (Function.update items v.len item), len := v.len + 1 }

/-- `vec_pop`: its result and what is written through `out`, if anything. -/
def vecPop (v : Vec α) (out : Bool) : Vec α × Except Error Bool × Option α :=
  if !out then (v, .error .invalidArg, none)
  else
    match v.items with
    | none => (v, .error .invalidArg, none)
    | some items =>
      if v.len = 0 then (v, .error .invalidState, none)
      else ({ v with len := v.len - 1 }, .ok true, some (items (v.len - 1)))

/-- `vec_pop_option`. -/
def vecPopOption (v : Vec α) : Vec α × Option α :=
  let (v, result, out) := vecPop v true
  if result.isOk then (v, out) else (v, none)

/-- `vec_clear`. -/
def vecClear (v : Vec α) : Vec α := { v with len := 0 }

/-- `vec_insert`. -/
def vecInsert (v : Vec α) (i : Nat) (item : α) : Vec α × Except Error Bool :=
  match v.items with
  | none => (v, .error .invalidArg)
  | some items =>
    if i > v.len then (v, .error .outOfRange)
    else if v.len ≥ v.capacity then (v, .error .capacityExceeded)
    else
      let items :=
        if i < v.len then Cells.write items (i + 1) (Cells.read items i (v.len - i)) else items
      ({ v with items := some (Function.update items i item), len := v.len + 1 }, .ok true)

/-- `vec_remove`: its result and what is written through `out`, if anything. -/
def vecRemove (v : Vec α) (i : Nat) (out : Bool) : Vec α × Except Error Bool × Option α :=
  match v.items with
  | none => (v, .error .invalidArg, none)
  | some items =>
    if !out then (v, .error .invalidArg, none)
    else if v.len = 0 then (v, .error .invalidState, none)
    else if i ≥ v.len then (v, .error .outOfRange, none)
    else
      let moved :=
        if i < v.len - 1 then Cells.write items i (Cells.read items (i + 1) (v.len - i - 1))
        else items
      ({ v with items := some moved, len := v.len - 1 }, .ok true, some (items i))

/-- `vec_remove_option`. -/
def vecRemoveOption (v : Vec α) (i : Nat) : Vec α × Option α :=
  let (v, result, out) := vecRemove v i true
  if result.isOk then (v, out) else (v, none)

/-- `mem_copy` of `count` elements to the slots from `dest` on. -/
def vecCopy (items : Nat → α) (len dest : Nat) (src : VecSource α) (count : Nat) :
    Except String (Nat → α) :=
  if count = 0 then .ok items
  else
    match src with
    | .null => .ok items
    | .array xs =>
      if count ≤ xs.length then .ok (Cells.write items dest (xs.take count))
      else .error outOfBounds
    | .slots start => do
      requireMsg (!memRegionsOverlap dest start count) "mem_copy: regions overlap — use mem_move"
      if start + count ≤ len then .ok (Cells.write items dest (Cells.read items start count))
      else .error outOfBounds

/-- `vec_append_array`. -/
def vecAppendArray (v : Vec α) (src : VecSource α) (count : Nat) :
    Except String (Vec α × Except Error Bool) :=
  match v.items, src with
  | none, _ => .ok (v, .error .invalidArg)
  | some _, .null => .ok (v, .error .invalidArg)
  | some items, src =>
    match checkedAdd v.len count with
    | none => .ok (v, .error .overflow)
    | some total =>
      if total > v.capacity then .ok (v, .error .capacityExceeded)
      else do
        let items ← vecCopy items v.len v.len src count
        .ok ({ v with items := some items, len := total }, .ok true)

/-- The loop of `vec_fill` from slot `i` behind the live elements on, over `left` slots. -/
def vecFillLoop (len : Nat) (value : α) : Nat → Nat → (Nat → α) → Nat → α
  | 0, _, items => items
  | left + 1, i, items =>
    vecFillLoop len value left (i + 1) (Function.update items (len + i) value)

/-- `vec_fill`. -/
def vecFill (v : Vec α) (value : α) (count : Nat) : Vec α :=
  match v.items with
  | none => v
  | some items =>
    let remaining := usizeSub v.capacity v.len
    let toFill := if count < remaining then count else remaining
    { v with
      items := some (vecFillLoop v.len value toFill 0 items)
      len := usizeAdd v.len toFill }

/-- The iterator structure. -/
structure VecIter (α : Type*) where
  vec : Vec α
  /-- Index of the next element. -/
  index : Nat

/-- `vec_iter_init`. -/
def vecIterInit (v : Vec α) : VecIter α := ⟨v, 0⟩

/-- `vec_iter_next`: its result, what is written through `out` and the iterator left. -/
def vecIterNext (it : VecIter α) (out : Bool) : Except String (Bool × Option α × VecIter α) :=
  if !out then .ok (false, none, it)
  else if it.index ≥ it.vec.len then .ok (false, none, it)
  else
    match it.vec.items with
    | none => .error outOfBounds
    | some items => .ok (true, some (items it.index), { it with index := it.index + 1 })

/-- The first `n` rounds of `while (vec_iter_next(&it, &out))`: the elements yielded. -/
def vecIterRounds : Nat → VecIter α → Except String (List α × VecIter α)
  | 0, it => .ok ([], it)
  | n + 1, it => do
    let (found, out, it) ← vecIterNext it true
    if found then
      let (xs, it) ← vecIterRounds n it
      .ok (out.toList ++ xs, it)
    else .ok ([], it)

/-- The slice structure. -/
structure VecSlice (α : Type*) where
  /-- The first element. -/
  items : Option (Nat → α)
  /-- Number of elements. -/
  len : Nat

/-- `vec_slice`. -/
def vecSlice (v : Vec α) (start stop : Nat) : VecSlice α :=
  if start > stop ∨ stop > v.len then ⟨none, 0⟩
  else ⟨v.items.map fun items k => items (start + k), stop - start⟩

/-- The calls on a vector. -/
inductive VecOp (α : Type*) where
  /-- `vec_push` -/
  | push (item : α)
  /-- `vec_try_push` -/
  | tryPush (item : α)
  /-- `vec_push_unchecked` -/
  | pushUnchecked (item : α)
  /-- `vec_pop`, with or without a place for the element -/
  | pop (out : Bool)
  /-- `vec_pop_option` -/
  | popOption
  /-- `vec_insert` -/
  | insert (i : Usize) (item : α)
  /-- `vec_remove`, with or without a place for the element -/
  | remove (i : Usize) (out : Bool)
  /-- `vec_remove_option` -/
  | removeOption (i : Usize)
  /-- `vec_append_array`, `vec_extend` -/
  | appendArray (src : VecSource α) (count : Usize)
  /-- `vec_fill` -/
  | fill (value : α) (count : Usize)
  /-- `vec_clear` -/
  | clear

/-- What a call answers. -/
inductive VecOut (α : Type*) where
  /-- A result and the element written, if any. -/
  | result (r : Except Error Bool) (out : Option α)
  /-- A flag. -/
  | flag (ok : Bool)
  /-- An optional element. -/
  | option (item : Option α)
  /-- Nothing. -/
  | done

/-- One call on the vector; `mangle` is the naming scheme of the generated functions. -/
def vecStep (mangle : String → String) (v : Vec α) : VecOp α → Except String (VecOut α × Vec α)
  | .push item => .ok (.result (vecPush v item).2 none, (vecPush v item).1)
  | .tryPush item => .ok (.flag (vecTryPush v item).2, (vecTryPush v item).1)
  | .pushUnchecked item => do
    let v ← vecPushUnchecked (mangle "push_unchecked") v item
    .ok (.done, v)
  | .pop out => .ok (.result (vecPop v out).2.1 (vecPop v out).2.2, (vecPop v out).1)
  | .popOption => .ok (.option (vecPopOption v).2, (vecPopOption v).1)
  | .insert i item => .ok (.result (vecInsert v i item).2 none, (vecInsert v i item).1)
  | .remove i out =>
    .ok (.result (vecRemove v i out).2.1 (vecRemove v i out).2.2, (vecRemove v i out).1)
  | .removeOption i => .ok (.option (vecRemoveOption v i).2, (vecRemoveOption v i).1)
  | .appendArray src count => do
    let (v, result) ← vecAppendArray v src count
    .ok (.result result none, v)
  | .fill value count => .ok (.done, vecFill v value count)
  | .clear => .ok (.done, vecClear v)

end CanonC
