import CanonC.Core.Checked
import CanonC.Core.TypedMemory

/-!
# The growing vector as the code computes it

The elements lie in an object of the heap that grows by reallocation. Each call that may
allocate takes the answer of the allocator. The source of an extension may lie in the
object that is reallocated.
-/

namespace CanonC

open Toolkit

/-- `DYNVEC_INITIAL_CAPACITY`. -/
def dynvecInitialCapacity : Nat := 8

/-- `DYNVEC_GROWTH_FACTOR`. -/
def dynvecGrowthFactor : Nat := 2

/-- The dynvec structure. -/
structure Dynvec where
  /-- The object of the elements, absent for NULL. -/
  data : Option Nat
  /-- Number of elements. -/
  len : Nat
  /-- Number of elements that the object has room for. -/
  cap : Nat

variable {α : Type}

/-- `dynvec_init`. -/
def dynvecInit : Dynvec := ⟨none, 0, 0⟩

/-- `dynvec_grow`: the memory and the vector left, and whether it has grown. -/
def dynvecGrow (size : Nat) (mem : TypedMemory α) (v : Dynvec) (minCap : Nat)
    (answer : Option (Grant α)) : Except String (TypedMemory α × Dynvec × Bool) :=
  let newCap :=
    if v.cap ≠ 0 then (checkedMul v.cap dynvecGrowthFactor).getD minCap
    else dynvecInitialCapacity
  let newCap := if newCap < minCap then minCap else newCap
  match checkedMul newCap size with
  | none => .ok (mem, v, false)
  | some bytes => do
    let (mem, newData) ← Store.realloc size mem v.data bytes answer
    match newData with
    | none => .ok (mem, v, false)
    | some d => .ok (mem, { v with data := some d, cap := newCap }, true)

/-- `dynvec_with_capacity`. -/
def dynvecWithCapacity (size : Nat) (mem : TypedMemory α) (capacity : Nat)
    (answer : Option (Grant α)) : TypedMemory α × Dynvec :=
  if capacity = 0 then (mem, dynvecInit)
  else
    match checkedMul capacity size with
    | none => (mem, dynvecInit)
    | some bytes =>
      match mem.malloc bytes answer with
      | (mem, none) => (mem, dynvecInit)
      | (mem, some d) => (mem, { dynvecInit with data := some d, cap := capacity })

/-- `dynvec_set`. -/
def dynvecSet (size : Nat) (mem : TypedMemory α) (v : Dynvec) (i : Nat) (value : α) :
    Except String (TypedMemory α × Bool) :=
  if i ≥ v.len then .ok (mem, false)
  else do
    let p ← elemAt v.data i
    let mem ← mem.write size p [value]
    .ok (mem, true)

/-- The growth of a push or an insertion, where the vector is full. -/
def dynvecGrowFull (size : Nat) (mem : TypedMemory α) (v : Dynvec) (answer : Option (Grant α)) :
    Except String (TypedMemory α × Dynvec × Bool) :=
  if v.len ≥ v.cap then dynvecGrow size mem v (usizeAdd v.len 1) answer else .ok (mem, v, true)

/-- `dynvec_push`. -/
def dynvecPush (size : Nat) (mem : TypedMemory α) (v : Dynvec) (value : α)
    (answer : Option (Grant α)) : Except String (TypedMemory α × Dynvec × Bool) := do
  let (mem, v, grown) ← dynvecGrowFull size mem v answer
  if !grown then .ok (mem, v, false)
  else
    let p ← elemAt v.data v.len
    let mem ← mem.write size p [value]
    .ok (mem, { v with len := usizeAdd v.len 1 }, true)

/-- `dynvec_pop`: the vector left, its result and what is written through `out`. -/
def dynvecPop (size : Nat) (mem : TypedMemory α) (v : Dynvec) (out : Bool) :
    Except String (Dynvec × Bool × Option α) :=
  if !out ∨ v.len = 0 then .ok (v, false, none)
  else do
    let p ← elemAt v.data (v.len - 1)
    let xs ← mem.read size p 1
    .ok ({ v with len := v.len - 1 }, true, xs.head?)

/-- `dynvec_insert`. -/
def dynvecInsert (size : Nat) (mem : TypedMemory α) (v : Dynvec) (i : Nat) (value : α)
    (answer : Option (Grant α)) : Except String (TypedMemory α × Dynvec × Bool) :=
  if i > v.len then .ok (mem, v, false)
  else do
    let (mem, v, grown) ← dynvecGrowFull size mem v answer
    if !grown then .ok (mem, v, false)
    else
      let mem ← shiftElems size mem v.data v.len i
      let p ← elemAt v.data i
      let mem ← mem.write size p [value]
      .ok (mem, { v with len := usizeAdd v.len 1 }, true)

/-- `dynvec_remove`: the memory and the vector left, its result and what is written through
`out`. -/
def dynvecRemove (size : Nat) (mem : TypedMemory α) (v : Dynvec) (i : Nat) (out : Bool) :
    Except String (TypedMemory α × Dynvec × Bool × Option α) :=
  if !out ∨ i ≥ v.len then .ok (mem, v, false, none)
  else do
    let p ← elemAt v.data i
    let xs ← mem.read size p 1
    let mem ← closeElems size mem v.data v.len i
    .ok (mem, { v with len := v.len - 1 }, true, xs.head?)

/-- `dynvec_clear`. -/
def dynvecClear (v : Dynvec) : Dynvec := { v with len := 0 }

/-- The address of the elements, zero for NULL. -/
def dynvecAddress (size : Nat) (mem : TypedMemory α) (v : Dynvec) : Except String Nat :=
  match v.data with
  | none => .ok 0
  | some d => mem.address size ⟨d, 0⟩

/-- The growth of an extension: the memory and the vector left, whether there is room and the
source, which has moved with the elements if it was among them. -/
def dynvecGrowFor (size : Nat) (mem : TypedMemory α) (v : Dynvec) (src : Pointer) (need : Nat)
    (answer : Option (Grant α)) : Except String (TypedMemory α × Dynvec × Bool × Pointer) :=
  if need > v.cap then do
    let s ← mem.address size src
    let b ← dynvecAddress size mem v
    let inside := v.data.isSome && decide (s ≥ b) && decide (s - b < usizeMul v.cap size)
    let off := if inside then (s - b) / size else 0
    let (mem, v, grown) ← dynvecGrow size mem v need answer
    if grown && inside then
      let src ← elemAt v.data off
      .ok (mem, v, grown, src)
    else .ok (mem, v, grown, src)
  else .ok (mem, v, true, src)

/-- `dynvec_extend`. -/
def dynvecExtend (size : Nat) (mem : TypedMemory α) (v : Dynvec) (src : Option Pointer)
    (count : Nat) (answer : Option (Grant α)) : Except String (TypedMemory α × Dynvec × Bool) :=
  match src with
  | none => .ok (mem, v, false)
  | some src =>
    if count = 0 then .ok (mem, v, true)
    else
      match checkedAdd v.len count with
      | none => .ok (mem, v, false)
      | some need => do
        let (mem, v, grown, src) ← dynvecGrowFor size mem v src need answer
        if !grown then .ok (mem, v, false)
        else
          let dest ← elemAt v.data v.len
          let mem ← memCopyElems size mem dest src (usizeMul count size)
          .ok (mem, { v with len := usizeAdd v.len count }, true)

/-- `dynvec_reserve`. -/
def dynvecReserve (size : Nat) (mem : TypedMemory α) (v : Dynvec) (minCap : Nat)
    (answer : Option (Grant α)) : Except String (TypedMemory α × Dynvec × Bool) :=
  if v.cap ≥ minCap then .ok (mem, v, true) else dynvecGrow size mem v minCap answer

/-- `dynvec_shrink_to_fit`. -/
def dynvecShrinkToFit (size : Nat) (mem : TypedMemory α) (v : Dynvec)
    (answer : Option (Grant α)) : Except String (TypedMemory α × Dynvec × Bool) :=
  if v.len = v.cap then .ok (mem, v, true)
  else if v.len = 0 then do
    let mem ← mem.free v.data
    .ok (mem, { v with data := none, cap := 0 }, true)
  else do
    let (mem, newData) ← Store.realloc size mem v.data (usizeMul v.len size) answer
    match newData with
    | none => .ok (mem, v, false)
    | some d => .ok (mem, { v with data := some d, cap := v.len }, true)

/-- The calls on a vector, each with the answer of the allocator. -/
inductive DynvecOp (α : Type) where
  /-- `dynvec_push` -/
  | push (value : α) (answer : Option (Grant α))
  /-- `dynvec_pop`, with or without a place for the element -/
  | pop (out : Bool)
  /-- `dynvec_set` -/
  | set (i : Usize) (value : α)
  /-- `dynvec_insert` -/
  | insert (i : Usize) (value : α) (answer : Option (Grant α))
  /-- `dynvec_remove`, with or without a place for the element -/
  | remove (i : Usize) (out : Bool)
  /-- `dynvec_extend` -/
  | extend (src : Option Pointer) (count : Usize) (answer : Option (Grant α))
  /-- `dynvec_reserve` -/
  | reserve (minCap : Usize) (answer : Option (Grant α))
  /-- `dynvec_shrink_to_fit` -/
  | shrinkToFit (answer : Option (Grant α))
  /-- `dynvec_clear` -/
  | clear
  /-- What other code does with other objects. -/
  | other (c : Store.Call α)

/-- A vector and the objects of the program. -/
structure DynvecState (α : Type) where
  mem : TypedMemory α
  vec : Dynvec

/-- A program with a new vector. -/
def dynvecStart (size : Nat) (mem : TypedMemory α) (capacity : Nat) (answer : Option (Grant α)) :
    DynvecState α :=
  ⟨(dynvecWithCapacity size mem capacity answer).1, (dynvecWithCapacity size mem capacity answer).2⟩

/-- What a call answers. -/
structure DynvecOut (α : Type) where
  ok : Bool
  /-- What is written through `out`, if anything. -/
  out : Option α

/-- The call keeps to its contract: the source of an extension has the elements, and within the
vector they are live ones; other code leaves the vector alone and does what it may. -/
def DynvecState.allows (size : Nat) (s : DynvecState α) : DynvecOp α → Bool
  | .extend (some p) count _ =>
    count.val = 0 ||
      if some p.object = s.vec.data then decide (p.index + count ≤ s.vec.len)
      else s.mem.covers size p count
  | .other c => (c.target = none || c.target != s.vec.data) && (s.mem.call size c).isOk
  | _ => true

/-- One call. -/
def dynvecCall (size : Nat) (s : DynvecState α) :
    DynvecOp α → Except String (DynvecOut α × DynvecState α)
  | .push value answer => do
    let (mem, v, ok) ← dynvecPush size s.mem s.vec value answer
    .ok (⟨ok, none⟩, ⟨mem, v⟩)
  | .pop out => do
    let (v, ok, item) ← dynvecPop size s.mem s.vec out
    .ok (⟨ok, item⟩, ⟨s.mem, v⟩)
  | .set i value => do
    let (mem, ok) ← dynvecSet size s.mem s.vec i value
    .ok (⟨ok, none⟩, ⟨mem, s.vec⟩)
  | .insert i value answer => do
    let (mem, v, ok) ← dynvecInsert size s.mem s.vec i value answer
    .ok (⟨ok, none⟩, ⟨mem, v⟩)
  | .remove i out => do
    let (mem, v, ok, item) ← dynvecRemove size s.mem s.vec i out
    .ok (⟨ok, item⟩, ⟨mem, v⟩)
  | .extend src count answer => do
    let (mem, v, ok) ← dynvecExtend size s.mem s.vec src count answer
    .ok (⟨ok, none⟩, ⟨mem, v⟩)
  | .reserve minCap answer => do
    let (mem, v, ok) ← dynvecReserve size s.mem s.vec minCap answer
    .ok (⟨ok, none⟩, ⟨mem, v⟩)
  | .shrinkToFit answer => do
    let (mem, v, ok) ← dynvecShrinkToFit size s.mem s.vec answer
    .ok (⟨ok, none⟩, ⟨mem, v⟩)
  | .clear => .ok (⟨true, none⟩, ⟨s.mem, dynvecClear s.vec⟩)
  | .other c => do
    let mem ← s.mem.call size c
    .ok (⟨true, none⟩, ⟨mem, s.vec⟩)

/-- One call that keeps to its contract. -/
def dynvecStep (size : Nat) (s : DynvecState α) (op : DynvecOp α) :
    Except String (DynvecOut α × DynvecState α) :=
  if s.allows size op then dynvecCall size s op else .error notAllowed

end CanonC
