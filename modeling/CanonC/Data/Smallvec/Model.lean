import CanonC.Core.TypedMemory

/-!
# The inline-first vector as the code computes it

The elements lie in an array of the structure itself until it is full, and then in one object of
the heap or of an arena, whose capacity is fixed. A program declares vectors, copies inline ones by
value and calls each of them.
-/

namespace CanonC

open Toolkit

/-- The smallvec structure. -/
structure Smallvec where
  /-- The object of the spilled elements, absent for NULL. -/
  data : Option Nat
  /-- Number of elements. -/
  len : Nat
  /-- Number of elements that the active buffer has room for. -/
  cap : Nat
  /-- There is an arena to spill to. -/
  arena : Bool
  /-- The elements lie in the structure. -/
  usingInline : Bool
  /-- The array in the structure. -/
  inlineBuf : Nat

variable {α : Type}

/-- `smallvec_init` in a structure with the given array. -/
def smallvecInit (inlineCap inlineBuf : Nat) : Smallvec where
  data := none
  len := 0
  cap := inlineCap
  arena := false
  usingInline := true
  inlineBuf

/-- `smallvec_init_arena` in a structure with the given array. -/
def smallvecInitArena (inlineCap inlineBuf : Nat) : Smallvec :=
  { smallvecInit inlineCap inlineBuf with arena := true }

/-- `smallvec_buf_`. -/
def smallvecBuf (v : Smallvec) : Option Nat := if v.usingInline then some v.inlineBuf else v.data

/-- `arena_alloc_array`, where what the arena answers is left open. -/
def arenaAllocArray (size : Nat) (mem : TypedMemory α) (count : Nat) (answer : Option (Grant α)) :
    TypedMemory α × Option Nat :=
  if count ≤ usizeMax / size then mem.malloc (usizeMul size count) answer else (mem, none)

/-- The allocation of a spill. -/
def smallvecAlloc (size : Nat) (mem : TypedMemory α) (v : Smallvec) (newCap : Nat)
    (answer : Option (Grant α)) : TypedMemory α × Option Nat :=
  if v.arena then arenaAllocArray size mem newCap answer
  else mem.malloc (usizeMul newCap size) answer

/-- `smallvec_spill`: the memory and the vector left, and whether it has spilled. -/
def smallvecSpill (size : Nat) (mem : TypedMemory α) (v : Smallvec) (minCap : Nat)
    (answer : Option (Grant α)) : Except String (TypedMemory α × Smallvec × Bool) :=
  if !v.usingInline then .ok (mem, v, false)
  else
    let newCap := usizeMul v.cap 2
    let newCap := if newCap < minCap then minCap else newCap
    match smallvecAlloc size mem v newCap answer with
    | (mem, none) => .ok (mem, v, false)
    | (mem, some d) => do
      let mem ← memCopyElems size mem ⟨d, 0⟩ ⟨v.inlineBuf, 0⟩ (usizeMul v.len size)
      .ok (mem, { v with data := some d, cap := newCap, usingInline := false }, true)

/-- A value behind the elements. -/
def smallvecPut (size : Nat) (mem : TypedMemory α) (v : Smallvec) (value : α) :
    Except String (TypedMemory α × Smallvec) := do
  let p ← elemAt (smallvecBuf v) v.len
  let mem ← mem.write size p [value]
  .ok (mem, { v with len := usizeAdd v.len 1 })

/-- The spill of a push, where the vector is full. -/
def smallvecPushSpill (size : Nat) (mem : TypedMemory α) (v : Smallvec)
    (answer : Option (Grant α)) : Except String (TypedMemory α × Smallvec × Bool) :=
  if v.usingInline then smallvecSpill size mem v (usizeAdd v.len 1) answer else .ok (mem, v, true)

/-- `smallvec_push`. -/
def smallvecPush (size : Nat) (mem : TypedMemory α) (v : Smallvec) (value : α)
    (answer : Option (Grant α)) : Except String (TypedMemory α × Smallvec × Bool) :=
  if v.len < v.cap then do
    let (mem, v) ← smallvecPut size mem v value
    .ok (mem, v, true)
  else do
    let (mem, v, spilled) ← smallvecPushSpill size mem v answer
    if !spilled then .ok (mem, v, false)
    else if v.len ≥ v.cap then .ok (mem, v, false)
    else
      let (mem, v) ← smallvecPut size mem v value
      .ok (mem, v, true)

/-- `smallvec_pop`: the vector left, its result and what is written through `out`. -/
def smallvecPop (size : Nat) (mem : TypedMemory α) (v : Smallvec) (out : Bool) :
    Except String (Smallvec × Bool × Option α) :=
  if !out ∨ v.len = 0 then .ok (v, false, none)
  else do
    let p ← elemAt (smallvecBuf v) (v.len - 1)
    let xs ← mem.read size p 1
    .ok ({ v with len := v.len - 1 }, true, xs.head?)

/-- The room that an insertion or an extension makes sure of, where there is none. -/
def smallvecMakeRoom (size : Nat) (mem : TypedMemory α) (v : Smallvec) (full : Prop)
    [Decidable full] (minCap : Nat) (answer : Option (Grant α)) :
    Except String (TypedMemory α × Smallvec × Bool) :=
  if full then
    if !v.usingInline then .ok (mem, v, false) else smallvecSpill size mem v minCap answer
  else .ok (mem, v, true)

/-- `smallvec_insert`. -/
def smallvecInsert (size : Nat) (mem : TypedMemory α) (v : Smallvec) (i : Nat) (value : α)
    (answer : Option (Grant α)) : Except String (TypedMemory α × Smallvec × Bool) :=
  if i > v.len then .ok (mem, v, false)
  else do
    let (mem, v, room) ← smallvecMakeRoom size mem v (v.len = v.cap) (usizeAdd v.len 1) answer
    if !room then .ok (mem, v, false)
    else
      let mem ← shiftElems size mem (smallvecBuf v) v.len i
      let p ← elemAt (smallvecBuf v) i
      let mem ← mem.write size p [value]
      .ok (mem, { v with len := usizeAdd v.len 1 }, true)

/-- `smallvec_remove`: the memory and the vector left, its result and what is written through
`out`. -/
def smallvecRemove (size : Nat) (mem : TypedMemory α) (v : Smallvec) (i : Nat) (out : Bool) :
    Except String (TypedMemory α × Smallvec × Bool × Option α) :=
  if !out ∨ i ≥ v.len then .ok (mem, v, false, none)
  else do
    let p ← elemAt (smallvecBuf v) i
    let xs ← mem.read size p 1
    let mem ← closeElems size mem (smallvecBuf v) v.len i
    .ok (mem, { v with len := v.len - 1 }, true, xs.head?)

/-- `smallvec_extend`. -/
def smallvecExtend (size : Nat) (mem : TypedMemory α) (v : Smallvec) (src : Option Pointer)
    (count : Nat) (answer : Option (Grant α)) : Except String (TypedMemory α × Smallvec × Bool) :=
  match src with
  | none => .ok (mem, v, false)
  | some src =>
    if count = 0 then .ok (mem, v, true)
    else do
      let need := usizeAdd v.len count
      let (mem, v, room) ← smallvecMakeRoom size mem v (need > v.cap) need answer
      if !room then .ok (mem, v, false)
      else
        let dest ← elemAt (smallvecBuf v) v.len
        let mem ← memCopyElems size mem dest src (usizeMul count size)
        .ok (mem, { v with len := usizeAdd v.len count }, true)

/-- `smallvec_clear`. -/
def smallvecClear (v : Smallvec) : Smallvec := { v with len := 0 }

/-- `smallvec_free`. -/
def smallvecFree (inlineCap : Nat) (mem : TypedMemory α) (v : Smallvec) :
    Except String (TypedMemory α × Smallvec) :=
  if !v.usingInline ∧ !v.arena then do
    let mem ← mem.free v.data
    .ok (mem, smallvecInit inlineCap v.inlineBuf)
  else .ok (mem, smallvecInit inlineCap v.inlineBuf)

/-- The calls on a vector, each with the answer of the allocator. -/
inductive SmallvecCall (α : Type) where
  /-- `smallvec_push` -/
  | push (value : α) (answer : Option (Grant α))
  /-- `smallvec_pop` -/
  | pop (out : Bool)
  /-- `smallvec_insert` -/
  | insert (i : Usize) (value : α) (answer : Option (Grant α))
  /-- `smallvec_remove` -/
  | remove (i : Usize) (out : Bool)
  /-- `smallvec_extend` -/
  | extend (src : Option Pointer) (count : Usize) (answer : Option (Grant α))
  /-- `smallvec_clear` -/
  | clear
  /-- `smallvec_free` -/
  | free

/-- What a call answers. -/
structure SmallvecOut (α : Type) where
  ok : Bool
  /-- What is written through `out`. -/
  out : Option α

/-- One call on a vector: what it answers, and the memory and the vector left. -/
def smallvecCall (size inlineCap : Nat) (mem : TypedMemory α) (v : Smallvec) :
    SmallvecCall α → Except String (SmallvecOut α × TypedMemory α × Smallvec)
  | .push value answer => do
    let (mem, v, ok) ← smallvecPush size mem v value answer
    .ok (⟨ok, none⟩, mem, v)
  | .pop out => do
    let (v, ok, x) ← smallvecPop size mem v out
    .ok (⟨ok, x⟩, mem, v)
  | .insert i value answer => do
    let (mem, v, ok) ← smallvecInsert size mem v i value answer
    .ok (⟨ok, none⟩, mem, v)
  | .remove i out => do
    let (mem, v, ok, x) ← smallvecRemove size mem v i out
    .ok (⟨ok, x⟩, mem, v)
  | .extend src count answer => do
    let (mem, v, ok) ← smallvecExtend size mem v src count answer
    .ok (⟨ok, none⟩, mem, v)
  | .clear => .ok (⟨true, none⟩, mem, smallvecClear v)
  | .free => do
    let (mem, v) ← smallvecFree inlineCap mem v
    .ok (⟨true, none⟩, mem, v)

/-- What a program does, with the place of each structure that it declares. -/
inductive SmallvecOp (α : Type) where
  /-- A new vector, with an arena or without. -/
  | new (arena : Bool) (place : Grant α)
  /-- A copy by value. -/
  | copy (k : Nat) (place : Grant α)
  /-- A call on a vector. -/
  | on (k : Nat) (c : SmallvecCall α)
  /-- What other code does with other objects. -/
  | other (c : Store.Call α)

/-- The vectors and the objects of a program. -/
structure SmallvecState (α : Type) where
  mem : TypedMemory α
  vecs : List Smallvec

/-- One step of a program. -/
def smallvecRun (size inlineCap : Nat) (s : SmallvecState α) :
    SmallvecOp α → Except String (SmallvecOut α × SmallvecState α)
  | .new arena place =>
    match s.mem.malloc (inlineCap * size) (some place) with
    | (_, none) => .error notAllowed
    | (mem, some d) =>
      let v := if arena then smallvecInitArena inlineCap d else smallvecInit inlineCap d
      .ok (⟨true, none⟩, ⟨mem, s.vecs ++ [v]⟩)
  | .copy k place =>
    match s.vecs[k]? with
    | none => .error notAllowed
    | some v =>
      match s.mem.malloc (inlineCap * size) (some place) with
      | (_, none) => .error notAllowed
      | (mem, some d) => do
        let mem ← mem.move size ⟨d, 0⟩ ⟨v.inlineBuf, 0⟩ inlineCap
        .ok (⟨true, none⟩, ⟨mem, s.vecs ++ [{ v with inlineBuf := d }]⟩)
  | .on k c =>
    match s.vecs[k]? with
    | none => .error notAllowed
    | some v => do
      let (o, mem, v) ← smallvecCall size inlineCap s.mem v c
      .ok (o, ⟨mem, s.vecs.set k v⟩)
  | .other c => do
    let mem ← s.mem.call size c
    .ok (⟨true, none⟩, ⟨mem, s.vecs⟩)

/-- The call keeps to its contract: a source in the active buffer lies among the elements. -/
def SmallvecCall.allows (size : Nat) (mem : TypedMemory α) (v : Smallvec) : SmallvecCall α → Bool
  | .extend (some p) count _ =>
    count.val = 0 || if some p.object = smallvecBuf v then decide (p.index + count ≤ v.len)
      else mem.covers size p count
  | _ => true

/-- The step keeps to its contract: a structure has a place, only an inline vector is copied, and
other code leaves the objects of the vectors alone. -/
def SmallvecState.allows (size inlineCap : Nat) (s : SmallvecState α) : SmallvecOp α → Bool
  | .new _ place => (s.mem.malloc (inlineCap * size) (some place)).2.isSome
  | .copy k place => (s.vecs[k]?.any (·.usingInline)) &&
    (s.mem.malloc (inlineCap * size) (some place)).2.isSome
  | .on k c => s.vecs[k]?.any (c.allows size s.mem)
  | .other c => (c.target = none || s.vecs.all fun v =>
    c.target != some v.inlineBuf && c.target != v.data) && (s.mem.call size c).isOk

/-- One step that keeps to its contract. -/
def smallvecStep (size inlineCap : Nat) (s : SmallvecState α) (op : SmallvecOp α) :
    Except String (SmallvecOut α × SmallvecState α) :=
  if s.allows size inlineCap op then smallvecRun size inlineCap s op else .error notAllowed

end CanonC
