import CanonC.Core.Checked
import CanonC.Core.TypedMemory

/-!
# The growing string as the code computes it

The bytes lie in an object of the heap behind which a terminator is kept. An append allocates
a new object and gives the old one back after the copy, for the source may lie in it; the
other calls reallocate.
-/

namespace CanonC

open Toolkit

/-- `DYNSTRING_INITIAL_CAPACITY`. -/
def dynstringInitialCapacity : Nat := 64

/-- `DYNSTRING_GROWTH_FACTOR`. -/
def dynstringGrowthFactor : Nat := 2

/-- The DynString structure. -/
structure Dynstring where
  /-- The object of the bytes, absent for NULL. -/
  data : Option Nat
  /-- Number of bytes before the terminator. -/
  len : Nat
  /-- Number of bytes of the object. -/
  cap : Nat

/-- The objects of a program as bytes. -/
abbrev ByteMemory : Type := TypedMemory UInt8

/-- The loop of `strlen` and of `dynstring_append_n`: the number of bytes before a NUL, at most
`left` more. -/
def scanNul (mem : ByteMemory) (p : Pointer) : Nat → Nat → Except String Nat
  | 0, i => .ok i
  | left + 1, i => do
    let c ← mem.read 1 ⟨p.object, p.index + i⟩ 1
    if c = [0] then .ok i else scanNul mem p left (i + 1)

/-- `strlen` of a string in an object: no object is larger than `PTRDIFF_MAX`. -/
def strlenAt (mem : ByteMemory) (p : Pointer) : Except String Nat :=
  scanNul mem p (ptrdiffMax + 1) 0

/-- `dynstring_next_cap_`. -/
def dynstringNextCap (s : Dynstring) (minCap : Nat) : Nat :=
  let newCap :=
    if s.cap ≠ 0 then (checkedMul s.cap dynstringGrowthFactor).getD minCap
    else dynstringInitialCapacity
  if newCap < minCap then minCap else newCap

/-- `dynstring_grow_detached_`: the memory and the string left, the object to give back later and
whether there is room. -/
def dynstringGrowDetached (mem : ByteMemory) (s : Dynstring) (minCap : Nat)
    (answer : Option (Grant UInt8)) : Except String (ByteMemory × Dynstring × Option Nat × Bool) :=
  if s.cap ≥ minCap then .ok (mem, s, none, true)
  else
    let newCap := dynstringNextCap s minCap
    match mem.malloc newCap answer with
    | (mem, none) => .ok (mem, s, none, false)
    | (mem, some newData) =>
      match s.data with
      | some old => do
        let mem ← memCopyElems 1 mem ⟨newData, 0⟩ ⟨old, 0⟩ (usizeAdd s.len 1)
        .ok (mem, { s with data := some newData, cap := newCap }, some old, true)
      | none => do
        let mem ← mem.write 1 ⟨newData, 0⟩ [0]
        .ok (mem, { s with data := some newData, cap := newCap }, none, true)

/-- `dynstring_ensure_capacity`. -/
def dynstringEnsureCapacity (mem : ByteMemory) (s : Dynstring) (minCap : Nat)
    (answer : Option (Grant UInt8)) : Except String (ByteMemory × Dynstring × Bool) :=
  if s.cap ≥ minCap then .ok (mem, s, true)
  else do
    let newCap := dynstringNextCap s minCap
    let (mem, newData) ← Store.realloc 1 mem s.data newCap answer
    match newData, s.data with
    | none, _ => .ok (mem, s, false)
    | some d, some _ => .ok (mem, { s with data := some d, cap := newCap }, true)
    | some d, none =>
      let mem ← mem.write 1 ⟨d, 0⟩ [0]
      .ok (mem, { s with data := some d, cap := newCap }, true)

/-- `dynstring_init`. -/
def dynstringInit : Dynstring := ⟨none, 0, 0⟩

/-- `dynstring_with_capacity`. -/
def dynstringWithCapacity (mem : ByteMemory) (capacity : Nat) (answer : Option (Grant UInt8)) :
    Except String (ByteMemory × Dynstring) :=
  if capacity = 0 then .ok (mem, dynstringInit)
  else
    match mem.malloc capacity answer with
    | (mem, none) => .ok (mem, dynstringInit)
    | (mem, some d) => do
      let mem ← mem.write 1 ⟨d, 0⟩ [0]
      .ok (mem, { dynstringInit with data := some d, cap := capacity })

/-- `dynstring_from`. -/
def dynstringFrom (mem : ByteMemory) (str : Option Pointer) (answer : Option (Grant UInt8)) :
    Except String (ByteMemory × Dynstring) :=
  match str with
  | none => .ok (mem, dynstringInit)
  | some str => do
    let len ← strlenAt mem str
    let cap := usizeAdd len 1
    match mem.malloc cap answer with
    | (mem, none) => .ok (mem, dynstringInit)
    | (mem, some d) =>
      let mem ← memCopyElems 1 mem ⟨d, 0⟩ str (usizeAdd len 1)
      .ok (mem, ⟨some d, len, cap⟩)

/-- The append of a number of bytes, common to `dynstring_append` and `dynstring_append_n`. -/
def dynstringAppendBytes (mem : ByteMemory) (s : Dynstring) (str : Pointer) (addLen : Nat)
    (answer : Option (Grant UInt8)) : Except String (ByteMemory × Dynstring × Bool) :=
  if addLen = 0 then .ok (mem, s, true)
  else do
    let requiredCap := usizeAdd (usizeAdd s.len addLen) 1
    let (mem, s, old, grown) ← dynstringGrowDetached mem s requiredCap answer
    if !grown then .ok (mem, s, false)
    else
      let dest ← elemAt s.data s.len
      let mem ← memCopyElems 1 mem dest str addLen
      let s := { s with len := usizeAdd s.len addLen }
      let term ← elemAt s.data s.len
      let mem ← mem.write 1 term [0]
      let mem ← mem.free old
      .ok (mem, s, true)

/-- `dynstring_append`. -/
def dynstringAppend (mem : ByteMemory) (s : Dynstring) (str : Option Pointer)
    (answer : Option (Grant UInt8)) : Except String (ByteMemory × Dynstring × Bool) :=
  match str with
  | none => .ok (mem, s, true)
  | some str => do
    let addLen ← strlenAt mem str
    dynstringAppendBytes mem s str addLen answer

/-- `dynstring_append_n`. -/
def dynstringAppendN (mem : ByteMemory) (s : Dynstring) (str : Option Pointer) (n : Nat)
    (answer : Option (Grant UInt8)) : Except String (ByteMemory × Dynstring × Bool) :=
  match str with
  | none => .ok (mem, s, true)
  | some str =>
    if n = 0 then .ok (mem, s, true)
    else do
      let actualLen ← scanNul mem str n 0
      dynstringAppendBytes mem s str actualLen answer

/-- `dynstring_append_char`. -/
def dynstringAppendChar (mem : ByteMemory) (s : Dynstring) (c : UInt8)
    (answer : Option (Grant UInt8)) : Except String (ByteMemory × Dynstring × Bool) := do
  let requiredCap := usizeAdd s.len 2
  let (mem, s, grown) ← dynstringEnsureCapacity mem s requiredCap answer
  if !grown then .ok (mem, s, false)
  else
    let p ← elemAt s.data s.len
    let mem ← mem.write 1 p [c]
    let s := { s with len := usizeAdd s.len 1 }
    let term ← elemAt s.data s.len
    let mem ← mem.write 1 term [0]
    .ok (mem, s, true)

/-- `dynstring_clear`. -/
def dynstringClear (mem : ByteMemory) (s : Dynstring) : Except String (ByteMemory × Dynstring) :=
  match s.data with
  | none => .ok (mem, s)
  | some d => do
    let mem ← mem.write 1 ⟨d, 0⟩ [0]
    .ok (mem, { s with len := 0 })

/-- `dynstring_truncate`. -/
def dynstringTruncate (mem : ByteMemory) (s : Dynstring) (newLen : Nat) :
    Except String (ByteMemory × Dynstring) :=
  match s.data with
  | none => .ok (mem, s)
  | some d =>
    if newLen < s.len then do
      let mem ← mem.write 1 ⟨d, newLen⟩ [0]
      .ok (mem, { s with len := newLen })
    else .ok (mem, s)

/-- `dynstring_reserve`. -/
def dynstringReserve (mem : ByteMemory) (s : Dynstring) (minCap : Nat)
    (answer : Option (Grant UInt8)) : Except String (ByteMemory × Dynstring × Bool) :=
  dynstringEnsureCapacity mem s minCap answer

/-- `dynstring_shrink_to_fit`. -/
def dynstringShrinkToFit (mem : ByteMemory) (s : Dynstring) (answer : Option (Grant UInt8)) :
    Except String (ByteMemory × Dynstring × Bool) :=
  match s.data with
  | none => .ok (mem, s, true)
  | some d =>
    if s.len = 0 then do
      let mem ← mem.free (some d)
      .ok (mem, { s with data := none, cap := 0 }, true)
    else if s.cap = usizeAdd s.len 1 then .ok (mem, s, true)
    else do
      let newCap := usizeAdd s.len 1
      let (mem, newData) ← Store.realloc 1 mem (some d) newCap answer
      match newData with
      | none => .ok (mem, s, false)
      | some d' => .ok (mem, { s with data := some d', cap := newCap }, true)

/-- `dynstring_to_cstr`: the memory left and the object of the copy. -/
def dynstringToCstr (mem : ByteMemory) (s : Dynstring) (answer : Option (Grant UInt8)) :
    Except String (ByteMemory × Option Nat) :=
  match s.data with
  | none =>
    match mem.malloc (usizeAdd 0 1) answer with
    | (mem, none) => .ok (mem, none)
    | (mem, some copy) => do
      let mem ← mem.write 1 ⟨copy, 0⟩ [0]
      .ok (mem, some copy)
  | some d =>
    match mem.malloc (usizeAdd s.len 1) answer with
    | (mem, none) => .ok (mem, none)
    | (mem, some copy) => do
      let mem ← memCopyElems 1 mem ⟨copy, 0⟩ ⟨d, 0⟩ (usizeAdd s.len 1)
      .ok (mem, some copy)

/-- The calls on a string, each with the answer of the allocator. -/
inductive DynstringOp where
  /-- `dynstring_append` -/
  | append (str : Option Pointer) (answer : Option (Grant UInt8))
  /-- `dynstring_append_n` -/
  | appendN (str : Option Pointer) (n : Usize) (answer : Option (Grant UInt8))
  /-- `dynstring_append_char` -/
  | appendChar (c : UInt8) (answer : Option (Grant UInt8))
  /-- `dynstring_reserve` -/
  | reserve (minCap : Usize) (answer : Option (Grant UInt8))
  /-- `dynstring_shrink_to_fit` -/
  | shrinkToFit (answer : Option (Grant UInt8))
  /-- `dynstring_clear` -/
  | clear
  /-- `dynstring_truncate` -/
  | truncate (newLen : Usize)
  /-- `dynstring_to_cstr` -/
  | toCstr (answer : Option (Grant UInt8))
  /-- What other code does with other objects. -/
  | other (c : Store.Call UInt8)

/-- A string and the objects of the program. -/
structure DynstringState where
  mem : ByteMemory
  str : Dynstring

/-- The calls that make a string. -/
inductive DynstringNew where
  /-- `dynstring_init` -/
  | init
  /-- `dynstring_with_capacity` -/
  | withCapacity (capacity : Usize) (answer : Option (Grant UInt8))
  /-- `dynstring_from` -/
  | fromStr (str : Option Pointer) (answer : Option (Grant UInt8))

/-- The source of a new string keeps to the contract. -/
def DynstringNew.allows (mem : ByteMemory) : DynstringNew → Bool
  | .fromStr (some p) _ => (strlenAt mem p).isOk
  | _ => true

/-- A program with a new string. -/
def dynstringStart (mem : ByteMemory) : DynstringNew → Except String DynstringState
  | .init => .ok ⟨mem, dynstringInit⟩
  | .withCapacity capacity answer => do
    let (mem, s) ← dynstringWithCapacity mem capacity answer
    .ok ⟨mem, s⟩
  | .fromStr str answer => do
    let (mem, s) ← dynstringFrom mem str answer
    .ok ⟨mem, s⟩

/-- What a call answers. -/
structure DynstringOut where
  /-- Its result; a copy is a success. -/
  ok : Bool
  /-- The object of a copy. -/
  copy : Option Nat

/-- One call. -/
def dynstringCall (s : DynstringState) : DynstringOp → Except String (DynstringOut × DynstringState)
  | .append str answer => do
    let (mem, t, ok) ← dynstringAppend s.mem s.str str answer
    .ok (⟨ok, none⟩, ⟨mem, t⟩)
  | .appendN str n answer => do
    let (mem, t, ok) ← dynstringAppendN s.mem s.str str n answer
    .ok (⟨ok, none⟩, ⟨mem, t⟩)
  | .appendChar c answer => do
    let (mem, t, ok) ← dynstringAppendChar s.mem s.str c answer
    .ok (⟨ok, none⟩, ⟨mem, t⟩)
  | .reserve minCap answer => do
    let (mem, t, ok) ← dynstringReserve s.mem s.str minCap answer
    .ok (⟨ok, none⟩, ⟨mem, t⟩)
  | .shrinkToFit answer => do
    let (mem, t, ok) ← dynstringShrinkToFit s.mem s.str answer
    .ok (⟨ok, none⟩, ⟨mem, t⟩)
  | .clear => do
    let (mem, t) ← dynstringClear s.mem s.str
    .ok (⟨true, none⟩, ⟨mem, t⟩)
  | .truncate newLen => do
    let (mem, t) ← dynstringTruncate s.mem s.str newLen
    .ok (⟨true, none⟩, ⟨mem, t⟩)
  | .toCstr answer => do
    let (mem, copy) ← dynstringToCstr s.mem s.str answer
    .ok (⟨copy.isSome, copy⟩, ⟨mem, s.str⟩)
  | .other c => do
    let mem ← s.mem.call 1 c
    .ok (⟨true, none⟩, ⟨mem, s.str⟩)

/-- A source keeps to the contract: in the string it starts at the terminator at the latest, and
elsewhere it can be read as far as it is. -/
def DynstringState.readable (s : DynstringState) (p : Pointer) (scanned : Except String Nat) :
    Bool :=
  if some p.object = s.str.data then decide (p.index ≤ s.str.len) else scanned.isOk

/-- The call keeps to its contract. -/
def DynstringState.allows (s : DynstringState) : DynstringOp → Bool
  | .append (some p) _ => s.readable p (strlenAt s.mem p)
  | .appendN (some p) n _ => s.readable p (scanNul s.mem p n 0)
  | .other c => (c.target = none || c.target != s.str.data) && (s.mem.call 1 c).isOk
  | _ => true

/-- One call that keeps to its contract. -/
def dynstringStep (s : DynstringState) (op : DynstringOp) :
    Except String (DynstringOut × DynstringState) :=
  if s.allows op then dynstringCall s op else .error notAllowed

end CanonC
