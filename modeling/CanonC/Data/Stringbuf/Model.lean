import CanonC.Core.Arena.Model
import CanonC.Core.Checked
import CanonC.Core.Memory

/-!
# The string builder as the code computes it

A buffer of fixed capacity in byte memory. Every append resolves an address and a number
of bytes; the address may lie in the buffer itself.
-/

namespace CanonC

open Toolkit

/-- `StringBuf`. -/
structure StringBuf where
  /-- Address of the buffer, zero for NULL. -/
  data : Nat
  /-- String length without the terminator. -/
  len : Nat
  /-- Total buffer size with the terminator. -/
  capacity : Nat
  deriving DecidableEq, Repr

/-- `stringbuf_init_buffer`. -/
def stringbufInitBuffer (mem : Memory) (buffer cap : Nat) : Except String (StringBuf × Memory) := do
  requireMsg (buffer ≠ 0) "stringbuf_init_buffer: buffer cannot be NULL"
  requireMsg (1 < cap) "stringbuf_init_buffer: cap must be > 1"
  .ok (⟨buffer, 0, cap⟩, Function.update mem buffer 0)

/-- `stringbuf_init_arena`, absent where it returns false. -/
def stringbufInitArena (arena : Arena) (mem : Memory) (initialCap : Nat) :
    Except String (Arena × Option (StringBuf × Memory)) := do
  requireMsg (1 < initialCap) "stringbuf_init_arena: initial_cap must be > 1"
  let (arena, buf) ← arenaAlloc arena initialCap
  if buf = 0 then .ok (arena, none)
  else .ok (arena, some (⟨buf, 0, initialCap⟩, Function.update mem buf 0))

/-- `_stringbuf_append_bytes`. -/
def stringbufAppendBytes (sb : StringBuf) (mem : Memory) (src addLen : Nat) :
    Bool × StringBuf × Memory :=
  match checkedAdd sb.len addLen with
  | none => (false, sb, mem)
  | some e =>
    match checkedAdd e 1 with
    | none => (false, sb, mem)
    | some withNul =>
      if withNul > sb.capacity then (false, sb, mem)
      else
        let mem := memMove mem (sb.data + sb.len) src addLen
        (true, { sb with len := e }, Function.update mem (sb.data + e) 0)

/-- `stringbuf_append`. -/
def stringbufAppend (sb : StringBuf) (mem : Memory) (s : Nat) :
    Except String (Bool × StringBuf × Memory) :=
  if sb.data = 0 then .ok (false, sb, mem)
  else if s = 0 then .ok (true, sb, mem)
  else
    match strlen mem s with
    | none => .error outOfBounds
    | some n => .ok (stringbufAppendBytes sb mem s n)

/-- `stringbuf_append_str`. -/
def stringbufAppendStr (sb : StringBuf) (mem : Memory) (s : StrT) : Bool × StringBuf × Memory :=
  if sb.data = 0 then (false, sb, mem)
  else if s.ptr = 0 ∨ s.len = 0 then (true, sb, mem)
  else stringbufAppendBytes sb mem s.ptr s.len

/-- `stringbuf_append_char`. -/
def stringbufAppendChar (sb : StringBuf) (mem : Memory) (c : UInt8) : Bool × StringBuf × Memory :=
  if sb.data = 0 then (false, sb, mem)
  else
    match checkedAdd sb.len 2 with
    | none => (false, sb, mem)
    | some withNul =>
      if withNul > sb.capacity then (false, sb, mem)
      else
        let mem := Function.update mem (sb.data + sb.len) c
        let len := usizeAdd sb.len 1
        (true, { sb with len }, Function.update mem (sb.data + len) 0)

/-- `stringbuf_append_n`. -/
def stringbufAppendN (sb : StringBuf) (mem : Memory) (s n : Nat) : Bool × StringBuf × Memory :=
  if sb.data = 0 then (false, sb, mem)
  else if s = 0 ∨ n = 0 then (true, sb, mem)
  else
    let actualLen := nulScan mem s n 0
    if actualLen = 0 then (true, sb, mem) else stringbufAppendBytes sb mem s actualLen

/-- `stringbuf_remaining`. -/
def stringbufRemaining (sb : StringBuf) : Nat :=
  if sb.capacity = 0 then 0 else (checkedSub sb.capacity (usizeAdd sb.len 1)).getD 0

/-- `stringbuf_is_full`. -/
def stringbufIsFull (sb : StringBuf) : Bool := usizeAdd sb.len 1 ≥ sb.capacity

/-- `stringbuf_clear`. -/
def stringbufClear (sb : StringBuf) (mem : Memory) : StringBuf × Memory :=
  if sb.data ≠ 0 then ({ sb with len := 0 }, Function.update mem sb.data 0) else (sb, mem)

/-- `stringbuf_truncate`. -/
def stringbufTruncate (sb : StringBuf) (mem : Memory) (newLen : Nat) : StringBuf × Memory :=
  if sb.data ≠ 0 ∧ newLen < sb.len then
    ({ sb with len := newLen }, Function.update mem (sb.data + newLen) 0)
  else (sb, mem)

/-- The calls that append. -/
inductive AppendCall where
  /-- `stringbuf_append` -/
  | append (s : Usize)
  /-- `stringbuf_append_str` -/
  | appendStr (ptr len : Usize)
  /-- `stringbuf_append_char` -/
  | appendChar (c : UInt8)
  /-- `stringbuf_append_n` -/
  | appendN (s n : Usize)

/-- The calls on a string builder, and what other code does to the memory. -/
inductive StringBufOp where
  /-- One of the appends -/
  | append (call : AppendCall)
  /-- `stringbuf_truncate` -/
  | truncate (newLen : Usize)
  /-- `stringbuf_clear` -/
  | clear
  /-- Other code writes bytes outside the buffer -/
  | store (ptr : Nat) (bytes : List UInt8)

/-- What a call answers. -/
inductive StringBufOut where
  /-- Whether the append succeeded. -/
  | flag (ok : Bool)
  /-- Nothing. -/
  | done
  deriving DecidableEq, Repr

/-- A string builder and the memory its buffer lies in. -/
abbrev StringBufState : Type := StringBuf × Memory

/-- One append. -/
def AppendCall.run (s : StringBufState) : AppendCall → Except String (Bool × StringBufState)
  | .append p => stringbufAppend s.1 s.2 p
  | .appendStr ptr len => .ok (stringbufAppendStr s.1 s.2 ⟨ptr, len⟩)
  | .appendChar c => .ok (stringbufAppendChar s.1 s.2 c)
  | .appendN p n => .ok (stringbufAppendN s.1 s.2 p n)

/-- One call. -/
def stringbufStep (s : StringBufState) :
    StringBufOp → Except String (StringBufOut × StringBufState)
  | .append call => do
    let (ok, s) ← call.run s
    .ok (.flag ok, s)
  | .truncate newLen => .ok (.done, stringbufTruncate s.1 s.2 newLen)
  | .clear => .ok (.done, stringbufClear s.1 s.2)
  | .store ptr bytes =>
    if ptr + bytes.length ≤ s.1.data ∨ s.1.data + s.1.capacity ≤ ptr then
      .ok (.done, s.1, Cells.write s.2 ptr bytes)
    else .error outOfBounds

end CanonC
