import CanonC.Core.Bytes
import CanonC.Core.Memory
import CanonC.Util.Str.View

/-!
# Functions on NUL-terminated strings as the code computes them

A string is the address of its first byte, zero for NULL, and ends at the first terminator
from there on. A loop that meets none runs to the end of memory and faults there.
-/

namespace CanonC

open Toolkit

/-- `str_len` of an address. -/
def strLenAt (mem : Memory) (s : Nat) : Except String Nat :=
  if s = 0 then .ok 0
  else
    match strlen mem s with
    | some len => .ok len
    | none => .error outOfBounds

/-- `(int)(unsigned char)*pa - (int)(unsigned char)*pb`. -/
def byteDiff (mem : Memory) (pa pb : Nat) : Int := (mem pa).toNat - (mem pb).toNat

/-- The loop of `str_compare` with `left` bytes to the end of memory. -/
def strCompareLoop (mem : Memory) : Nat → Nat → Nat → Except String Int
  | 0, _, _ => .error outOfBounds
  | left + 1, pa, pb =>
    if mem pa ≠ 0 ∧ mem pa = mem pb then strCompareLoop mem left (pa + 1) (pb + 1)
    else .ok (byteDiff mem pa pb)

/-- `str_compare`. -/
def strCompare (mem : Memory) (a b : Nat) : Except String Int := do
  requireMsg (a ≠ 0) "str_compare: a is NULL"
  requireMsg (b ≠ 0) "str_compare: b is NULL"
  strCompareLoop mem (usizeSize - max a b) a b

/-- The loop of `str_ncompare` with `m` bytes to compare. -/
def strNcompareLoop (mem : Memory) : Nat → Nat → Nat → Int
  | m + 2, pa, pb =>
    if mem pa ≠ 0 ∧ mem pa = mem pb then strNcompareLoop mem (m + 1) (pa + 1) (pb + 1)
    else byteDiff mem pa pb
  | _, pa, pb => byteDiff mem pa pb

/-- `str_ncompare`. -/
def strNcompare (mem : Memory) (a b n : Nat) : Except String Int :=
  if n = 0 then .ok 0
  else do
    requireMsg (a ≠ 0) "str_ncompare: a is NULL"
    requireMsg (b ≠ 0) "str_ncompare: b is NULL"
    .ok (strNcompareLoop mem n a b)

/-- `str_equals`. -/
def strEquals (mem : Memory) (a b : Nat) : Except String Bool :=
  if a = b then .ok true
  else if a = 0 ∨ b = 0 then .ok false
  else do
    let cmp ← strCompare mem a b
    .ok (cmp = 0)

/-- `cstr_starts_with`. -/
def cstrStartsWith (mem : Memory) (s start : Nat) : Except String Bool := do
  requireMsg (s ≠ 0) "cstr_starts_with: s is NULL"
  requireMsg (start ≠ 0) "cstr_starts_with: prefix is NULL"
  let prefixLen ← strLenAt mem start
  if prefixLen = 0 then .ok true
  else
    let cmp ← strNcompare mem s start prefixLen
    .ok (cmp = 0)

/-- `cstr_ends_with`. -/
def cstrEndsWith (mem : Memory) (s suffix : Nat) : Except String Bool := do
  requireMsg (s ≠ 0) "cstr_ends_with: s is NULL"
  requireMsg (suffix ≠ 0) "cstr_ends_with: suffix is NULL"
  let sLen ← strLenAt mem s
  let suffixLen ← strLenAt mem suffix
  if suffixLen > sLen then .ok false
  else
    let cmp ← strCompare mem (s + sLen - suffixLen) suffix
    .ok (cmp = 0)

/-- `mem_copy` of addresses. -/
def memCopyAt (mem : Memory) (dest src size : Nat) : Except String Memory :=
  if dest = 0 ∨ src = 0 ∨ size = 0 then .ok mem
  else do
    requireMsg (!memRegionsOverlap dest src size) "mem_copy: regions overlap — use mem_move"
    .ok (Cells.write mem dest (Cells.read mem src size))

/-- `str_copy_into`. -/
def strCopyInto (mem : Memory) (dest destSize src : Nat) : Except String (Bool × Memory) := do
  requireMsg (dest ≠ 0) "str_copy_into: dest is NULL"
  requireMsg (src ≠ 0) "str_copy_into: src is NULL"
  if destSize = 0 then .ok (false, mem)
  else
    let srcLen ← strLenAt mem src
    if usizeAdd srcLen 1 > destSize then .ok (false, mem)
    else
      let mem ← memCopyAt mem dest src (usizeAdd srcLen 1)
      .ok (true, mem)

/-- `str_concat_into`. -/
def strConcatInto (mem : Memory) (dest destSize a b : Nat) : Except String (Bool × Memory) := do
  requireMsg (dest ≠ 0) "str_concat_into: dest is NULL"
  requireMsg (a ≠ 0) "str_concat_into: a is NULL"
  requireMsg (b ≠ 0) "str_concat_into: b is NULL"
  if destSize = 0 then .ok (false, mem)
  else
    let lenA ← strLenAt mem a
    let lenB ← strLenAt mem b
    if usizeAdd (usizeAdd lenA lenB) 1 > destSize then .ok (false, mem)
    else
      let mem ← memCopyAt mem dest a lenA
      let mem ← memCopyAt mem (dest + lenA) b (usizeAdd lenB 1)
      .ok (true, mem)

/-- `str_view_to_cstr`. -/
def strViewToCstr (mem : Memory) (v : StrView) (buf bufSize : Nat) :
    Except String (Bool × Memory) := do
  requireMsg (buf ≠ 0) "str_view_to_cstr: buf is NULL"
  if bufSize ≤ v.len then .ok (false, mem)
  else
    let mem ← (if v.len > 0 then memCopyAt mem buf v.ptr v.len else .ok mem : Except String Memory)
    .ok (true, Function.update mem (buf + v.len) 0)

end CanonC
