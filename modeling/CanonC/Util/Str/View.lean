import CanonC.Core.Bytes

/-!
# String views as the code computes them

A view is an address and a length. A part of one is taken with a length that is compared
with what is left, so no sum of indices is formed.
-/

namespace CanonC

/-- `str_view_t`: an address and a length. -/
structure StrView where
  /-- Address of the first byte, zero for NULL. -/
  ptr : Nat
  /-- Number of bytes. -/
  len : Nat
  deriving DecidableEq, Repr

/-- `str_view_null`. -/
def strViewNull : StrView := ⟨0, 0⟩

/-- `sizeof(str_view_t)`. -/
def sizeofStrView : Nat := 16

/-- `str_view_empty`; the address is that of the literal `""`. -/
def strViewEmpty (literal : Nat) : StrView := ⟨literal, 0⟩

/-- `str_view_from_len`. -/
def strViewFromLen (p len : Nat) : StrView := ⟨p, len⟩

/-- `str_view_from`, absent where no terminator follows. -/
def strViewFrom (mem : Memory) (s : Nat) : Option StrView :=
  if s = 0 then some strViewNull else (strlen mem s).map fun len => ⟨s, len⟩

/-- `str_view_sub`. -/
def strViewSub (literal : Nat) (v : StrView) (start len : Nat) : StrView :=
  if start ≥ v.len then strViewEmpty literal
  else
    let avail := usizeSub v.len start
    strViewFromLen (v.ptr + start) (if len < avail then len else avail)

/-- `str_view_equals`. -/
def strViewEquals (mem : Memory) (a b : StrView) : Bool :=
  if a.len ≠ b.len then false
  else if a.len = 0 then true
  else memCompareAt mem a.ptr b.ptr a.len = 0

/-- `str_view_compare`. -/
def strViewCompare (mem : Memory) (a b : StrView) : Int :=
  let minLen := if a.len < b.len then a.len else b.len
  let cmp := if minLen > 0 then memCompareAt mem a.ptr b.ptr minLen else 0
  if cmp ≠ 0 then cmp else if a.len < b.len then -1 else if a.len > b.len then 1 else 0

/-- `str_view_starts_with`. -/
def strViewStartsWith (mem : Memory) (v start : StrView) : Bool :=
  if start.len > v.len then false
  else if start.len = 0 then true
  else memCompareAt mem v.ptr start.ptr start.len = 0

/-- `str_view_ends_with`. -/
def strViewEndsWith (mem : Memory) (v suffix : StrView) : Bool :=
  if suffix.len > v.len then false
  else if suffix.len = 0 then true
  else memCompareAt mem (v.ptr + v.len - suffix.len) suffix.ptr suffix.len = 0

/-- `str_view_prefix`. -/
def strViewPrefix (literal : Nat) (v : StrView) (n : Nat) : StrView := strViewSub literal v 0 n

/-- `str_view_suffix`. -/
def strViewSuffix (v : StrView) (n : Nat) : StrView :=
  if n ≥ v.len then v else strViewFromLen (v.ptr + v.len - n) n

/-- The loop of `str_view_find_char` with `left` bytes to go. -/
def strViewFindLoop (mem : Memory) (v : StrView) (c : UInt8) : Nat → Nat → Nat
  | 0, _ => v.len
  | left + 1, i => if mem (v.ptr + i) = c then i else strViewFindLoop mem v c left (i + 1)

/-- `str_view_find_char`. -/
def strViewFindChar (mem : Memory) (v : StrView) (c : UInt8) : Nat :=
  strViewFindLoop mem v c v.len 0

/-- `str_view_contains_char`. -/
def strViewContainsChar (mem : Memory) (v : StrView) (c : UInt8) : Bool :=
  strViewFindChar mem v c < v.len

end CanonC
