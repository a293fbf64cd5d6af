import CanonC.Core.Bytes
import CanonC.Core.Memory

/-!
# String splitting as the code computes it

A pointer into the string is an index into its bytes, and a part is reported as the
address of its first byte. A read behind the terminator is a fault, and so is a write
outside the array of parts.
-/

namespace CanonC

/-- The loop of `str_split` with the number of rounds left, from index `p` on, when `count`
parts are stored. -/
def strSplitLoop (addr : Nat) (s : List UInt8) (delim : UInt8) (maxParts : Nat) :
    Nat → Nat → Nat → List Nat → Except String (Nat × List Nat)
  | 0, _, _, _ => .error "str_split: no round left"
  | rounds + 1, p, count, out => do
    let c ← readElem s p
    if c = 0 then .ok (count, out)
    else do
      let p ← scanWhile (· = delim) s p
      let c ← readElem s p
      if c = 0 then .ok (count, out)
      else if count < maxParts then do
        let out ← writeElem out count (addr + p)
        let p ← scanWhile (fun c => c ≠ 0 ∧ c ≠ delim) s p
        strSplitLoop addr s delim maxParts rounds p (count + 1) out
      else .ok (count, out)

/-- `str_split` of the string at an address: the number of parts and the array of parts. -/
def strSplit (addr : Nat) (s : CString) (delim : UInt8) (partsOut : Option (List Nat))
    (maxParts : Nat) : Except String (Nat × List Nat) := do
  requireMsg (addr ≠ 0) "str_split: s is NULL"
  match partsOut with
  | none => .error "str_split: parts_out is NULL"
  | some out =>
    if maxParts = 0 then .ok (0, out)
    else strSplitLoop addr s.object delim maxParts s.object.length 0 0 out

/-- The loop of `str_split_keep_empty` over the bytes from index `p` on, when the field at hand
starts at `start` and `count` fields are stored. -/
def strSplitKeepEmptyLoop (addr : Nat) (delim : UInt8) (maxParts : Nat) :
    List UInt8 → Nat → Nat → Nat → List Nat → Except String (Nat × List Nat)
  | [], _, _, _, _ => .error outOfBounds
  | c :: s, p, start, count, out =>
    if c = delim ∨ c = 0 then
      if count < maxParts then do
        let out ← writeElem out count (addr + start)
        if c = 0 then .ok (count + 1, out)
        else strSplitKeepEmptyLoop addr delim maxParts s (p + 1) (p + 1) (count + 1) out
      else .ok (count, out)
    else strSplitKeepEmptyLoop addr delim maxParts s (p + 1) start count out

/-- `str_split_keep_empty` of the string at an address. -/
def strSplitKeepEmpty (addr : Nat) (s : CString) (delim : UInt8) (partsOut : Option (List Nat))
    (maxParts : Nat) : Except String (Nat × List Nat) := do
  requireMsg (addr ≠ 0) "str_split_keep_empty: s is NULL"
  match partsOut with
  | none => .error "str_split_keep_empty: parts_out is NULL"
  | some out =>
    if maxParts = 0 then .ok (0, out)
    else do
      let c ← readElem s.object 0
      if c = 0 then .ok (0, out)
      else strSplitKeepEmptyLoop addr delim maxParts s.object 0 0 0 out

end CanonC
