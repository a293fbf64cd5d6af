import CanonC.Core.Format
import CanonC.Core.Memory
import Mathlib.Algebra.Group.Int.Defs

/-!
# Number parsing as the code computes it

A pointer into the string is an index into its bytes, and `endptr` tells whether the caller
passes one. `strtoll` and `strtoull` are the functions of the C library with base 0 in the C
locale: they skip white space, take the longest sign and number in front of what remains, and
report a value out of range.
-/

namespace CanonC

/-- The byte of a character. -/
def ascii (ch : Char) : UInt8 := UInt8.ofNat ch.toNat

/-- `isspace` in the C locale. -/
def isSpace (c : UInt8) : Bool := c = ascii ' ' || (9 ≤ c && c ≤ 13)

/-- The value of a letter or a decimal digit as a digit. -/
def digitValue (c : UInt8) : Option Nat :=
  if ascii '0' ≤ c ∧ c ≤ ascii '9' then some (c.toNat - 48)
  else if ascii 'a' ≤ c ∧ c ≤ ascii 'z' then some (c.toNat - 97 + 10)
  else if ascii 'A' ≤ c ∧ c ≤ ascii 'Z' then some (c.toNat - 65 + 10)
  else none

/-- Whether a byte is a digit of a base. -/
def isDigit (base : Nat) (c : UInt8) : Bool := (digitValue c).any (· < base)

/-- The number that digits of a base write. -/
def digitsValue (base : Nat) (ds : List UInt8) : Nat :=
  ds.foldl (fun n c => n * base + (digitValue c).getD 0) 0

/-- Whether a byte is the second one of a hexadecimal number. -/
def isHexMark (c : UInt8) : Bool := c = ascii 'x' || c = ascii 'X'

/-- The octal or decimal number in front of a text, by its first digit. -/
def plainNumber (s : List UInt8) : List UInt8 × Nat :=
  let base := if s.head? = some (ascii '0') then 8 else 10
  let ds := s.takeWhile (isDigit base)
  (ds, digitsValue base ds)

/-- The number in front of a text: its bytes and its value. -/
def leadingNumber : List UInt8 → List UInt8 × Nat
  | z :: x :: s =>
    let ds := s.takeWhile (isDigit 16)
    if z = ascii '0' ∧ isHexMark x ∧ ds ≠ [] then (z :: x :: ds, digitsValue 16 ds)
    else plainNumber (z :: x :: s)
  | s => plainNumber s

/-- The sign in front of a text. -/
def leadingSign : List UInt8 → List UInt8
  | c :: _ => if c = ascii '+' ∨ c = ascii '-' then [c] else []
  | [] => []

/-- What a conversion of the C library reports: the value, the first byte behind it and whether
`errno` is `ERANGE`. -/
structure Conversion where
  value : Int
  eptr : Nat
  erange : Bool

/-- The subject of a conversion in front of a text: its bytes, its sign and its magnitude. -/
def leadingSubject (s : List UInt8) : List UInt8 × Bool × Nat :=
  let sign := leadingSign s
  let number := leadingNumber (s.drop sign.length)
  if number.1 = [] then ([], false, 0)
  else (sign ++ number.1, sign = [ascii '-'], number.2)

/-- `INT64_MAX` -/
def i64Max : Int := 2 ^ 63 - 1

/-- `INT64_MIN` -/
def i64Min : Int := -2 ^ 63

/-- `UINT64_MAX` -/
def u64Max : Int := 2 ^ 64 - 1

/-- `strtoll` with base 0. -/
def strtoll (s : List UInt8) : Conversion :=
  let skipped := (s.takeWhile isSpace).length
  let (text, negative, magnitude) := leadingSubject (s.drop skipped)
  if text = [] then ⟨0, 0, false⟩
  else
    let value := if negative then -(magnitude : Int) else magnitude
    if value < i64Min then ⟨i64Min, skipped + text.length, true⟩
    else if i64Max < value then ⟨i64Max, skipped + text.length, true⟩
    else ⟨value, skipped + text.length, false⟩

/-- `strtoull` with base 0: a sign negates the value modulo `2 ^ 64`. -/
def strtoull (s : List UInt8) : Conversion :=
  let skipped := (s.takeWhile isSpace).length
  let (text, negative, magnitude) := leadingSubject (s.drop skipped)
  if text = [] then ⟨0, 0, false⟩
  else if u64Max < magnitude then ⟨u64Max, skipped + text.length, true⟩
  else ⟨(if negative then -(magnitude : Int) else magnitude) % (u64Max + 1),
    skipped + text.length, false⟩

/-- `parse_is_ws_`. -/
def parseIsWs (c : UInt8) : Bool :=
  c = ascii ' ' || c = ascii '\t' || c = ascii '\n' || c = ascii '\r' || c = 12 || c = 11

/-- `parse_skip_ws`. -/
def parseSkipWs : Option CString → Except String (Option Nat)
  | none => .ok none
  | some s => do
    let p ← scanWhile (fun c => c ≠ 0 ∧ parseIsWs c) s.object 0
    .ok (some p)

/-- What is stored through `endptr`. -/
def storeEnd (endptr : Bool) (p : Nat) : Option Nat := if endptr then some p else none

/-- `parse_i64`. -/
def parseI64 (s : Option CString) (endptr : Bool) :
    Except String (Except Error Int × Option Nat) := do
  match s with
  | none => .error "parse_i64: input string is NULL"
  | some s =>
    let c ← readElem s.object 0
    if c = 0 ∨ parseIsWs c then .ok (.error .parseFailed, storeEnd endptr 0)
    else
      let r := strtoll s.bytes
      if r.eptr = 0 ∨ r.erange then .ok (.error .parseFailed, storeEnd endptr 0)
      else .ok (.ok r.value, storeEnd endptr r.eptr)

/-- `parse_u64`. -/
def parseU64 (s : Option CString) (endptr : Bool) :
    Except String (Except Error Int × Option Nat) := do
  match s with
  | none => .error "parse_u64: input string is NULL"
  | some s =>
    let c ← readElem s.object 0
    if c = 0 ∨ parseIsWs c then .ok (.error .parseFailed, storeEnd endptr 0)
    else if c = ascii '-' then .ok (.error .parseFailed, storeEnd endptr 0)
    else
      let r := strtoull s.bytes
      if r.eptr = 0 ∨ r.erange then .ok (.error .parseFailed, storeEnd endptr 0)
      else .ok (.ok r.value, storeEnd endptr r.eptr)

end CanonC
