import CanonC.Core.Bytes
import CanonC.Toolkit.Cut

/-!
# Formatted text

The conversions of a format string that the library uses, and `snprintf`: it writes what fits
and a terminator, nothing where there is no room, and counts the bytes of the whole text.
-/

namespace CanonC

open Toolkit

/-- `INT_MAX` -/
def intMax : Nat := 2 ^ 31 - 1

/-- An argument of a formatted call. -/
inductive FormatArg where
  /-- A `usize`, for `%zu`. -/
  | zu (n : Nat)
  /-- The bytes of a string, for `%s`. -/
  | s (bytes : List UInt8)
  /-- An `int`, for `%d`. -/
  | d (i : Int)

/-- The digits of a number. -/
def decimal (n : Nat) : List UInt8 := (Nat.toDigits 10 n).map fun ch => UInt8.ofNat ch.toNat

/-- The digits of a number behind its sign. -/
def signedDecimal (i : Int) : List UInt8 :=
  if i < 0 then UInt8.ofNat ('-').toNat :: decimal i.natAbs else decimal i.natAbs

/-- The text of a format string and its arguments. -/
def formatText : List Char → List FormatArg → List UInt8
  | '%' :: 'z' :: 'u' :: fmt, .zu n :: args => decimal n ++ formatText fmt args
  | '%' :: 's' :: fmt, .s bytes :: args => bytes ++ formatText fmt args
  | '%' :: 'd' :: fmt, .d i :: args => signedDecimal i ++ formatText fmt args
  | ch :: fmt, args => UInt8.ofNat ch.toNat :: formatText fmt args
  | [], _ => []

/-- The result of a formatted call: the length of the text, negative where it is not an `int`. -/
def formatCount (text : List UInt8) : Int := if text.length ≤ intMax then text.length else -1

/-- `snprintf` into `size` bytes at an address. -/
def snprintf (mem : Memory) (buf size : Nat) (format : String) (args : List FormatArg) :
    Memory × Int :=
  let text := formatText format.toList args
  (if size = 0 then mem else Cells.write mem buf (cutTo 0 size text), formatCount text)

/-- `vsnprintf` into `size` bytes at an address, given the text of the format string and its
arguments; where a conversion fails there is none. -/
def vsnprintf (mem : Memory) (buf size : Nat) (text : Option (List UInt8)) : Memory × Int :=
  match text with
  | none => (mem, -1)
  | some text =>
    (if size = 0 then mem else Cells.write mem buf (cutTo 0 size text), formatCount text)

/-- A text is counted when its length is an `int`. -/
theorem formatCount_nonneg {text : List UInt8} : 0 ≤ formatCount text ↔ text.length ≤ intMax := by
  rw [formatCount]
  split <;> omega

/-- A text that is counted is counted exactly. -/
theorem formatCount_of_nonneg {text : List UInt8} (h : 0 ≤ formatCount text) :
    formatCount text = text.length :=
  if_pos (formatCount_nonneg.mp h)

/-- A number below a power of ten has at most as many digits. -/
theorem length_decimal_le {n k : Nat} (hk : 0 < k) (h : n < 10 ^ k) : (decimal n).length ≤ k := by
  rw [decimal, List.length_map]
  exact (Nat.length_toDigits_le_iff (by decide) hk).mpr h

end CanonC
