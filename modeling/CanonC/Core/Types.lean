import CanonC.Toolkit.Run
import Mathlib.Algebra.GroupWithZero.Nat

/-!
# Sizes, error codes and contract checks

The primitive vocabulary the modules share. A `usize` is a natural number below
`2 ^ 64`, and every sum or difference the code lets wrap is taken modulo
`usizeSize`. A contract check is a failure that carries its message: the default
handler aborts, so nothing after it runs. A pointer to `T` is the function from
an index to the element stored there.
-/

namespace CanonC

/-- The number of `usize` values. -/
def usizeSize : Nat := 2 ^ 64

/-- `CANON_USIZE_MAX`, the largest `usize`. -/
def usizeMax : Nat := usizeSize - 1

/-- `SIZE_MAX` is the last value before the wrap. -/
theorem usizeMax_succ : usizeMax + 1 = usizeSize := rfl

/-- The values of type `usize`. -/
abbrev Usize : Type := Fin usizeSize

instance : NeZero usizeSize := ⟨by decide⟩

/-- Unsigned addition of two `usize` values. -/
def usizeAdd (a b : Nat) : Nat := (a + b) % usizeSize

/-- Unsigned subtraction of two `usize` values. -/
def usizeSub (a b : Nat) : Nat := (a + (usizeSize - b)) % usizeSize

/-- Unsigned multiplication of two `usize` values. -/
def usizeMul (a b : Nat) : Nat := (a * b) % usizeSize

/-- A sum that fits does not wrap. -/
theorem usizeAdd_of_lt {a b : Nat} (h : a + b < usizeSize) : usizeAdd a b = a + b :=
  Nat.mod_eq_of_lt h

/-- A product that fits does not wrap. -/
theorem usizeMul_of_lt {a b : Nat} (h : a * b < usizeSize) : usizeMul a b = a * b :=
  Nat.mod_eq_of_lt h

/-- A difference that is not negative does not wrap. -/
theorem usizeSub_of_le {a b : Nat} (hb : b ≤ a) (ha : a < usizeSize) : usizeSub a b = a - b := by
  have he : a + (usizeSize - b) = (a - b) + usizeSize := by omega
  rw [usizeSub, he, Nat.add_mod_right]
  exact Nat.mod_eq_of_lt (by omega)

/-- The error codes of `semantics/error.h` that the modelled functions return. -/
inductive Error where
  /-- NULL pointer, invalid value, precondition failed -/
  | invalidArg
  /-- Index or value exceeds valid bounds -/
  | outOfRange
  /-- String or number parsing failed -/
  | parseFailed
  /-- Data format is corrupted or unrecognised -/
  | invalidFormat
  /-- Operation is invalid in the current state -/
  | invalidState
  /-- Allocation failed -/
  | outOfMemory
  /-- Provided buffer too small to hold the result -/
  | bufferTooSmall
  /-- Fixed container or resource is full -/
  | capacityExceeded
  /-- Requested key, item, or resource not found -/
  | notFound
  /-- File, network, or device I/O error -/
  | ioFailed
  /-- Numeric overflow -/
  | overflow
  deriving DecidableEq, Repr

/-- A computation goes on with the result of its first part. -/
@[simp] theorem ok_bind.{u, v} {ε : Type u} {α β : Type v} (a : α) (f : α → Except ε β) :
    ((.ok a : Except ε α) >>= f) = f a := rfl

/-- A failure ends the computation. -/
@[simp] theorem error_bind.{u, v} {ε : Type u} {α β : Type v} (e : ε) (f : α → Except ε β) :
    ((.error e : Except ε α) >>= f) = .error e := rfl

/-- A computation succeeds when both of its parts do. -/
theorem bind_eq_ok.{u, v} {ε : Type u} {α β : Type v} {x : Except ε α} {f : α → Except ε β}
    {b : β} : (x >>= f) = .ok b ↔ ∃ a, x = .ok a ∧ f a = .ok b := by
  cases x <;> simp

/-- `require_msg`: the call goes on when the condition holds and aborts with the
message otherwise. -/
def requireMsg.{u} (cond : Bool) (msg : String) : Except String PUnit.{u + 1} :=
  if cond then .ok ⟨⟩ else .error msg

/-- A requirement that holds is passed. -/
@[simp] theorem requireMsg_true (msg : String) : requireMsg true msg = .ok ⟨⟩ := rfl

/-- A requirement that does not hold stops the program with its message. -/
@[simp] theorem requireMsg_false (msg : String) : requireMsg false msg = .error msg := rfl

/-- Only a requirement that holds is passed. -/
theorem requireMsg_eq_ok {cond : Bool} {msg : String} :
    requireMsg cond msg = .ok ⟨⟩ ↔ cond = true := by
  cases cond <;> simp

end CanonC
