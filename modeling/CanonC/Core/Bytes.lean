import CanonC.Core.Types
import CanonC.Toolkit.Cells
import Mathlib.Data.List.TakeWhile

/-!
# Byte memory

The memory functions on a memory of addressed bytes. A call with a NULL pointer or with
no bytes does nothing.
-/

namespace CanonC

open Toolkit

/-- A byte for every address. -/
abbrev Memory : Type := Nat → UInt8

/-- `mem_set`. -/
def memSet (mem : Memory) (ptr : Nat) (value : UInt8) (size : Nat) : Memory :=
  if ptr = 0 ∨ size = 0 then mem else Cells.write mem ptr (List.replicate size value)

/-- `mem_zero`. -/
def memZero (mem : Memory) (ptr size : Nat) : Memory :=
  if ptr = 0 ∨ size = 0 then mem else Cells.write mem ptr (List.replicate size 0)

/-- `mem_copy` of bytes that do not overlap the destination. -/
def memCopy (mem : Memory) (dest : Nat) (src : List UInt8) : Memory :=
  if dest = 0 ∨ src.length = 0 then mem else Cells.write mem dest src

/-- `mem_move`: the bytes are the ones at the source before the call. -/
def memMove (mem : Memory) (dest src size : Nat) : Memory :=
  if dest = 0 ∨ src = 0 ∨ size = 0 then mem else Cells.write mem dest (Cells.read mem src size)

/-- Moving bytes between addresses that are not NULL writes the bytes read. -/
theorem memMove_eq_write {mem : Memory} {dest src size : Nat} (hdest : dest ≠ 0) (hsrc : src ≠ 0) :
    memMove mem dest src size = Cells.write mem dest (Cells.read mem src size) := by
  rcases Nat.eq_zero_or_pos size with rfl | hpos
  · simp [memMove]
  · rw [memMove, if_neg (by omega)]

/-- `mem_compare` of two runs of the same length: the sign of the first difference. -/
def memCompare : List UInt8 → List UInt8 → Int
  | a :: as, b :: bs => if a = b then memCompare as bs else if a < b then -1 else 1
  | _, _ => 0

/-- `mem_compare` of two addresses. -/
def memCompareAt (mem : Memory) (a b size : Nat) : Int :=
  if a = b then 0
  else if a = 0 then -1
  else if b = 0 then 1
  else if size = 0 then 0
  else memCompare (Cells.read mem a size) (Cells.read mem b size)

/-- Runs of the same length compare equal exactly when they are. -/
theorem memCompare_eq_zero {as bs : List UInt8} (h : as.length = bs.length) :
    memCompare as bs = 0 ↔ as = bs := by
  induction as generalizing bs with
  | nil =>
    cases bs with
    | nil => simp [memCompare]
    | cons b bs => cases h
  | cons a as ih =>
    cases bs with
    | nil => cases h
    | cons b bs =>
      rw [memCompare, List.cons.injEq]
      by_cases hab : a = b
      · rw [if_pos hab, ih (Nat.succ.inj h)]
        exact (and_iff_right hab).symm
      · rw [if_neg hab]
        refine iff_of_false ?_ fun he => hab he.1
        split <;> decide

/-- `str_t`: an address and a length. -/
structure StrT where
  /-- Address of the first byte, zero for NULL. -/
  ptr : Nat
  /-- Number of bytes. -/
  len : Nat
  deriving DecidableEq, Repr

/-- Steps from an address to the first terminator, at most `left` from `i` on. -/
def nulScan (mem : Memory) (s : Nat) : Nat → Nat → Nat
  | 0, i => i
  | left + 1, i => if mem (s + i) ≠ 0 then nulScan mem s left (usizeAdd i 1) else i

/-- `strlen`, absent where no terminator follows. -/
def strlen (mem : Memory) (s : Nat) : Option Nat :=
  let n := nulScan mem s (usizeSize - s) 0
  if n < usizeSize - s then some n else none

/-- The scan counts the bytes in front of the first terminator. -/
theorem nulScan_eq {mem : Memory} {s left : Nat} : ∀ {i : Nat}, i + left < usizeSize →
    nulScan mem s left i = i + ((Cells.read mem (s + i) left).takeWhile (· ≠ 0)).length := by
  induction left with
  | zero => exact fun _ => rfl
  | succ left ih =>
    intro i hi
    rw [nulScan, Cells.read_succ]
    by_cases hb : mem (s + i) = 0
    · simp [hb]
    · rw [if_pos hb, usizeAdd_of_lt (by omega), ih (by omega),
        List.takeWhile_cons_of_pos (by simpa using hb), List.length_cons, Nat.add_assoc s,
        Nat.add_assoc, Nat.add_comm 1]

/-- The bytes the scan has passed are the ones in front of the first terminator. -/
theorem read_nulScan (mem : Memory) (s : Nat) {left : Nat} (h : left < usizeSize) :
    Cells.read mem s (nulScan mem s left 0) = (Cells.read mem s left).takeWhile (· ≠ 0) := by
  rw [nulScan_eq (by omega), Nat.zero_add, Nat.add_zero]
  exact Cells.read_of_prefix (List.takeWhile_prefix _)

/-- The bytes in front of the first terminator, absent where none follows. -/
def cString (mem : Memory) (s : Nat) : Option (List UInt8) :=
  let bytes := Cells.read mem s (usizeSize - s)
  if 0 ∈ bytes then some (bytes.takeWhile (· ≠ 0)) else none

/-- The bytes of a string lie at its address. -/
theorem read_cString {mem : Memory} {s : Nat} {bytes : List UInt8}
    (h : cString mem s = some bytes) : Cells.read mem s bytes.length = bytes := by
  simp only [cString, Option.ite_none_right_eq_some, Option.some.injEq] at h
  obtain ⟨-, rfl⟩ := h
  exact Cells.read_of_prefix (List.takeWhile_prefix _)

/-- A string is bytes other than the terminator with the terminator behind them. -/
theorem cString_eq_some_iff {mem : Memory} {s : Nat} {bytes : List UInt8} :
    cString mem s = some bytes ↔ Cells.read mem s (bytes.length + 1) = bytes ++ [0] ∧
      (∀ b ∈ bytes, b ≠ 0) ∧ s + bytes.length < usizeSize := by
  constructor
  · intro h
    simp only [cString, Option.ite_none_right_eq_some, Option.some.injEq] at h
    obtain ⟨hmem, rfl⟩ := h
    obtain ⟨tail, htail⟩ : ∃ tail, (Cells.read mem s (usizeSize - s)).dropWhile (· ≠ 0) =
        0 :: tail := by
      cases hdrop : (Cells.read mem s (usizeSize - s)).dropWhile (· ≠ 0) with
      | nil =>
        have hall := List.dropWhile_eq_nil_iff.mp hdrop 0 hmem
        simp at hall
      | cons b tail =>
        have hhead := List.head?_dropWhile_not (fun b => decide (b ≠ 0))
          (Cells.read mem s (usizeSize - s))
        rw [hdrop] at hhead
        exact ⟨tail, by simp at hhead; rw [hhead]⟩
    have hsplit := List.takeWhile_append_dropWhile (p := (· ≠ 0))
      (l := Cells.read mem s (usizeSize - s))
    rw [htail, List.append_cons] at hsplit
    refine ⟨?_, fun b hb => ?_, ?_⟩
    · have hread := @Cells.read_of_prefix _ mem s _ _ ⟨tail, hsplit⟩
      rwa [List.length_append, List.length_singleton] at hread
    · simpa using List.mem_takeWhile_imp hb
    · have hlen := congrArg List.length hsplit
      rw [Cells.length_read, List.length_append, List.length_append, List.length_singleton] at hlen
      omega
  · rintro ⟨hread, hne, hfits⟩
    have hrest : Cells.read mem s (usizeSize - s) = bytes ++ 0 ::
        Cells.read mem (s + (bytes.length + 1)) (usizeSize - s - (bytes.length + 1)) := by
      have hlen : usizeSize - s =
          bytes.length + 1 + (usizeSize - s - (bytes.length + 1)) := by omega
      rw [List.append_cons, ← hread, ← Cells.read_add, ← hlen]
    have htake : (Cells.read mem s (usizeSize - s)).takeWhile (· ≠ 0) = bytes := by
      rw [hrest, List.takeWhile_append_of_pos fun b hb => decide_eq_true (hne b hb)]
      simp
    simp only [cString, htake]
    exact if_pos (by rw [hrest]; simp)

/-- A string ends before the memory does. -/
theorem length_cString_le {mem : Memory} {s : Nat} {bytes : List UInt8}
    (h : cString mem s = some bytes) : bytes.length ≤ usizeSize - s := by
  simp only [cString, Option.ite_none_right_eq_some, Option.some.injEq] at h
  obtain ⟨-, rfl⟩ := h
  have hlen := (List.takeWhile_prefix (fun b : UInt8 => decide (b ≠ 0))
    (l := Cells.read mem s (usizeSize - s))).length_le
  rwa [Cells.length_read] at hlen

private theorem length_takeWhile_lt (bytes : List UInt8) :
    (bytes.takeWhile (· ≠ 0)).length < bytes.length ↔ 0 ∈ bytes := by
  have hstart := List.takeWhile_prefix (fun b : UInt8 => decide (b ≠ 0)) (l := bytes)
  have hself : bytes.takeWhile (· ≠ 0) = bytes ↔ 0 ∉ bytes := by
    rw [List.takeWhile_eq_self_iff]
    constructor
    · intro h hmem
      simpa using h 0 hmem
    · intro h b hb
      simpa using ne_of_mem_of_not_mem hb h
  have hlen : (bytes.takeWhile (· ≠ 0)).length = bytes.length ↔ 0 ∉ bytes :=
    ⟨fun h => hself.mp (hstart.eq_of_length h), fun h => congrArg List.length (hself.mpr h)⟩
  rw [hstart.length_le.lt_iff_ne, ne_eq, hlen, not_not]

/-- `strlen` is the number of bytes of the string. -/
theorem strlen_eq (mem : Memory) {s : Nat} (hs : 0 < s) :
    strlen mem s = (cString mem s).map List.length := by
  have hbound : 0 + (usizeSize - s) < usizeSize := by
    unfold usizeSize
    omega
  have hlt := length_takeWhile_lt (Cells.read mem s (usizeSize - s))
  rw [Cells.length_read] at hlt
  rw [strlen, cString, nulScan_eq hbound, Nat.zero_add, Nat.add_zero]
  by_cases hmem : 0 ∈ Cells.read mem s (usizeSize - s)
  · rw [if_pos (hlt.mpr hmem), if_pos hmem, Option.map_some]
  · rw [if_neg (mt hlt.mp hmem), if_neg hmem, Option.map_none]

/-- A string of C: bytes other than the terminator, with room for it in memory. -/
structure CString where
  /-- The bytes in front of the terminator. -/
  bytes : List UInt8
  /-- None of them is the terminator. -/
  noTerminator : ∀ b ∈ bytes, b ≠ 0
  /-- The string and its terminator fit in memory. -/
  length_lt : bytes.length < usizeMax

/-- The empty string. -/
def CString.empty : CString := ⟨[], (fun _ h => nomatch h), by decide⟩

/-- The bytes with the terminator. -/
def CString.object (s : CString) : List UInt8 := s.bytes ++ [0]

/-- The object has the bytes and the terminator. -/
theorem CString.length_object (s : CString) : s.object.length = s.bytes.length + 1 :=
  List.length_append

/-- `str_len`. -/
def strLen (s : CString) : Nat := s.bytes.length

end CanonC
