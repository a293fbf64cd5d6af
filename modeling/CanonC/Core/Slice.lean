import CanonC.Core.Bytes

/-!
# Views

A `cbytes_t` and a `slice_<T>` are an address and a length, like a `str_t`. The addresses
of a typed slice count elements of a given size.
-/

namespace CanonC

/-- `cbytes_t`. -/
abbrev CbytesT : Type := StrT

/-- `slice_<T>`. -/
abbrev SliceT : Type := StrT

/-- `cbytes_from`. -/
def cbytesFrom (ptr len : Nat) : Except String CbytesT := do
  requireMsg (ptr ≠ 0 ∨ len = 0) "cbytes_from: NULL ptr with non-zero len"
  .ok ⟨ptr, len⟩

/-- The part of a view of elements of `size` bytes from `start` up to `stop`, clamped. -/
def viewSlice (size : Nat) (s : StrT) (start stop : Nat) : StrT :=
  if s.ptr = 0 ∨ start ≥ s.len then ⟨0, 0⟩
  else
    let e := if stop > s.len then s.len else stop
    if start ≥ e then ⟨0, 0⟩ else ⟨s.ptr + start * size, e - start⟩

/-- `str_slice`. -/
def strSlice : StrT → Nat → Nat → StrT := viewSlice 1

/-- `slice_<T>_slice`, for elements of `size` bytes. -/
def sliceSlice (size : Nat) : SliceT → Nat → Nat → SliceT := viewSlice size

/-- A part of a view that is not empty is part of one that is not empty. -/
theorem viewSlice_len {size start stop : Nat} {s : StrT}
    (h : (viewSlice size s start stop).len ≠ 0) :
    s.len ≠ 0 := by
  intro h0
  rw [viewSlice, if_pos (.inr (by omega))] at h
  exact h rfl

end CanonC
