import CanonC.Core.TypedMemory
import CanonC.Toolkit.Besides

/-!
# Accesses of an owner

The element accesses of the containers change no object but the ones they name.
-/

namespace CanonC

open Toolkit

variable {α : Type} {size : Nat} {mem mem' : TypedMemory α} {own : List Nat}

/-- An element lies in the object of its array. -/
theorem object_of_elemAt {data : Option Nat} {i : Nat} {p : Pointer}
    (h : elemAt data i = .ok p) : data = some p.object := by
  cases data with
  | none => cases h
  | some d =>
    obtain rfl := Except.ok.inj h
    rfl

/-- An element of an array lies in an object of its owner. -/
theorem mem_of_elemAt {data : Option Nat} {i : Nat} {p : Pointer} (h : elemAt data i = .ok p) :
    p.object ∈ data.toList :=
  Option.mem_toList.mpr (object_of_elemAt h)

/-- A move to an object of the owner exchanges nothing. -/
theorem memMoveElems_conserves {dest src : Pointer} {bytes : Nat}
    (h : memMoveElems size mem dest src bytes = .ok mem') (hown : dest.object ∈ own) :
    mem.Conserves mem' own own := by
  unfold memMoveElems at h
  split at h
  · obtain rfl := Except.ok.inj h
    exact Store.Conserves.refl mem own
  · split at h
    · exact Store.conserves_move h hown
    · cases h

/-- A copy to an object of the owner exchanges nothing. -/
theorem memCopyElems_conserves {dest src : Pointer} {bytes : Nat}
    (h : memCopyElems size mem dest src bytes = .ok mem') (hown : dest.object ∈ own) :
    mem.Conserves mem' own own := by
  unfold memCopyElems at h
  split at h
  · obtain rfl := Except.ok.inj h
    exact Store.Conserves.refl mem own
  · obtain ⟨a, -, h⟩ := bind_eq_ok.mp h
    obtain ⟨b, -, h⟩ := bind_eq_ok.mp h
    obtain ⟨-, -, h⟩ := bind_eq_ok.mp h
    exact memMoveElems_conserves h hown

/-- Making room in an array of the owner exchanges nothing. -/
theorem shiftElems_conserves {data : Option Nat} {len i : Nat}
    (h : shiftElems size mem data len i = .ok mem') (hown : data.toList ⊆ own) :
    mem.Conserves mem' own own := by
  unfold shiftElems at h
  split at h
  · obtain ⟨dest, hdest, h⟩ := bind_eq_ok.mp h
    obtain ⟨src, -, h⟩ := bind_eq_ok.mp h
    exact memMoveElems_conserves h (hown (mem_of_elemAt hdest))
  · obtain rfl := Except.ok.inj h
    exact Store.Conserves.refl mem own

/-- Closing a gap in an array of the owner exchanges nothing. -/
theorem closeElems_conserves {data : Option Nat} {len i : Nat}
    (h : closeElems size mem data len i = .ok mem') (hown : data.toList ⊆ own) :
    mem.Conserves mem' own own := by
  unfold closeElems at h
  split at h
  · obtain ⟨dest, hdest, h⟩ := bind_eq_ok.mp h
    obtain ⟨src, -, h⟩ := bind_eq_ok.mp h
    exact memMoveElems_conserves h (hown (mem_of_elemAt hdest))
  · obtain rfl := Except.ok.inj h
    exact Store.Conserves.refl mem own

end CanonC
