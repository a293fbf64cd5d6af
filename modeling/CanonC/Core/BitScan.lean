import CanonC.Toolkit.FirstBit

/-!
# The first and the last set bit of a word

The portable bit scans search a 64-bit word by halves, from its low end and from its
high end.
-/

namespace CanonC

open Toolkit

/-- `bits_clz` without a compiler builtin. -/
def bitsClz (value : BitVec 64) : Nat :=
  if value = 0 then 64
  else
    let s := halve (fun v k => v <<< k) 0xFFFFFFFF00000000#64 32 (0, value)
    let s := halve (fun v k => v <<< k) 0xFFFF000000000000#64 16 s
    let s := halve (fun v k => v <<< k) 0xFF00000000000000#64 8 s
    let s := halve (fun v k => v <<< k) 0xF000000000000000#64 4 s
    let s := halve (fun v k => v <<< k) 0xC000000000000000#64 2 s
    if s.2 &&& 0x8000000000000000#64 = 0 then s.1 + 1 else s.1

/-- `bits_ctz` without a compiler builtin. -/
def bitsCtz (value : BitVec 64) : Nat :=
  if value = 0 then 64
  else
    let s := halve (fun v k => v >>> k) 0x00000000FFFFFFFF#64 32 (0, value)
    let s := halve (fun v k => v >>> k) 0x000000000000FFFF#64 16 s
    let s := halve (fun v k => v >>> k) 0x00000000000000FF#64 8 s
    let s := halve (fun v k => v >>> k) 0x000000000000000F#64 4 s
    let s := halve (fun v k => v >>> k) 0x0000000000000003#64 2 s
    if s.2 &&& 0x0000000000000001#64 = 0 then s.1 + 1 else s.1

private theorem fst_halve {n : Nat} (shift : BitVec n → Nat → BitVec n) (mask : BitVec n) (k : Nat)
    (s : Nat × BitVec n) :
    (halve shift mask k s).1 = if s.2 &&& mask = 0 then s.1 + k else s.1 := by
  rw [halve]
  split <;> rfl

/-- The trailing zeros of a word that is not zero end at its lowest set bit. -/
theorem bitsCtz_spec {value : BitVec 64} (hne : value ≠ 0) :
    value.getLsbD (bitsCtz value) = true ∧ ∀ i < bitsCtz value, value.getLsbD i = false := by
  have h₀ := fromLow.search hne
  have h₁ := fromLow.halve 0x00000000FFFFFFFF#64 32 (by decide) h₀
  have h₂ := fromLow.halve 0x000000000000FFFF#64 16 (by decide) h₁
  have h₃ := fromLow.halve 0x00000000000000FF#64 8 (by decide) h₂
  have h₄ := fromLow.halve 0x000000000000000F#64 4 (by decide) h₃
  have h₅ := fromLow.halve 0x0000000000000003#64 2 (by decide) h₄
  have h₆ := fromLow.halve 0x0000000000000001#64 1 (by decide) h₅
  have hdone := h₆.done
  rw [fst_halve] at hdone
  rw [bitsCtz, if_neg hne]
  exact hdone

/-- The leading zeros of a word that is not zero end at its highest set bit. -/
theorem bitsClz_spec {value : BitVec 64} (hne : value ≠ 0) :
    value.getMsbD (bitsClz value) = true ∧ ∀ i < bitsClz value, value.getMsbD i = false := by
  have h₀ := fromHigh.search hne
  have h₁ := fromHigh.halve 0xFFFFFFFF00000000#64 32 (by decide) h₀
  have h₂ := fromHigh.halve 0xFFFF000000000000#64 16 (by decide) h₁
  have h₃ := fromHigh.halve 0xFF00000000000000#64 8 (by decide) h₂
  have h₄ := fromHigh.halve 0xF000000000000000#64 4 (by decide) h₃
  have h₅ := fromHigh.halve 0xC000000000000000#64 2 (by decide) h₄
  have h₆ := fromHigh.halve 0x8000000000000000#64 1 (by decide) h₅
  have hdone := h₆.done
  rw [fst_halve] at hdone
  rw [bitsClz, if_neg hne]
  exact hdone

end CanonC
