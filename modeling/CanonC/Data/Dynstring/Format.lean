import CanonC.Core.Format
import CanonC.Core.OwnedMemory
import CanonC.Data.Dynstring.Refinement

/-!
# Formatted appends to the growing string

The text is measured, the string grows detached, the text is written behind the bytes and the old
object is given back. Where the second pass fails or writes another length, the terminator goes
back behind the bytes, and the string may have moved.
-/

namespace CanonC

open Toolkit

/-- `vsnprintf` into `size` bytes of an object from an index on, given the text of the format string
and its arguments; where a conversion fails there is none. -/
def vsnprintfAt (mem : ByteMemory) (data : Option Nat) (i size : Nat)
    (text : Option (List UInt8)) : Except String (ByteMemory × Int) :=
  match text with
  | none => .ok (mem, -1)
  | some text =>
    if size = 0 then .ok (mem, formatCount text)
    else do
      let dest ← elemAt data i
      let mem ← mem.write 1 dest (cutTo 0 size text)
      .ok (mem, formatCount text)

/-- A format string and its arguments: what the two passes over them make. -/
structure Formatted where
  /-- The text that is measured. -/
  measured : Option (List UInt8)
  /-- The text that is written; an argument may have changed or a conversion may fail by then. -/
  printed : Option (List UInt8)

/-- `dynstring_append_fmt`. -/
def dynstringAppendFmt (mem : ByteMemory) (s : Dynstring) (fmt : Option Formatted)
    (answer : Option (Grant UInt8)) : Except String (ByteMemory × Dynstring × Bool) :=
  match fmt with
  | none => .ok (mem, s, false)
  | some fmt => do
    let (mem, needed) ← vsnprintfAt mem none 0 0 fmt.measured
    if needed < 0 then .ok (mem, s, false)
    else
      let requiredCap := usizeAdd (usizeAdd s.len needed.toNat) 1
      let (mem, s, old, grown) ← dynstringGrowDetached mem s requiredCap answer
      if !grown then .ok (mem, s, false)
      else
        let (mem, written) ← vsnprintfAt mem s.data s.len (usizeSub s.cap s.len) fmt.printed
        let mem ← mem.free old
        if written < 0 ∨ written ≠ needed then
          let term ← elemAt s.data s.len
          let mem ← mem.write 1 term [0]
          .ok (mem, s, false)
        else .ok (mem, { s with len := usizeAdd s.len written.toNat }, true)

variable {mem mem' : ByteMemory} {s s' : Dynstring} {xs zs : List UInt8} {d cap : Nat}
  {answer : Option (Grant UInt8)} {ok : Bool}

/-- The first pass writes nothing. -/
theorem vsnprintfAt_measure (mem : ByteMemory) (text : Option (List UInt8)) :
    vsnprintfAt mem none 0 0 text = .ok (mem, text.elim (-1) formatCount) := by
  cases text <;> rfl

/-- A formatted write behind the bytes goes over the terminator. -/
theorem vsnprintfAt_spec (h : mem.Buffer 1 (some d) cap (xs ++ [0]))
    (text : Option (List UInt8)) :
    ∃ mem', vsnprintfAt mem (some d) xs.length (cap - xs.length) text =
        .ok (mem', text.elim (-1) formatCount) ∧
      mem'.Buffer 1 (some d) cap
        (xs ++ text.elim [0] fun text => cutTo 0 (cap - xs.length) text) ∧
      mem.Keeps mem' (some d) := by
  have hroom := h.length_le
  rw [List.length_append, List.length_singleton] at hroom
  cases text with
  | none => exact ⟨mem, rfl, h, Store.Keeps.refl _ _⟩
  | some text =>
    have hfits : (cutTo 0 (cap - xs.length) text).length ≤ cap - xs.length :=
      length_cutTo_le (by omega)
    obtain ⟨mem', hwrite, hbuffer, hkeeps⟩ := h.write (i := xs.length)
      (cutTo 0 (cap - xs.length) text) (by simp) (by omega)
    rw [splice_terminator (by rw [length_cutTo]; omega)] at hbuffer
    refine ⟨mem', ?_, hbuffer, hkeeps⟩
    simp only [vsnprintfAt, if_neg (show cap - xs.length ≠ 0 by omega), elemAt, ok_bind, hwrite,
      Option.elim_some]

/-- A terminator is put behind the first bytes of a buffer. -/
theorem write_terminator (h : mem.Buffer 1 (some d) cap (xs ++ zs)) (hroom : xs.length + 1 ≤ cap) :
    ∃ mem', mem.write 1 ⟨d, xs.length⟩ [0] = .ok mem' ∧
      mem'.Buffer 1 (some d) cap (xs ++ [0]) ∧ mem.Keeps mem' (some d) := by
  obtain ⟨mem', hwrite, hnew, hkeeps⟩ := h.write (i := xs.length) [0] (by simp) hroom
  have hcut : (splice (xs ++ zs) xs.length [0]).take (xs.length + 1) = xs ++ [0] := by
    rw [splice, List.take_left]
    exact List.take_left' (by simp)
  exact ⟨mem', hwrite, hcut ▸ hnew.take (xs.length + 1), hkeeps⟩

/-- A formatted call that does not fail counts the bytes of its text. -/
theorem exists_of_formatCount_nonneg {text : Option (List UInt8)}
    (h : ¬ text.elim (-1) formatCount < 0) :
    ∃ bytes, text = some bytes ∧ bytes.length ≤ intMax ∧
      text.elim (-1) formatCount = bytes.length := by
  cases text with
  | none => exact absurd (by decide : (-1 : Int) < 0) h
  | some bytes =>
    have hcount : 0 ≤ formatCount bytes := Int.not_lt.mp h
    exact ⟨bytes, rfl, formatCount_nonneg.mp hcount, formatCount_of_nonneg hcount⟩

/-- A formatted append leaves the bytes as they are where it fails, and else puts the text that is
written behind them. -/
theorem dynstringAppendFmt_spec (h : s.Holds mem xs) (fmt : Option Formatted)
    (answer : Option (Grant UInt8)) :
    (∃ mem' s', dynstringAppendFmt mem s fmt answer = .ok (mem', s', false) ∧
      s'.Holds mem' xs ∧ mem.Keeps mem' s.data) ∨
    ∃ mem' s' text, dynstringAppendFmt mem s fmt answer = .ok (mem', s', true) ∧
      fmt.bind (·.printed) = some text ∧ s'.Holds mem' (xs ++ text) ∧ mem.Keeps mem' s.data := by
  cases fmt with
  | none => exact Or.inl ⟨mem, s, rfl, h, Store.Keeps.refl _ _⟩
  | some fmt =>
    simp only [dynstringAppendFmt, vsnprintfAt_measure, ok_bind]
    split
    · exact Or.inl ⟨mem, s, rfl, h, Store.Keeps.refl _ _⟩
    · rename_i hmeasured
      obtain ⟨measured, -, hle, hneeded⟩ := exists_of_formatCount_nonneg hmeasured
      obtain ⟨hsum, hrequired⟩ := h.usizeAdd_required (n := measured.length)
        (by unfold intMax at hle; unfold ptrdiffMax; omega)
      rw [hneeded, Int.toNat_natCast, hrequired]
      rcases dynstringGrowDetached_spec (n := xs.length + measured.length + 1) h (Nat.succ_pos _)
        answer with ⟨hno, -⟩ | ⟨mem₁, s₁, d, old, hyes, hgrown, hkeeps₁, hold⟩
      · simp only [hno, ok_bind]
        exact Or.inl ⟨mem, s, rfl, h, Store.Keeps.refl _ _⟩
      · have hlen : s₁.len = xs.length := hgrown.len_eq.trans h.len_eq
        have hroom := hgrown.le_cap
        have hcap := hgrown.buffer.bytes_le
        have hsub : usizeSub s₁.cap xs.length = s₁.cap - xs.length := by
          apply usizeSub_of_le (by omega)
          unfold ptrdiffMax at hcap
          unfold usizeSize
          omega
        obtain ⟨mem₂, hprint, hbuffer₂, hkeeps₂⟩ := vsnprintfAt_spec hgrown.buffer fmt.printed
        obtain ⟨mem₃, hfree, hbuffer₃, hkeeps₃⟩ := h.free_old hkeeps₁ hold hbuffer₂ hkeeps₂
        simp only [hyes, ok_bind, Bool.not_true, Bool.false_eq_true, if_false, hgrown.data_eq, hlen,
          hsub, hprint, hfree, elemAt]
        split
        · -- The second pass has failed or has written another length.
          obtain ⟨mem₄, hwrite, hbuffer₄, hkeeps₄⟩ := write_terminator hbuffer₃ (by omega)
          simp only [hwrite, ok_bind]
          have hholds := Dynstring.Holds.of_buffer hbuffer₄ hlen
          rw [← hgrown.data_eq] at hholds
          refine Or.inl ⟨mem₄, s₁, rfl, hholds, hkeeps₃.trans hkeeps₄ fun d' hd' => ?_⟩
          rw [← Option.some.inj hd']
          exact hold.imp And.left And.left
        · rename_i hwritten
          rw [not_or, not_not] at hwritten
          obtain ⟨text, htext, -, hprinted⟩ := exists_of_formatCount_nonneg hwritten.1
          have hlength : text.length = measured.length :=
            Int.ofNat.inj (hprinted.symm.trans hwritten.2)
          rw [htext, Option.elim_some, cutTo_of_lt (by omega), ← List.append_assoc] at hbuffer₃
          rw [h.len_eq, ← hlength, ← List.length_append] at hsum
          have hholds := Dynstring.Holds.of_buffer hbuffer₃ hsum
          refine Or.inr ⟨mem₃, _, text, rfl, htext, ?_, hkeeps₃⟩
          rw [hprinted, Int.toNat_natCast]
          exact hholds

end CanonC
