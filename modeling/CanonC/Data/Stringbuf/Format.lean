import CanonC.Core.Format
import CanonC.Data.Stringbuf.Refinement
import CanonC.Toolkit.Pieces

/-!
# Formatted appends and what is written with them

A formatted append measures the text first and writes it when the whole of it fits, so that it
appends as the plain ones do. Functions that write one text after the other and return at the
first failure leave the texts in front of it in the buffer, each as a whole.
-/

namespace CanonC

open Toolkit

/-- `stringbuf_append_fmt_va`, with the text of the format string and the arguments. -/
def stringbufAppendFmtVa (sb : StringBuf) (mem : Memory) (text : Option (List UInt8)) :
    Bool × StringBuf × Memory :=
  if sb.data = 0 then (false, sb, mem)
  else
    let neededI := (vsnprintf mem 0 0 text).2
    if neededI < 0 then (false, sb, mem)
    else
      let needed := neededI.toNat
      match checkedAdd sb.len needed with
      | none => (false, sb, mem)
      | some e =>
        match checkedAdd e 1 with
        | none => (false, sb, mem)
        | some withNul =>
          if withNul > sb.capacity then (false, sb, mem)
          else
            let (mem, written) := vsnprintf mem (sb.data + sb.len) (usizeSub withNul sb.len) text
            if written < 0 ∨ written.toNat ≠ needed then
              (false, sb, Function.update mem (sb.data + sb.len) 0)
            else (true, { sb with len := e }, mem)

/-- `stringbuf_append_fmt`. -/
def stringbufAppendFmt (sb : StringBuf) (mem : Memory) (text : Option (List UInt8)) :
    Bool × StringBuf × Memory :=
  if sb.data = 0 then (false, sb, mem) else stringbufAppendFmtVa sb mem text

/-- A function that writes into a string builder and tells whether it succeeded. -/
abbrev Writer : Type := StringBufState → Except String (Bool × StringBufState)

/-- `if (!write) { return false; }` in front of what follows. -/
def orReturn (write next : Writer) : Writer := fun s => do
  let (ok, s) ← write s
  if ok then next s else .ok (false, s)

/-- `stringbuf_append` of the constant at an address. -/
def appendLiteral (p : Nat) : Writer := fun s => stringbufAppend s.1 s.2 p

/-- A text that the length of a formatted call can count. -/
def counted (text : Option (List UInt8)) : Option (List UInt8) :=
  text.filter fun text => text.length ≤ intMax

/-- Append a text that may be missing to a byte string. -/
def ByteString.emit (data capacity : Nat) (a : ByteString) :
    Option (List UInt8) → Bool × ByteString
  | none => (false, a)
  | some text => a.append data capacity text

/-- Append texts to a byte string, up to the first one that is missing or does not fit. -/
def ByteString.emitAll (data capacity : Nat) (a : ByteString) :
    List (Option (List UInt8)) → Bool × ByteString
  | [] => (true, a)
  | text :: texts =>
    match a.emit data capacity text with
    | (true, a) => a.emitAll data capacity texts
    | (false, a) => (false, a)

namespace ByteString

variable {data capacity : Nat} {a : ByteString}

/-- Texts behind others, which are reached unless one of these does not fit. -/
theorem emitAll_append (texts texts' : List (Option (List UInt8))) :
    a.emitAll data capacity (texts ++ texts') =
      match a.emitAll data capacity texts with
      | (true, a) => a.emitAll data capacity texts'
      | (false, a) => (false, a) := by
  induction texts generalizing a with
  | nil => rfl
  | cons text texts ih =>
    rw [List.cons_append, emitAll, emitAll]
    split
    · exact ih
    · rfl

/-- The byte string gets the texts that fit one behind the other, and memory outside the buffer is
as it was. -/
theorem emitAll_spec (data : Nat) (h : a.1.length < capacity) (texts : List (Option (List UInt8))) :
    (a.emitAll data capacity texts).2.1 =
        a.1 ++ (fitting (capacity - 1 - a.1.length) texts).flatten ∧
      ((a.emitAll data capacity texts).1 = true ↔
        (fitting (capacity - 1 - a.1.length) texts).map some = texts) ∧
      ∀ i, i < data ∨ data + capacity ≤ i → (a.emitAll data capacity texts).2.2 i = a.2 i := by
  induction texts generalizing a with
  | nil => exact ⟨(List.append_nil _).symm, iff_of_true rfl rfl, fun _ _ => rfl⟩
  | cons text texts ih =>
    cases text with
    | none =>
      exact ⟨(List.append_nil _).symm,
        iff_of_false Bool.false_ne_true (List.cons_ne_nil _ _).symm, fun _ _ => rfl⟩
    | some text =>
      rw [emitAll, emit, append]
      by_cases hfits : a.1.length + text.length + 1 ≤ capacity
      · rw [if_pos hfits, fitting_cons_of_le (by omega)]
        have hroom : capacity - 1 - (a.1 ++ text).length =
            capacity - 1 - a.1.length - text.length := by
          rw [List.length_append]
          omega
        obtain ⟨hbytes, hflag, hmem⟩ := @ih (a.1 ++ text,
          Cells.write a.2 (data + a.1.length) (text ++ [0])) (by rw [List.length_append]; omega)
        simp only [hroom] at hbytes hflag
        refine ⟨?_, ?_, fun i hi => (hmem i hi).trans (Cells.write_of_outside ?_)⟩
        · rw [hbytes, List.flatten_cons, List.append_assoc]
        · rw [hflag, List.map_cons, List.cons.injEq, and_iff_right rfl]
        · rw [List.length_append, List.length_singleton]
          omega
      · rw [if_neg hfits, fitting_cons_of_lt (by omega)]
        exact ⟨(List.append_nil _).symm,
          iff_of_false Bool.false_ne_true (List.cons_ne_nil _ _).symm, fun _ _ => rfl⟩

end ByteString

/-- The formatted append of a text that can be counted writes it and a terminator if both fit. -/
theorem stringbufAppendFmtVa_eq {sb : StringBuf} {mem : Memory} {text : List UInt8}
    (hdata : sb.data ≠ 0) (hlen : sb.len < usizeSize) (hcapacity : sb.capacity < usizeSize)
    (hcount : text.length ≤ intMax) :
    stringbufAppendFmtVa sb mem (some text) =
      if sb.len + text.length + 1 ≤ sb.capacity then
        (true, { sb with len := sb.len + text.length },
          Cells.write mem (sb.data + sb.len) (text ++ [0]))
      else (false, sb, mem) := by
  have hmax : intMax < usizeSize := by decide
  have hnonneg := formatCount_nonneg.mpr hcount
  have hvalue := formatCount_of_nonneg hnonneg
  have hmeasure : (vsnprintf mem 0 0 (some text)).2 = text.length := hvalue
  rw [stringbufAppendFmtVa, if_neg hdata]
  simp only [hmeasure]
  rw [if_neg (by omega), Int.toNat_natCast, checkedAdd_eq hlen (by omega)]
  by_cases hsum : sb.len + text.length < usizeSize
  · simp only [if_pos hsum, checkedAdd_eq hsum (by decide : 1 < usizeSize)]
    by_cases hsucc : sb.len + text.length + 1 < usizeSize
    · simp only [if_pos hsucc]
      by_cases hfits : sb.len + text.length + 1 ≤ sb.capacity
      · have hroom : usizeSub (sb.len + text.length + 1) sb.len = text.length + 1 := by
          rw [usizeSub_of_le (by omega) hsucc]
          omega
        have hwrite : vsnprintf mem (sb.data + sb.len) (text.length + 1) (some text) =
            (Cells.write mem (sb.data + sb.len) (text ++ [0]), (text.length : Int)) := by
          rw [vsnprintf, if_neg (Nat.succ_ne_zero _), cutTo_of_lt (Nat.lt_succ_self _), hvalue]
        rw [if_neg (by omega), if_pos hfits, hroom, hwrite]
        exact if_neg (by omega)
      · rw [if_pos (by omega), if_neg hfits]
    · rw [if_neg hsucc, if_neg (by omega)]
  · rw [if_neg hsum, if_neg (by omega)]

/-- The formatted append acts as on byte strings. -/
theorem StringBufState.Holds.appendFmt {data capacity : Nat} {s : StringBufState} {a : ByteString}
    (h : s.Holds data capacity a) (text : Option (List UInt8)) :
    Appends data capacity (stringbufAppendFmt s.1 s.2 text)
      (a.emit data capacity (counted text)) := by
  rw [stringbufAppendFmt, if_neg h.data_ne_zero]
  have hrefused (hcount : (vsnprintf s.2 0 0 text).2 < 0) :
      stringbufAppendFmtVa s.1 s.2 text = (false, s) := by
    rw [stringbufAppendFmtVa, if_neg h.data_ne_zero]
    exact if_pos hcount
  cases text with
  | none =>
    rw [hrefused (show (-1 : Int) < 0 by decide)]
    exact ⟨rfl, h⟩
  | some text =>
    by_cases hcount : text.length ≤ intMax
    · have hcapacity := h.capacity_lt
      have hlt := h.length_lt
      have hcounted : counted (some text) = some text := by simp [counted, hcount]
      rw [stringbufAppendFmtVa_eq h.data_ne_zero (by rw [h.len_eq]; omega)
        (by rw [h.capacity_eq]; omega) hcount, hcounted, ByteString.emit, ByteString.append,
        h.len_eq, h.capacity_eq, h.data_eq, h.mem_eq]
      by_cases hfits : a.1.length + text.length + 1 ≤ capacity
      · rw [if_pos hfits, if_pos hfits]
        have hw := h.wrote text (Nat.le_refl _) hfits
        rw [List.take_length] at hw
        exact ⟨rfl, by simpa only [h.mem_eq] using hw⟩
      · rw [if_neg hfits, if_neg hfits, ← h.mem_eq]
        exact ⟨rfl, h⟩
    · have hnone : counted (some text) = none := by simp [counted, Nat.not_le.mp hcount]
      rw [hrefused (Int.not_le.mp (mt formatCount_nonneg.mp hcount)), hnone]
      exact ⟨rfl, h⟩

/-- Writes into the buffer keep what is known of the memory around it. -/
def Around (data capacity : Nat) (I : Memory → Prop) : Prop :=
  ∀ mem mem' : Memory, (∀ i, i < data ∨ data + capacity ≤ i → mem' i = mem i) → I mem → I mem'

/-- Where `I` holds of memory, the writer appends the texts one after the other, up to the first one
that is missing or does not fit. -/
def Writes (data capacity : Nat) (I : Memory → Prop) (write : Writer)
    (texts : List (Option (List UInt8))) : Prop :=
  ∀ s a, s.Holds data capacity a → I a.2 → ∃ r, write s = .ok r ∧
    Appends data capacity r (a.emitAll data capacity texts)

namespace Writes

variable {data capacity : Nat} {I : Memory → Prop} {write next : Writer}
  {texts texts' : List (Option (List UInt8))}

/-- Nothing is written. -/
theorem done : Writes data capacity I (fun s => .ok (true, s)) [] :=
  fun s _ h _ => ⟨(true, s), rfl, rfl, h⟩

/-- A writer of one text. -/
theorem one {text : Option (List UInt8)}
    (hwrite : ∀ s a, s.Holds data capacity a → I a.2 → ∃ r, write s = .ok r ∧
      Appends data capacity r (a.emit data capacity text)) :
    Writes data capacity I write [text] := by
  intro s a h hI
  obtain ⟨r, hr, hflag, hholds⟩ := hwrite s a h hI
  refine ⟨r, hr, ?_⟩
  rw [ByteString.emitAll]
  split
  · next heq =>
    rw [heq] at hflag hholds
    exact ⟨hflag, hholds⟩
  · next heq =>
    rw [heq] at hflag hholds
    exact ⟨hflag, hholds⟩

/-- What follows writes behind it. -/
theorem orReturn (hI : Around data capacity I) (hwrite : Writes data capacity I write texts)
    (hnext : Writes data capacity I next texts') :
    Writes data capacity I (orReturn write next) (texts ++ texts') := by
  intro s a h ha
  obtain ⟨⟨ok, t⟩, hr, hflag, hholds⟩ := hwrite s a h ha
  obtain ⟨-, -, hmem⟩ := ByteString.emitAll_spec data h.length_lt texts
  have hafter := hI _ _ hmem ha
  rw [ByteString.emitAll_append, CanonC.orReturn, hr, ok_bind]
  generalize a.emitAll data capacity texts = b at hflag hholds hafter
  obtain ⟨ok', b⟩ := b
  obtain rfl : ok = ok' := hflag
  cases ok with
  | true => exact hnext t b hholds hafter
  | false => exact ⟨(false, t), rfl, rfl, hholds⟩

end Writes

/-- A formatted append writes the text, if its length can be counted. -/
theorem writes_appendFmt (data capacity : Nat) (I : Memory → Prop) (text : Option (List UInt8)) :
    Writes data capacity I (fun s => .ok (stringbufAppendFmt s.1 s.2 text)) [counted text] :=
  Writes.one fun _ _ h _ => ⟨_, rfl, h.appendFmt text⟩

/-- The string lies at the address, apart from the buffer. -/
structure StringAt (data capacity : Nat) (p : Nat) (bytes : List UInt8) (mem : Memory) : Prop where
  /-- The address is not NULL. -/
  pos : 0 < p
  /-- The string can be read there. -/
  read : cString mem p = some bytes
  /-- It lies in front of the buffer or behind it. -/
  apart : p + (bytes.length + 1) ≤ data ∨ data + capacity ≤ p

/-- A string outside the buffer. -/
theorem StringAt.around (data capacity p : Nat) (bytes : List UInt8) :
    Around data capacity (StringAt data capacity p bytes) := by
  intro mem mem' hsame ⟨hpos, hread, hapart⟩
  refine ⟨hpos, ?_, hapart⟩
  obtain ⟨hbytes, hrest⟩ := cString_eq_some_iff.mp hread
  refine cString_eq_some_iff.mpr ⟨?_, hrest⟩
  rw [← hbytes]
  exact Cells.read_congr fun i hlo hhi => hsame i (by omega)

/-- Appending a constant writes it. -/
theorem writes_appendLiteral {data capacity p : Nat} {bytes : List UInt8} {I : Memory → Prop}
    (hI : ∀ mem, I mem → StringAt data capacity p bytes mem) :
    Writes data capacity I (appendLiteral p) [some bytes] := by
  refine Writes.one fun s a h ha => ?_
  obtain ⟨hpos, hread, -⟩ := hI a.2 ha
  exact h.appendCString (Nat.ne_of_gt hpos) hread

end CanonC
