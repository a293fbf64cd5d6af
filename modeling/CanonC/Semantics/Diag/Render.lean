import CanonC.Core.Format
import CanonC.Semantics.Diag.Model

/-!
# Rendering a chain

Each frame is one line, and the lines are written one behind the other until the buffer is full;
the frames that no longer fit are still measured. The buffer holds what fits of the whole text,
and the total is the length of that text.
-/

namespace CanonC

open Toolkit

/-- The format of a frame without the newline. -/
def diagFrameFormat : String := "[%zu] %s:%zu in %s() -- error %d: \"%s\""

/-- The format of a line. -/
def diagLineFormat : String := "[%zu] %s:%zu in %s() -- error %d: \"%s\"\n"

/-- The bytes of a string, a question mark for NULL. -/
def diagName (s : Option CString) : List UInt8 :=
  match s with
  | none => [UInt8.ofNat ('?').toNat]
  | some s => s.bytes

/-- The bytes of a message, up to its terminator. -/
def diagMessage (c : DiagConfig) (message : Nat → UInt8) : List UInt8 :=
  if message 0 ≠ 0 then (Cells.read message 0 c.maxMsgLen).takeWhile (· ≠ 0)
  else formatText "(no message)".toList []

/-- The arguments that a frame and its index are formatted with. -/
def diagArgs (c : DiagConfig) (f : DiagFrame) (index : Nat) : List FormatArg :=
  [.zu index, .s (diagName f.file), .zu f.line, .s (diagName f.func), .d f.code,
    .s (diagMessage c f.message)]

/-- `diag_render_frame`. -/
def diagRenderFrame (c : DiagConfig) (mem : Memory) (f : Option DiagFrame)
    (index buf : Nat) (bufSize : Usize) : Memory × Nat :=
  let mem := if buf ≠ 0 ∧ bufSize.val > 0 then Function.update mem buf 0 else mem
  match f with
  | none => (mem, 0)
  | some f =>
    if buf = 0 ∨ bufSize.val = 0 then (mem, 0)
    else
      let (mem, n) := snprintf mem buf bufSize diagFrameFormat (diagArgs c f index)
      (mem, if n < 0 then 0 else n.toNat)

/-- The loop of `diag_render`, with `left` frames from `i` on. -/
def diagRenderFrom (c : DiagConfig) (d : Diag) (buf : Nat) (bufSize : Usize) :
    Nat → Nat → Memory → Nat → Memory × Nat
  | 0, _, mem, total => (mem, total)
  | left + 1, i, mem, total =>
    let (dst, rem) := if total < bufSize.val then (buf + total, bufSize.val - total) else (buf, 0)
    let (mem, n) := snprintf mem dst rem diagLineFormat (diagArgs c (d.frames i) i)
    -- an encoding error skips the frame
    diagRenderFrom c d buf bufSize left (i + 1) mem
      (if n < 0 then total else usizeAdd total n.toNat)

/-- `diag_render`. -/
def diagRender (c : DiagConfig) (mem : Memory) (d : Option Diag) (buf : Nat)
    (bufSize : Usize) : Memory × Nat :=
  let mem := if buf ≠ 0 ∧ bufSize.val > 0 then Function.update mem buf 0 else mem
  match d with
  | none => (mem, 0)
  | some d =>
    if buf = 0 ∨ bufSize.val = 0 ∨ d.depth = 0 then (mem, 0)
    else diagRenderFrom c d buf bufSize d.depth 0 mem 0

/-- The text of a frame. -/
def diagFrameText (c : DiagConfig) (f : DiagFrame) (index : Nat) : List UInt8 :=
  formatText diagFrameFormat.toList (diagArgs c f index)

/-- The line of a frame. -/
def diagLine (c : DiagConfig) (f : DiagFrame) (index : Nat) : List UInt8 :=
  diagFrameText c f index ++ [UInt8.ofNat ('\n').toNat]

/-- The lines of the first frames. -/
def Diag.text (c : DiagConfig) (d : Diag) (n : Nat) : List UInt8 :=
  (List.range n).flatMap fun i => diagLine c (d.frames i) i

/-- The lines of a chain, none for NULL. -/
def diagText (c : DiagConfig) (d : Option Diag) : List UInt8 :=
  match d with
  | none => []
  | some d => d.text c d.depth

variable {c : DiagConfig} {d : Diag} {mem : Memory} {buf : Nat} {bufSize : Usize}

/-- The line format adds a newline to the text of a frame. -/
theorem formatText_diagLineFormat (c : DiagConfig) (f : DiagFrame) (index : Nat) :
    formatText diagLineFormat.toList (diagArgs c f index) = diagLine c f index := by
  simp [diagLine, diagFrameText, diagLineFormat, diagFrameFormat, diagArgs, formatText]

/-- One more line behind the text. -/
theorem Diag.text_succ (i : Nat) : d.text c (i + 1) = d.text c i ++ diagLine c (d.frames i) i := by
  rw [Diag.text, List.range_succ, List.flatMap_append, List.flatMap_singleton]
  rfl

/-- More lines make no shorter text. -/
theorem Diag.length_text_le {i n : Nat} (h : i ≤ n) :
    (d.text c i).length ≤ (d.text c n).length := by
  induction h with
  | refl => exact Nat.le_refl _
  | step _ ih =>
    rw [Diag.text_succ, List.length_append]
    omega

private theorem write_update_cutTo (text : List UInt8) :
    Cells.write (Function.update mem buf 0) buf (cutTo 0 bufSize.val text) =
      Cells.write mem buf (cutTo 0 bufSize.val text) := by
  have hlen : ([0] : List UInt8).length ≤ (cutTo 0 bufSize.val text).length := by
    rw [length_cutTo]
    exact Nat.le_add_left 1 _
  rw [Cells.update_eq_write]
  exact @Cells.write_write_append _ mem buf [] _ [0] hlen

/-- The buffer gets what fits of the text of a frame, and the result is the length of the text. -/
theorem diagRenderFrame_eq {f : DiagFrame} {i : Nat} (hbuf : buf ≠ 0) (hsize : 1 ≤ bufSize.val)
    (hcount : 0 ≤ formatCount (diagFrameText c f i)) :
    diagRenderFrame c mem (some f) i buf bufSize =
      (Cells.write mem buf (cutTo 0 bufSize.val (diagFrameText c f i)),
        (diagFrameText c f i).length) := by
  have hres := formatCount_of_nonneg hcount
  have hzero : bufSize.val ≠ 0 := by omega
  have hpos : bufSize.val > 0 := hsize
  have hguard : ¬(buf = 0 ∨ bufSize.val = 0) := by omega
  have hlen : ¬((diagFrameText c f i).length : Int) < 0 := by omega
  have htext : formatText diagFrameFormat.toList (diagArgs c f i) = diagFrameText c f i := rfl
  simp only [diagRenderFrame, snprintf, htext, hres, if_pos (And.intro hbuf hpos), if_neg hguard,
    if_neg hzero, if_neg hlen, Int.toNat_natCast, write_update_cutTo]

/-- One round writes the next line into what is left of the buffer and adds its length. -/
theorem diagRenderFrom_succ {left i : Nat}
    (hcount : 0 ≤ formatCount (diagLine c (d.frames i) i))
    (hfit : (d.text c (i + 1)).length < usizeSize) :
    diagRenderFrom c d buf bufSize (left + 1) i
        (Cells.write mem buf (cutTo 0 bufSize.val (d.text c i))) (d.text c i).length =
      diagRenderFrom c d buf bufSize left (i + 1)
        (Cells.write mem buf (cutTo 0 bufSize.val (d.text c (i + 1))))
        (d.text c (i + 1)).length := by
  have hres := formatCount_of_nonneg hcount
  have htotal : usizeAdd (d.text c i).length (diagLine c (d.frames i) i).length =
      (d.text c (i + 1)).length := by
    rw [Diag.text_succ, List.length_append] at hfit ⊢
    exact usizeAdd_of_lt hfit
  have hstep : (if ((diagLine c (d.frames i) i).length : Int) < 0 then (d.text c i).length
      else usizeAdd (d.text c i).length ((diagLine c (d.frames i) i).length : Int).toNat) =
      (d.text c (i + 1)).length := by
    rw [if_neg (by omega), Int.toNat_natCast, htotal]
  by_cases hroom : (d.text c i).length < bufSize.val
  · have hrem : bufSize.val - (d.text c i).length ≠ 0 := by omega
    simp only [diagRenderFrom, snprintf, formatText_diagLineFormat, hres, if_pos hroom,
      if_neg hrem, hstep]
    rw [Cells.write_cutTo_append hroom, ← Diag.text_succ]
  · simp only [diagRenderFrom, snprintf, formatText_diagLineFormat, hres, if_neg hroom, if_true,
      hstep]
    rw [Diag.text_succ, cutTo_append_of_le (Nat.le_of_not_lt hroom)]

/-- The loop leaves what fits of all lines. -/
theorem diagRenderFrom_eq {n : Nat}
    (hcount : ∀ i, i < n → 0 ≤ formatCount (diagLine c (d.frames i) i))
    (hfit : (d.text c n).length < usizeSize) : ∀ left i, i + left = n →
    diagRenderFrom c d buf bufSize left i
        (Cells.write mem buf (cutTo 0 bufSize.val (d.text c i))) (d.text c i).length =
      (Cells.write mem buf (cutTo 0 bufSize.val (d.text c n)), (d.text c n).length) := by
  intro left
  induction left with
  | zero =>
    rintro i rfl
    rfl
  | succ left ih =>
    intro i hi
    have hle := Diag.length_text_le (c := c) (d := d) (show i + 1 ≤ n by omega)
    rw [diagRenderFrom_succ (hcount i (by omega)) (by omega)]
    exact ih (i + 1) (by omega)

/-- The buffer gets what fits of the text, and the result is the length of the text. -/
theorem diagRender_eq {d : Option Diag} (hbuf : buf ≠ 0) (hsize : 1 ≤ bufSize.val)
    (hcount : ∀ i f, diagFrameAt d i = some f → 0 ≤ formatCount (diagLine c f i))
    (hfit : (diagText c d).length < usizeSize) :
    diagRender c mem d buf bufSize =
      (Cells.write mem buf (cutTo 0 bufSize.val (diagText c d)), (diagText c d).length) := by
  have hempty : Function.update mem buf 0 = Cells.write mem buf (cutTo 0 bufSize.val []) := by
    rw [Cells.update_eq_write, cutTo, List.take_nil, List.nil_append]
  have hpos : 0 < bufSize.val := hsize
  have hstart : (if buf ≠ 0 ∧ bufSize.val > 0 then Function.update mem buf 0 else mem) =
      Cells.write mem buf (cutTo 0 bufSize.val []) := by
    rw [if_pos ⟨hbuf, hpos⟩, hempty]
  cases d with
  | none => rw [diagRender, hstart]; rfl
  | some d =>
    rw [diagRender, hstart]
    by_cases hdepth : d.depth = 0
    · simp [hdepth, diagText, Diag.text]
    · have hguard : ¬(buf = 0 ∨ bufSize.val = 0 ∨ d.depth = 0) := by omega
      rw [if_neg hguard]
      refine diagRenderFrom_eq (fun i hi => hcount i _ ?_) hfit d.depth 0 (Nat.zero_add _)
      rw [diagFrameAt, Option.bind_some, if_neg (by omega)]

/-- A frame is measured where its line is. -/
theorem formatCount_frame {f : DiagFrame} {i : Nat} (h : 0 ≤ formatCount (diagLine c f i)) :
    0 ≤ formatCount (diagFrameText c f i) := by
  rw [formatCount_nonneg] at h ⊢
  rw [diagLine, List.length_append] at h
  omega

/-- Where every line can be measured and the length of the text is a `usize`, rendering gives that
length and leaves what fits of the text in the buffer, terminated, and no other byte changed. The
lines are the texts that rendering a single frame gives, each with a newline, and a buffer of one
byte more than the length, where that is a `usize` too, takes the whole text. -/
theorem diagRender_lines (d : Option Diag) (mem : Memory) (hbuf : buf ≠ 0) (hsize : 1 ≤ bufSize.val)
    (hcount : ∀ i f, diagFrameAt d i = some f → 0 ≤ formatCount (diagLine c f i))
    (hfit : (diagText c d).length ≤ usizeMax) :
    (diagRender c mem d buf bufSize).2 = (diagText c d).length ∧
      Cells.read (diagRender c mem d buf bufSize).1 buf
          (min (diagText c d).length (bufSize.val - 1) + 1) =
        (diagText c d).take (bufSize.val - 1) ++ [0] ∧
      (∀ a, a < buf ∨ buf + bufSize.val ≤ a → (diagRender c mem d buf bufSize).1 a = mem a) ∧
      (∀ i f, diagFrameAt d i = some f → ∀ (mem' : Memory) (buf' : Nat) (size' : Usize),
        buf' ≠ 0 → size'.val = (diagFrameText c f i).length + 1 →
        diagRenderFrame c mem' (some f) i buf' size' =
          (Cells.write mem' buf' (diagFrameText c f i ++ [0]), (diagFrameText c f i).length)) ∧
      ∀ (mem' : Memory) (buf' : Nat) (size' : Usize), buf' ≠ 0 →
        size'.val = (diagText c d).length + 1 → diagRender c mem' d buf' size' =
          (Cells.write mem' buf' (diagText c d ++ [0]), (diagText c d).length) := by
  have hlt : (diagText c d).length < usizeSize := by
    rw [← usizeMax_succ]
    omega
  rw [diagRender_eq hbuf hsize hcount hlt]
  refine ⟨rfl, ?_, ?_, ?_, ?_⟩
  · rw [← length_cutTo]
    exact Cells.read_write_self
  · intro a ha
    have hlen := @length_cutTo_le _ 0 bufSize.val (diagText c d) hsize
    exact Cells.write_of_outside (by omega)
  · intro i f hf mem' buf' size' hbuf' hsize'
    rw [diagRenderFrame_eq hbuf' (by omega) (formatCount_frame (hcount i f hf)),
      cutTo_of_lt (by omega)]
  · intro mem' buf' size' hbuf' hsize'
    rw [diagRender_eq hbuf' (by omega) hcount hlt, cutTo_of_lt (by omega)]

/-- A frame that has a file name and nothing else. -/
def diagPlain (file : Option CString) : DiagFrame := ⟨file, none, 1, 1, fun _ => 0⟩

/-- The two lines of a chain in a buffer of sixteen bytes. -/
theorem diagRender_lines_two :
    (diagRender ⟨2, 8, by decide, by decide⟩ (fun _ => 1)
      (some ⟨fun _ => diagPlain none, 2⟩) 64 16).2 = 84 := by
  refine (diagRender_lines _ (fun _ => 1) (by decide) (by decide) ?_ (by decide)).1.trans ?_
  · intro i f hf
    rw [diagFrameAt, Option.bind_some, Option.ite_none_left_eq_some, Option.some.injEq] at hf
    obtain ⟨hi, rfl⟩ := hf
    have hlt : i < 2 := Nat.lt_of_not_le hi
    rcases (show i = 0 ∨ i = 1 by omega) with rfl | rfl <;> decide
  · decide

/-- The length of a line. -/
theorem length_diagLine (f : DiagFrame) (i : Nat) : (diagLine c f i).length =
    (decimal i).length + (diagName f.file).length + (decimal f.line).length +
      (diagName f.func).length + (signedDecimal f.code).length +
      (diagMessage c f.message).length + 25 := by
  simp [diagLine, diagFrameText, diagFrameFormat, diagArgs, formatText]
  omega

/-- The length of a line without function and message. -/
theorem length_diagLine_plain (file : Option CString) (i : Nat) :
    (diagLine c (diagPlain file) i).length =
      (decimal i).length + (diagName file).length + 40 := by
  have hmsg : diagMessage c (diagPlain file).message = formatText "(no message)".toList [] := by
    rw [diagMessage, diagPlain, if_neg (not_not.mpr rfl)]
  have hline : (decimal 1).length = 1 := by decide
  have hcode : (signedDecimal 1).length = 1 := by decide
  have htext : (formatText "(no message)".toList []).length = 12 := by decide
  have hfunc : (diagName none).length = 1 := by decide
  rw [length_diagLine, hmsg, htext]
  simp only [diagPlain, hline, hcode, hfunc]

/-- Frames that take some length each take it together. -/
theorem Diag.le_length_text {m : Nat} (h : ∀ i, m ≤ (diagLine c (d.frames i) i).length) (n : Nat) :
    n * m ≤ (d.text c n).length := by
  induction n with
  | zero => rw [Nat.zero_mul]; exact Nat.zero_le _
  | succ n ih =>
    have hline := h n
    rw [Diag.text_succ, List.length_append, Nat.succ_mul]
    omega

/-- The total is a `usize`. -/
theorem diagRenderFrom_lt : ∀ (left i : Nat) (mem : Memory) (total : Nat), total < usizeSize →
    (diagRenderFrom c d buf bufSize left i mem total).2 < usizeSize := by
  intro left
  induction left with
  | zero => exact fun i mem total h => h
  | succ left ih =>
    intro i mem total h
    rw [diagRenderFrom]
    refine ih _ _ _ ?_
    split
    · exact h
    · exact Nat.mod_lt _ (by decide)

/-- The length that is returned is a `usize`. -/
theorem diagRender_lt (d : Option Diag) : (diagRender c mem d buf bufSize).2 < usizeSize := by
  cases d with
  | none => exact (by decide : 0 < usizeSize)
  | some d =>
    rw [diagRender]
    split
    · exact (by decide : 0 < usizeSize)
    · exact diagRenderFrom_lt _ _ _ _ (by decide)

/-- A file name of `2 ^ 30` bytes. -/
def diagLongName : CString :=
  ⟨List.replicate (2 ^ 30) 97,
    fun b hb => by rw [List.eq_of_mem_replicate hb]; decide,
    by rw [List.length_replicate]; decide⟩

/-- A chain whose lines can all be measured, and together are longer than any `usize`. -/
theorem diagRender_lines_wraps : ∃ (c : DiagConfig) (d : Diag), d.depth ≤ c.maxFrames ∧
    (∀ i f, diagFrameAt (some d) i = some f → 0 ≤ formatCount (diagLine c f i)) ∧
    ∀ (mem : Memory) (buf : Nat) (bufSize : Usize),
      (diagRender c mem (some d) buf bufSize).2 ≠ (diagText c (some d)).length := by
  let c : DiagConfig := ⟨2 ^ 34, 1, Nat.one_le_two_pow, Nat.le_refl 1⟩
  let d : Diag := ⟨fun _ => diagPlain (some diagLongName), 2 ^ 34⟩
  have hname : (diagName (some diagLongName)).length = 2 ^ 30 := List.length_replicate
  have hlen : ∀ i, (diagLine c (diagPlain (some diagLongName)) i).length =
      (decimal i).length + 2 ^ 30 + 40 := by
    intro i
    rw [length_diagLine_plain, hname]
  refine ⟨c, d, Nat.le_refl _, ?_, ?_⟩
  · intro i f hf
    rw [diagFrameAt, Option.bind_some, Option.ite_none_left_eq_some, Option.some.injEq] at hf
    obtain ⟨hi, rfl⟩ := hf
    have hdigits := length_decimal_le (n := i) (show 0 < 11 by decide) (by
      have hlt : i < 2 ^ 34 := Nat.lt_of_not_le hi
      omega)
    rw [formatCount_nonneg, hlen, intMax]
    omega
  · intro mem buf bufSize heq
    have htext : 2 ^ 34 * 2 ^ 30 ≤ (diagText c (some d)).length := by
      refine Diag.le_length_text (fun i => ?_) (2 ^ 34)
      rw [hlen]
      omega
    have hlt := @diagRender_lt c mem buf bufSize (some d)
    rw [heq, usizeSize] at hlt
    omega

end CanonC
