import CanonC.Data.Stringbuf.Model
import CanonC.Toolkit.Run

/-!
# The string builder is a bounded byte string

Memory holds the contents and behind them the terminator. An append reads its source
before it writes, so a source in the buffer is no exception.
-/

namespace CanonC

open Toolkit

/-- The bytes a call appends, as memory holds them before the call; absent where the
source is a string without a terminator. -/
def AppendCall.source (mem : Memory) : AppendCall → Option (List UInt8)
  | .append s => if s.val = 0 then some [] else cString mem s
  | .appendStr ptr len => some (if ptr.val = 0 then [] else Cells.read mem ptr len)
  | .appendChar c => some [c]
  | .appendN s n => some (if s.val = 0 then [] else (Cells.read mem s n).takeWhile (· ≠ 0))

/-- A byte string and the memory that calls read from. -/
abbrev ByteString : Type := List UInt8 × Memory

/-- Append bytes to a byte string that has room for them and a terminator. -/
def ByteString.append (data capacity : Nat) (a : ByteString) (source : List UInt8) :
    Bool × ByteString :=
  if a.1.length + source.length + 1 ≤ capacity then
    (true, a.1 ++ source, Cells.write a.2 (data + a.1.length) (source ++ [0]))
  else (false, a)

/-- The calls on a byte string of less than `capacity` bytes; a failure marks a call that
breaks the contract. -/
def byteStringSpec (data capacity : Nat) (a : ByteString) :
    StringBufOp → Except Unit (StringBufOut × ByteString)
  | .append call =>
    match call.source a.2 with
    | none => .error ()
    | some source =>
      let (ok, a) := ByteString.append data capacity a source
      .ok (.flag ok, a)
  | .truncate newLen =>
    if newLen < a.1.length then
      .ok (.done, a.1.take newLen, Cells.write a.2 (data + newLen) [0])
    else .ok (.done, a)
  | .clear => .ok (.done, [], Cells.write a.2 data [0])
  | .store ptr bytes =>
    if ptr + bytes.length ≤ data ∨ data + capacity ≤ ptr then
      .ok (.done, a.1, Cells.write a.2 ptr bytes)
    else .error ()

/-- The two checked sums accept exactly the bytes that fit with a terminator. -/
theorem stringbufAppendBytes_eq {sb : StringBuf} {mem : Memory} {src n : Nat}
    (hlen : sb.len < usizeSize) (hn : n < usizeSize) (hcapacity : sb.capacity < usizeSize) :
    stringbufAppendBytes sb mem src n =
      if sb.len + n + 1 ≤ sb.capacity then
        (true, { sb with len := sb.len + n },
          Function.update (memMove mem (sb.data + sb.len) src n) (sb.data + (sb.len + n)) 0)
      else (false, sb, mem) := by
  rw [stringbufAppendBytes, checkedAdd_eq hlen hn]
  by_cases hsum : sb.len + n < usizeSize
  · simp only [if_pos hsum, checkedAdd_eq hsum (by decide : 1 < usizeSize)]
    by_cases hsucc : sb.len + n + 1 < usizeSize
    · simp only [if_pos hsucc]
      by_cases hfits : sb.len + n + 1 ≤ sb.capacity
      · rw [if_neg (Nat.not_lt.mpr hfits), if_pos hfits]
      · rw [if_pos (Nat.lt_of_not_le hfits), if_neg hfits]
    · rw [if_neg hsucc, if_neg (by omega)]
  · rw [if_neg hsum, if_neg (by omega)]

/-- The buffer holds the contents of a byte string and the terminator. -/
structure StringBufState.Holds (data capacity : Nat) (s : StringBufState) (a : ByteString) :
    Prop where
  /-- Both see the same memory. -/
  mem_eq : s.2 = a.2
  /-- The buffer is where it was. -/
  data_eq : s.1.data = data
  /-- The buffer is not NULL. -/
  data_pos : 0 < data
  /-- The buffer has the size it had. -/
  capacity_eq : s.1.capacity = capacity
  /-- The capacity is a `usize`. -/
  capacity_lt : capacity < usizeSize
  /-- The length is the one of the contents. -/
  len_eq : s.1.len = a.1.length
  /-- There is room for the terminator. -/
  length_lt : a.1.length < capacity
  /-- The contents and the terminator behind them. -/
  stored : Cells.read a.2 data (a.1.length + 1) = a.1 ++ [0]

/-- An append of the code answers as the one on byte strings and leaves its result. -/
def Appends (data capacity : Nat) (r : Bool × StringBufState) (x : Bool × ByteString) : Prop :=
  r.1 = x.1 ∧ r.2.Holds data capacity x.2

namespace StringBufState.Holds

variable {data capacity : Nat} {s s' : StringBufState} {a : ByteString} {source : List UInt8}

/-- The state is determined by the byte string. -/
theorem unique (h : s.Holds data capacity a) (h' : s'.Holds data capacity a) : s' = s := by
  obtain ⟨⟨d, l, c⟩, mem⟩ := s
  obtain ⟨⟨d', l', c'⟩, mem'⟩ := s'
  have hd := h'.data_eq.trans h.data_eq.symm
  have hl := h'.len_eq.trans h.len_eq.symm
  have hc := h'.capacity_eq.trans h.capacity_eq.symm
  have hm := h'.mem_eq.trans h.mem_eq.symm
  simp only at hd hl hc hm
  rw [hd, hl, hc, hm]

/-- The buffer reads as the bytes. -/
theorem read_contents (h : s.Holds data capacity a) : Cells.read a.2 data a.1.length = a.1 := by
  rw [← Cells.take_read (Nat.le_succ a.1.length), h.stored, List.take_left]

/-- A terminator stands behind the bytes. -/
theorem terminated (h : s.Holds data capacity a) : a.2 (data + a.1.length) = 0 := by
  have hread := h.stored
  rw [Cells.read_add, h.read_contents, Cells.read_one] at hread
  simpa using hread

/-- Bytes and a terminator written behind the first `k` bytes. -/
theorem wrote (h : s.Holds data capacity a) (source : List UInt8) {k : Nat} (hk : k ≤ a.1.length)
    (hfits : k + source.length + 1 ≤ capacity) :
    StringBufState.Holds data capacity
      (⟨data, k + source.length, capacity⟩, Cells.write a.2 (data + k) (source ++ [0]))
      (a.1.take k ++ source, Cells.write a.2 (data + k) (source ++ [0])) := by
  have hlen : (a.1.take k).length = k := List.length_take_of_le hk
  have hread : Cells.read a.2 data (a.1.take k).length = a.1.take k := by
    apply Cells.read_of_prefix
    rw [h.stored]
    exact (List.take_prefix k a.1).trans (List.prefix_append a.1 [0])
  have hstored := Cells.read_write_append hread (source ++ [0])
  refine ⟨rfl, rfl, h.data_pos, rfl, h.capacity_lt, ?_, ?_, ?_⟩
  · simp only [List.length_append, hlen]
  · simp only [List.length_append, hlen]
    omega
  · simpa only [hlen, List.length_append, List.length_singleton, ← Nat.add_assoc,
      ← List.append_assoc] using hstored

/-- An append of no bytes changes nothing. -/
theorem append_nil (h : s.Holds data capacity a) :
    ByteString.append data capacity a [] = (true, a) := by
  have hlt : a.1.length + 1 ≤ capacity := h.length_lt
  have hwrite : Cells.write a.2 (data + a.1.length) [0] = a.2 := by
    rw [← h.terminated, ← Cells.read_one, Cells.write_read_self]
  rw [ByteString.append, if_pos (by simpa using hlt), List.append_nil, List.nil_append, hwrite]

/-- The common append of the bytes at an address. -/
theorem appendBytes (h : s.Holds data capacity a) {src n : Nat} (hsrc : src ≠ 0)
    (hn : n < usizeSize) :
    Appends data capacity (stringbufAppendBytes s.1 s.2 src n)
      (ByteString.append data capacity a (Cells.read a.2 src n)) := by
  have hcapacity := h.capacity_lt
  have hlt := h.length_lt
  have hdata := h.data_pos
  rw [stringbufAppendBytes_eq (by rw [h.len_eq]; omega) hn (by rw [h.capacity_eq]; omega),
    ByteString.append, h.len_eq, h.capacity_eq, h.data_eq, h.mem_eq, Cells.length_read]
  by_cases hfits : a.1.length + n + 1 ≤ capacity
  · have hw := h.wrote (Cells.read a.2 src n) (Nat.le_refl _) (by simpa using hfits)
    rw [if_pos hfits, if_pos hfits, memMove_eq_write (by omega) hsrc]
    refine ⟨rfl, ?_⟩
    have hupdate := Cells.update_write a.2 (data + a.1.length) (Cells.read a.2 src n) 0
    rw [Cells.length_read, Nat.add_assoc] at hupdate
    simpa only [List.take_length, Cells.length_read, h.mem_eq, hupdate] using hw
  · rw [if_neg hfits, if_neg hfits, ← h.mem_eq]
    exact ⟨rfl, h⟩

/-- The buffer is not NULL. -/
theorem data_ne_zero (h : s.Holds data capacity a) : s.1.data ≠ 0 := by
  rw [h.data_eq]
  exact Nat.ne_of_gt h.data_pos

/-- A call that returns early appends no bytes. -/
theorem appends_nil (h : s.Holds data capacity a) :
    Appends data capacity (true, s) (ByteString.append data capacity a []) := by
  rw [h.append_nil]
  exact ⟨rfl, h⟩

/-- `stringbuf_append` of a string. -/
theorem appendCString (h : s.Holds data capacity a) {p : Nat} (hp : p ≠ 0)
    (hsource : cString a.2 p = some source) :
    ∃ r, stringbufAppend s.1 s.2 p = .ok r ∧
      Appends data capacity r (ByteString.append data capacity a source) := by
  have hstrlen := strlen_eq s.2 (Nat.pos_of_ne_zero hp)
  rw [h.mem_eq, hsource, Option.map_some] at hstrlen
  have hlen : source.length < usizeSize := by
    have hle := length_cString_le hsource
    unfold usizeSize at hle ⊢
    omega
  have happ := h.appendBytes hp hlen
  rw [read_cString hsource] at happ
  refine ⟨_, ?_, happ⟩
  rw [stringbufAppend, if_neg h.data_ne_zero, if_neg hp, h.mem_eq, hstrlen]

/-- `stringbuf_append_str`. -/
theorem appendStr (h : s.Holds data capacity a) (p : Nat) {n : Nat} (hn : n < usizeSize) :
    Appends data capacity (stringbufAppendStr s.1 s.2 ⟨p, n⟩)
      (ByteString.append data capacity a (if p = 0 then [] else Cells.read a.2 p n)) := by
  rw [stringbufAppendStr, if_neg h.data_ne_zero]
  by_cases hp : p = 0
  · rw [if_pos (Or.inl hp), if_pos hp]
    exact h.appends_nil
  · rw [if_neg hp]
    by_cases hn0 : n = 0
    · rw [if_pos (Or.inr hn0), hn0]
      exact h.appends_nil
    · rw [if_neg (not_or.mpr ⟨hp, hn0⟩)]
      exact h.appendBytes hp hn

/-- `stringbuf_append_char`. -/
theorem appendChar (h : s.Holds data capacity a) (c : UInt8) :
    Appends data capacity (stringbufAppendChar s.1 s.2 c)
      (ByteString.append data capacity a [c]) := by
  have hcapacity := h.capacity_lt
  have hlt := h.length_lt
  rw [stringbufAppendChar, if_neg h.data_ne_zero, ByteString.append, h.len_eq, h.capacity_eq,
    h.data_eq, h.mem_eq, checkedAdd_eq (by omega) (by decide), List.length_singleton]
  by_cases hsum : a.1.length + 2 < usizeSize
  · simp only [if_pos hsum]
    by_cases hfits : a.1.length + 1 + 1 ≤ capacity
    · have hw := h.wrote [c] (Nat.le_refl _) (by simpa using hfits)
      rw [if_neg (by omega), if_pos hfits, usizeAdd_of_lt (by omega)]
      refine ⟨rfl, ?_⟩
      have hupdate := Cells.update_write a.2 (data + a.1.length) [c] 0
      rw [← Cells.update_eq_write, List.length_singleton, Nat.add_assoc] at hupdate
      simpa only [List.take_length, List.length_singleton, hupdate] using hw
    · rw [if_pos (by omega), if_neg hfits, ← h.mem_eq]
      exact ⟨rfl, h⟩
  · rw [if_neg hsum, if_neg (by omega), ← h.mem_eq]
    exact ⟨rfl, h⟩

/-- `stringbuf_append_n`. -/
theorem appendN (h : s.Holds data capacity a) (p : Nat) {n : Nat} (hn : n < usizeSize) :
    Appends data capacity (stringbufAppendN s.1 s.2 p n)
      (ByteString.append data capacity a
        (if p = 0 then [] else (Cells.read a.2 p n).takeWhile (· ≠ 0))) := by
  rw [stringbufAppendN, if_neg h.data_ne_zero]
  by_cases hp : p = 0
  · rw [if_pos (Or.inl hp), if_pos hp]
    exact h.appends_nil
  · rw [if_neg hp]
    by_cases hn0 : n = 0
    · rw [if_pos (Or.inr hn0), hn0]
      exact h.appends_nil
    · have hread := read_nulScan a.2 p hn
      have hscan : nulScan a.2 p n 0 ≤ n := by
        rw [nulScan_eq (by omega), Nat.zero_add]
        have hle := (List.takeWhile_prefix (fun b : UInt8 => decide (b ≠ 0))
          (l := Cells.read a.2 (p + 0) n)).length_le
        rwa [Cells.length_read] at hle
      rw [if_neg (not_or.mpr ⟨hp, hn0⟩), ← hread]
      simp only [h.mem_eq]
      by_cases hzero : nulScan a.2 p n 0 = 0
      · rw [if_pos hzero, hzero, ← h.mem_eq]
        exact h.appends_nil
      · have happ := h.appendBytes hp (hscan.trans_lt hn)
        rw [h.mem_eq] at happ
        rw [if_neg hzero]
        exact happ

/-- Every append acts as on byte strings, on the source as it is before the call. -/
theorem append_agree (h : s.Holds data capacity a) (call : AppendCall) :
    (call.source a.2 = none ∧ call.run s = .error outOfBounds) ∨
      ∃ source r, call.source a.2 = some source ∧ call.run s = .ok r ∧
        Appends data capacity r (ByteString.append data capacity a source) := by
  cases call with
  | append p =>
    by_cases hp : p.val = 0
    · refine Or.inr ⟨[], (true, s), if_pos hp, ?_, h.appends_nil⟩
      rw [AppendCall.run, stringbufAppend, if_neg h.data_ne_zero, if_pos hp]
    · cases hsource : cString a.2 p with
      | none =>
        have hstrlen := strlen_eq s.2 (Nat.pos_of_ne_zero hp)
        rw [h.mem_eq, hsource, Option.map_none, ← h.mem_eq] at hstrlen
        refine Or.inl ⟨(if_neg hp).trans hsource, ?_⟩
        rw [AppendCall.run, stringbufAppend, if_neg h.data_ne_zero, if_neg hp, hstrlen]
      | some source =>
        obtain ⟨r, hr, happ⟩ := h.appendCString hp hsource
        exact Or.inr ⟨source, r, (if_neg hp).trans hsource, hr, happ⟩
  | appendStr p n => exact Or.inr ⟨_, _, rfl, rfl, h.appendStr p n.isLt⟩
  | appendChar c => exact Or.inr ⟨_, _, rfl, rfl, h.appendChar c⟩
  | appendN p n => exact Or.inr ⟨_, _, rfl, rfl, h.appendN p n.isLt⟩

/-- Every call acts as on byte strings. -/
theorem step_agree (h : s.Holds data capacity a) (op : StringBufOp) :
    Agree (Holds data capacity) (stringbufStep s op) (byteStringSpec data capacity a op) := by
  cases op with
  | append call =>
    rw [stringbufStep, byteStringSpec]
    rcases h.append_agree call with ⟨hsource, hrun⟩ | ⟨source, r, hsource, hrun, hflag, hholds⟩
    · rw [hsource, hrun]
      trivial
    · rw [hsource, hrun]
      exact ⟨congrArg StringBufOut.flag hflag, hholds⟩
  | truncate newLen =>
    rw [stringbufStep, byteStringSpec, stringbufTruncate, h.len_eq]
    by_cases hn : newLen.val < a.1.length
    · have hw := h.wrote [] hn.le (by have hlt := h.length_lt; simp; omega)
      rw [if_pos ⟨h.data_ne_zero, hn⟩, if_pos hn, Cells.update_eq_write, h.data_eq, h.capacity_eq,
        h.mem_eq]
      exact ⟨rfl, by simpa using hw⟩
    · rw [if_neg (fun hand => hn hand.2), if_neg hn]
      exact ⟨rfl, h⟩
  | clear =>
    have hlt := h.length_lt
    have hw := h.wrote [] (Nat.zero_le _) (by simp; omega)
    rw [stringbufStep, byteStringSpec, stringbufClear, if_pos h.data_ne_zero,
      Cells.update_eq_write, h.data_eq, h.capacity_eq, h.mem_eq]
    exact ⟨rfl, by simpa using hw⟩
  | store ptr bytes =>
    rw [stringbufStep, byteStringSpec, h.data_eq, h.capacity_eq]
    by_cases hout : ptr + bytes.length ≤ data ∨ data + capacity ≤ ptr
    · have hlt := h.length_lt
      have hframe : Cells.read (Cells.write a.2 ptr bytes) data (a.1.length + 1) = a.1 ++ [0] := by
        rw [Cells.read_write_of_disjoint (by omega), h.stored]
      rw [if_pos hout, if_pos hout]
      exact ⟨rfl, congrArg (Cells.write · ptr bytes) h.mem_eq, h.data_eq, h.data_pos,
        h.capacity_eq, h.capacity_lt, h.len_eq, h.length_lt, hframe⟩
    · rw [if_neg hout, if_neg hout]
      trivial

/-- What is left of the capacity, over the integers. -/
theorem remaining_eq (h : s.Holds data capacity a) :
    stringbufRemaining s.1 = capacity - (a.1.length + 1) := by
  have hcapacity := h.capacity_lt
  have hlt := h.length_lt
  rw [stringbufRemaining, h.capacity_eq, h.len_eq, if_neg (by omega), usizeAdd_of_lt (by omega),
    checkedSub_eq hcapacity, if_pos (by omega), Option.getD_some]

/-- A buffer is full when it has room for the terminator only. -/
theorem isFull_iff (h : s.Holds data capacity a) :
    stringbufIsFull s.1 = true ↔ capacity ≤ a.1.length + 1 := by
  have hcapacity := h.capacity_lt
  have hlt := h.length_lt
  rw [stringbufIsFull, h.capacity_eq, h.len_eq, usizeAdd_of_lt (by omega), decide_eq_true_eq]

end StringBufState.Holds

/-- The contents of a string builder. -/
def StringBufState.contents (s : StringBufState) : List UInt8 :=
  Cells.read s.2 s.1.data s.1.len

/-- The contract of a string builder: its invariant, when an append succeeds and what it
does, and what the two capacity queries answer. -/
structure StringBufState.Exact (capacity : Nat) (s : StringBufState) : Prop where
  /-- There is room for the terminator. -/
  len_lt : s.1.len < capacity
  /-- The terminator lies behind the contents. -/
  terminated : s.2 (s.1.data + s.1.len) = 0
  /-- An append succeeds exactly when its bytes and the terminator fit; then it puts them
  behind the contents, and otherwise it changes nothing. -/
  append : ∀ call source, AppendCall.source s.2 call = some source →
    ∃ ok s', call.run s = .ok (ok, s') ∧ (ok = true ↔ s.1.len + source.length + 1 ≤ capacity) ∧
      (ok = true → s'.contents = s.contents ++ source) ∧ (ok = false → s' = s)
  /-- The bytes that remain are the most that an append takes. -/
  remaining : ∀ n, n ≤ stringbufRemaining s.1 ↔ s.1.len + n + 1 ≤ capacity
  /-- It is full when none remain. -/
  full : stringbufIsFull s.1 = true ↔ stringbufRemaining s.1 = 0

/-- The contents are the bytes it holds. -/
theorem StringBufState.Holds.contents_eq {data capacity : Nat} {s : StringBufState}
    {a : ByteString} (h : s.Holds data capacity a) : s.contents = a.1 := by
  rw [StringBufState.contents, h.data_eq, h.len_eq, h.mem_eq, h.read_contents]

/-- A builder that holds a byte string keeps its contract. -/
theorem StringBufState.Holds.exact {data capacity : Nat} {s : StringBufState}
    {a : ByteString} (h : s.Holds data capacity a) : s.Exact capacity := by
  have hlt := h.length_lt
  refine ⟨?_, ?_, fun call source hsource => ?_, fun n => ?_, ?_⟩
  · rw [h.len_eq]
    exact hlt
  · rw [h.mem_eq, h.data_eq, h.len_eq]
    exact h.terminated
  · rw [h.mem_eq] at hsource
    rcases h.append_agree call with ⟨hnone, -⟩ | ⟨source', r, hsome, hrun, hflag, hholds⟩
    · rw [hsource] at hnone
      cases hnone
    · rw [hsource] at hsome
      obtain rfl := Option.some.inj hsome
      refine ⟨r.1, r.2, hrun, ?_⟩
      rw [h.len_eq, h.contents_eq, hholds.contents_eq, hflag]
      rw [ByteString.append] at hholds ⊢
      by_cases hfits : a.1.length + source.length + 1 ≤ capacity
      · rw [if_pos hfits]
        exact ⟨by simpa using hfits, fun _ => rfl, (fun hfalse => by cases hfalse)⟩
      · rw [if_neg hfits] at hholds ⊢
        exact ⟨by simpa using hfits, (fun htrue => by cases htrue), fun _ => h.unique hholds⟩
  · rw [h.remaining_eq, h.len_eq]
    omega
  · rw [h.isFull_iff, h.remaining_eq]
    omega

/-- A string builder fresh from one of its constructors. -/
inductive StringBufFresh (capacity : Nat) (s : StringBufState) : Prop where
  /-- Over a buffer of the caller. -/
  | buffer (mem : Memory) (buffer : Nat) : stringbufInitBuffer mem buffer capacity = .ok s →
      StringBufFresh capacity s
  /-- Over a buffer from an arena. -/
  | arena (arena arena' : Arena) (mem : Memory) :
      stringbufInitArena arena mem capacity = .ok (arena', some s) → StringBufFresh capacity s

/-- A fresh string builder holds the empty string. -/
theorem StringBufFresh.holds {capacity : Nat} {s : StringBufState} (h : StringBufFresh capacity s)
    (hcapacity : capacity < usizeSize) : s.Holds s.1.data capacity ([], s.2) := by
  have hfresh : ∀ (mem : Memory) (buffer : Nat), 0 < buffer → 1 < capacity →
      StringBufState.Holds buffer capacity (⟨buffer, 0, capacity⟩, Function.update mem buffer 0)
        ([], Function.update mem buffer 0) := by
    intro mem buffer hbuffer hcap
    refine ⟨rfl, rfl, hbuffer, rfl, hcapacity, rfl, Nat.lt_of_succ_lt hcap, ?_⟩
    exact congrArg (fun b => [b]) (Function.update_self buffer 0 mem)
  cases h with
  | buffer mem buffer h =>
    obtain ⟨_, hbuffer, h⟩ := bind_eq_ok.mp h
    obtain ⟨_, hcap, h⟩ := bind_eq_ok.mp h
    obtain rfl := Except.ok.inj h
    rw [requireMsg_eq_ok, decide_eq_true_eq] at hbuffer hcap
    exact hfresh mem buffer (Nat.pos_of_ne_zero hbuffer) hcap
  | arena arena arena' mem h =>
    obtain ⟨_, hcap, h⟩ := bind_eq_ok.mp h
    obtain ⟨⟨arena₁, buf⟩, -, h⟩ := bind_eq_ok.mp h
    rw [requireMsg_eq_ok, decide_eq_true_eq] at hcap
    simp only at h
    split at h
    · cases h
    · next hbuf =>
      cases h
      exact hfresh mem buf (Nat.pos_of_ne_zero hbuf) hcap

/-- Every run from a fresh string builder is the run of the bounded byte string, and every
state it reaches keeps the contract. -/
theorem stringbuf_refines_byte_string (capacity : Usize) {s : StringBufState}
    (hinit : StringBufFresh capacity s) (ops : List StringBufOp) :
    Agree (StringBufState.Holds s.1.data capacity) (run stringbufStep s ops)
      (run (byteStringSpec s.1.data capacity) ([], s.2) ops) ∧
    ∀ os t, run stringbufStep s ops = .ok (os, t) → t.Exact capacity := by
  have hruns := run_agree (fun t a op (ht : t.Holds s.1.data capacity a) => ht.step_agree op) ops
    (hinit.holds capacity.isLt)
  refine ⟨hruns, fun os t ht => ?_⟩
  rw [ht] at hruns
  cases hspec : run (byteStringSpec s.1.data capacity) ([], s.2) ops with
  | error e =>
    rw [hspec] at hruns
    exact hruns.elim
  | ok p =>
    rw [hspec] at hruns
    exact hruns.2.exact

/-- A string appended to itself over its own terminator, a refusal, and after a clear the
old bytes moved down over themselves. -/
theorem stringbuf_refines_byte_string_self :
    ∃ (s t : StringBufState) (os : List StringBufOut), StringBufFresh 6 s ∧
      run stringbufStep s [.store 20 [97, 98, 0], .append (.append 20), .append (.append 50),
        .append (.appendN 20 2), .append (.appendChar 99), .clear,
        .append (.appendStr 51 3)] = .ok (os, t) ∧
      os = [.done, .flag true, .flag true, .flag false, .flag true, .done, .flag true] ∧
      t.contents = [98, 97, 98] ∧ t.Exact 6 := by
  have hfresh : StringBufFresh 6 (⟨50, 0, 6⟩, Function.update (fun _ => 0) 50 0) :=
    .buffer (fun _ => 0) 50 rfl
  have h := (stringbuf_refines_byte_string 6 hfresh
    [.store 20 [97, 98, 0], .append (.append 20), .append (.append 50), .append (.appendN 20 2),
      .append (.appendChar 99), .clear, .append (.appendStr 51 3)]).2
  exact ⟨_, _, _, hfresh, rfl, rfl, by decide, h _ _ rfl⟩

end CanonC
