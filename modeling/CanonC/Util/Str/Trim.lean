import CanonC.Util.Str.Concat
import Mathlib.Data.List.DropRight

/-!
# Trimming a string in place

The string behind the characters in front is moved to the start, and its end is cut off by a
terminator. What remains is the string without the characters at its ends; nothing outside the
bytes of the string is changed, and trimming again changes nothing at all.
-/

namespace CanonC

open Toolkit Function

/-- `split_is_ws_`: space, tab, line feed, vertical tab, form feed and carriage return. -/
def splitIsWs (c : UInt8) : Bool := c = 32 || (9 ≤ c && c ≤ 13)

/-- The loop that advances over the characters in front, with `left` bytes to the end of memory. -/
def trimStartLoop (mem : Memory) (test : UInt8 → Bool) : Nat → Nat → Except String Nat
  | 0, _ => .error outOfBounds
  | left + 1, start =>
    if test (mem start) then trimStartLoop mem test left (start + 1) else .ok start

/-- The loop that goes back over the characters at the end, `n` bytes behind `s`. -/
def trimEndLoop (mem : Memory) (test : UInt8 → Bool) (s : Nat) : Nat → Nat
  | 0 => s
  | n + 1 => if test (mem (s + n)) then trimEndLoop mem test s n else s + (n + 1)

/-- The common body of the trimming functions, with the tests of its two loops: the pointer
returned and the memory. -/
def strTrimInplace (fn : String) (startTest endTest : UInt8 → Bool) (mem : Memory) (s : Nat) :
    Except String (Nat × Memory) := do
  requireMsg (s ≠ 0) (fn ++ ": s is NULL")
  if mem s = 0 then .ok (s, mem)
  else
    let start ← trimStartLoop mem startTest (usizeSize - s) s
    if mem start = 0 then .ok (s, update mem s 0)
    else
      let startLen ← strLenAt mem start
      let mem := if start > s then memMove mem s start (usizeAdd startLen 1) else mem
      let len ← strLenAt mem s
      .ok (s, update mem (trimEndLoop mem endTest s len) 0)

/-- `str_trim_char_inplace`. -/
def strTrimCharInplace (mem : Memory) (s : Nat) (trimCh : UInt8) : Except String (Nat × Memory) :=
  strTrimInplace "str_trim_char_inplace" (· = trimCh) (· = trimCh) mem s

/-- `str_trim_whitespace_inplace`. -/
def strTrimWhitespaceInplace (mem : Memory) (s : Nat) : Except String (Nat × Memory) :=
  strTrimInplace "str_trim_whitespace_inplace" (fun c => c ≠ 0 && splitIsWs c) splitIsWs mem s

variable {mem mem' : Memory} {p : Nat} {s t : CString} {xs : List UInt8}
  {test startTest : UInt8 → Bool}

/-- The string without the characters at its ends that pass the test. -/
def CString.trim (s : CString) (test : UInt8 → Bool) : CString :=
  s.part ((s.bytes.dropWhile test).rdropWhile test)
    ((List.rdropWhile_prefix test _).sublist.trans (List.dropWhile_suffix test).sublist)

/-- Trimming drops what passes the test at both ends. -/
theorem CString.bytes_trim (s : CString) (test : UInt8 → Bool) :
    (s.trim test).bytes = (s.bytes.dropWhile test).rdropWhile test := rfl

/-- Strings with the same bytes are the same. -/
theorem CString.eq_of_bytes (h : s.bytes = t.bytes) : s = t := by
  cases s
  cases t
  cases h
  rfl

/-- The loop stops behind the characters in front. -/
theorem trimStartLoop_spec (left : Nat) (h : Terminated mem p xs)
    (htests : ∀ b ≠ 0, startTest b = test b)
    (hstop : startTest 0 = false ∨ xs.dropWhile test ≠ []) (hleft : xs.length < left) :
    trimStartLoop mem startTest left p = .ok (p + (xs.takeWhile test).length) := by
  induction left generalizing p xs with
  | zero => exact absurd hleft (Nat.not_lt_zero _)
  | succ left ih =>
    rw [trimStartLoop]
    cases xs with
    | nil =>
      rw [h.nil, hstop.resolve_right (not_not.mpr rfl), if_neg Bool.false_ne_true]
      rfl
    | cons x xs =>
      obtain ⟨hx, hne, hrest⟩ := h.cons
      rw [hx, htests x hne]
      by_cases htest : test x = true
      · rw [List.dropWhile_cons_of_pos htest] at hstop
        rw [if_pos htest, ih hrest hstop (Nat.lt_of_succ_lt_succ hleft),
          List.takeWhile_cons_of_pos htest, List.length_cons]
        congr 1
        omega
      · rw [if_neg htest, List.takeWhile_cons_of_neg htest]
        rfl

/-- The loop goes back to the end of what remains. -/
theorem trimEndLoop_spec (mem : Memory) (test : UInt8 → Bool) (p n : Nat) :
    trimEndLoop mem test p n = p + ((Cells.read mem p n).rdropWhile test).length := by
  induction n with
  | zero =>
    rw [trimEndLoop, Cells.read_zero, List.rdropWhile_nil]
    rfl
  | succ n ih =>
    rw [trimEndLoop, Cells.read_add, Cells.read_one]
    by_cases htest : test (mem (p + n)) = true
    · rw [if_pos htest, ih, List.rdropWhile_concat_pos test _ _ htest]
    · rw [if_neg htest, List.rdropWhile_concat_neg test _ _ htest, List.length_append,
        Cells.length_read, List.length_singleton]

/-- A terminator written behind the first bytes of a string cuts it there. -/
theorem LiesAt.cut (h : LiesAt mem p s) (hfront : t.bytes <+: s.bytes) :
    LiesAt (update mem (p + t.bytes.length) 0) p t ∧
      Frame [⟨p, s.object.length⟩] mem (update mem (p + t.bytes.length) 0) := by
  have hle := hfront.length_le
  have hlen := s.length_object
  have hlen' := t.length_object
  have hfits := h.fits
  have hstart : t.bytes <+: Cells.read mem p s.bytes.length := by
    rw [h.read_bytes]
    exact hfront
  have hread := Cells.read_of_prefix hstart
  rw [Cells.update_eq_write]
  refine ⟨⟨h.ne_zero, by omega, ?_⟩, .write mem (Nat.le_add_right _ _) ?_⟩
  · rw [hlen']
    exact Cells.read_write_append (by rw [hread]) [0]
  · change p + t.bytes.length + 1 ≤ p + s.object.length
    omega

/-- The first byte of a string that is not empty is no terminator. -/
theorem LiesAt.head_ne_zero (h : LiesAt mem p s) (hne : s.bytes ≠ []) : mem p ≠ 0 := by
  obtain ⟨x, xs, hxs⟩ := List.exists_cons_of_ne_nil hne
  have hcons := h.terminated
  rw [hxs] at hcons
  obtain ⟨hx, hx', -⟩ := hcons.cons
  rw [hx]
  exact hx'

/-- The rest of a string lies behind its first bytes. -/
theorem LiesAt.rest (h : LiesAt mem p s) {n : Nat} (hn : n ≤ s.bytes.length)
    (ht : t.bytes = s.bytes.drop n) : LiesAt mem (p + n) t := by
  have hne := h.ne_zero
  have hfits := h.fits
  have hlen := s.length_object
  have hlen' := t.length_object
  rw [ht, List.length_drop] at hlen'
  have hread := (h.terminated.drop hn).2
  rw [← ht] at hread
  refine ⟨by omega, by omega, ?_⟩
  rw [CString.length_object, CString.object]
  exact hread

/-- The rest of a string moved to its start lies there. -/
theorem LiesAt.moveRest (h : LiesAt mem p s) {n : Nat} (hn : n ≤ s.bytes.length)
    (ht : t.bytes = s.bytes.drop n) :
    LiesAt (memMove mem p (p + n) t.object.length) p t ∧
      Frame [⟨p, s.object.length⟩] mem (memMove mem p (p + n) t.object.length) := by
  have hrest := h.rest hn ht
  have hfits := h.fits
  have hlen := s.length_object
  have hlen' := t.length_object
  rw [ht, List.length_drop] at hlen'
  rw [memMove_eq_write h.ne_zero hrest.ne_zero, hrest.read_eq]
  refine ⟨liesAt_write mem h.ne_zero (by omega), .write mem le_rfl ?_⟩
  change p + t.object.length ≤ p + s.object.length
  omega

/-- The first loop stops in front of what it leaves of a string that is not empty. -/
theorem LiesAt.trimStart (h : LiesAt mem p s) (hne : s.bytes ≠ [])
    (htests : ∀ b ≠ 0, startTest b = test b)
    (hstop : startTest 0 = true → ∀ b ≠ 0, startTest b = false) :
    ∃ k ≤ s.bytes.length, trimStartLoop mem startTest (usizeSize - p) p = .ok (p + k) ∧
      s.bytes.dropWhile test = s.bytes.drop k := by
  have hfits := h.fits
  have hlen := s.length_object
  have hrun : startTest 0 = false ∨ s.bytes.dropWhile test ≠ [] := by
    cases htest : startTest 0 with
    | false => exact .inl rfl
    | true =>
      obtain ⟨x, xs, hxs⟩ := List.exists_cons_of_ne_nil hne
      have hx : x ≠ 0 := s.noTerminator x (hxs ▸ List.mem_cons_self)
      have hfalse : test x = false := (htests x hx).symm.trans (hstop htest x hx)
      rw [hxs, List.dropWhile_cons_of_neg (by rw [hfalse]; exact Bool.false_ne_true)]
      exact .inr (List.cons_ne_nil x xs)
  refine ⟨(s.bytes.takeWhile test).length, (List.takeWhile_prefix test).length_le,
    trimStartLoop_spec _ h.terminated htests hrun (by omega), ?_⟩
  have hsplit := congrArg (List.drop (s.bytes.takeWhile test).length)
    (List.takeWhile_append_dropWhile (p := test) (l := s.bytes))
  rwa [List.drop_left] at hsplit

/-- Where something remains, it is moved to the start and cut behind its last byte. -/
theorem LiesAt.trimRest (h : LiesAt mem p s) {k : Nat} (hk : k ≤ s.bytes.length)
    (ht : t.bytes = s.bytes.drop k) (test : UInt8 → Bool) :
    ∃ moved, moved = (if p + k > p then memMove mem p (p + k) t.object.length else mem) ∧
      strLenAt moved p = .ok t.bytes.length ∧
      LiesAt (update moved (trimEndLoop moved test p t.bytes.length) 0) p
        (t.part _ (List.rdropWhile_prefix test t.bytes).sublist) ∧
      Frame [⟨p, s.object.length⟩] mem
        (update moved (trimEndLoop moved test p t.bytes.length) 0) := by
  have hlies := h.rest hk ht
  have hshort : t.object.length ≤ s.object.length := by
    rw [CString.length_object, CString.length_object, ht, List.length_drop]
    omega
  refine ⟨_, rfl, ?_⟩
  obtain ⟨moved, hmoved⟩ : ∃ moved, moved = if p + k > p
    then memMove mem p (p + k) t.object.length else mem := ⟨_, rfl⟩
  obtain ⟨hstart, hframe⟩ : LiesAt moved p t ∧ Frame [⟨p, s.object.length⟩] mem moved := by
    rw [hmoved]
    by_cases hpos : p + k > p
    · rw [if_pos hpos]
      exact h.moveRest hk ht
    · rw [if_neg hpos]
      rw [show k = 0 by omega, Nat.add_zero] at hlies
      exact ⟨hlies, .refl _ mem⟩
  obtain ⟨hcut, hframe'⟩ := hstart.cut
    (show (t.part _ (List.rdropWhile_prefix test t.bytes).sublist).bytes <+: t.bytes from
      List.rdropWhile_prefix test t.bytes)
  rw [← hmoved, trimEndLoop_spec, hstart.read_bytes]
  exact ⟨hstart.strLenAt_eq, hcut, hframe.trans (hframe'.widen hshort)⟩

/-- The body trims a string, where the test of the first loop is that of the second on the bytes
of a string and does not run over the terminator behind one. -/
theorem strTrimInplace_spec (h : LiesAt mem p s) (fn : String)
    (htests : ∀ b ≠ 0, startTest b = test b)
    (hstop : startTest 0 = true → ∀ b ≠ 0, startTest b = false) :
    ∃ mem', strTrimInplace fn startTest test mem p = .ok (p, mem') ∧ LiesAt mem' p (s.trim test) ∧
      Frame [⟨p, s.object.length⟩] mem mem' := by
  rw [strTrimInplace, decide_eq_true h.ne_zero, requireMsg_true, ok_bind]
  by_cases hempty : s.bytes = []
  · have hzero := h.terminated
    rw [hempty] at hzero
    have hsame : s.trim test = s := by
      apply CString.eq_of_bytes
      rw [CString.bytes_trim, hempty]
      rfl
    rw [if_pos hzero.nil, hsame]
    exact ⟨mem, rfl, h, .refl _ mem⟩
  · obtain ⟨k, hk, hstart, hdrop⟩ := h.trimStart hempty htests hstop
    obtain ⟨r, hr⟩ : ∃ r : CString, r.bytes = s.bytes.drop k :=
      ⟨s.part _ (List.drop_sublist k s.bytes), rfl⟩
    have hlies := h.rest hk hr
    have hbytes : (s.trim test).bytes = r.bytes.rdropWhile test := by
      rw [CString.bytes_trim, hdrop, hr]
    rw [if_neg (h.head_ne_zero hempty), hstart, ok_bind]
    by_cases hrest : r.bytes = []
    · have hnone : (s.trim test).bytes = [] := by rw [hbytes, hrest, List.rdropWhile_nil]
      have hend := hlies.terminated
      rw [hrest] at hend
      obtain ⟨hcut, hframe⟩ := h.cut
        (show (s.trim test).bytes <+: s.bytes by rw [hnone]; exact List.nil_prefix)
      rw [hnone, List.length_nil, Nat.add_zero] at hcut hframe
      rw [if_pos hend.nil]
      exact ⟨_, rfl, hcut, hframe⟩
    · obtain ⟨moved, hmoved, hlen, hcut, hframe⟩ := h.trimRest hk hr test
      have hsame : r.part _ (List.rdropWhile_prefix test r.bytes).sublist = s.trim test :=
        CString.eq_of_bytes hbytes.symm
      rw [hsame] at hcut
      refine ⟨_, ?_, hcut, hframe⟩
      rw [if_neg (hlies.head_ne_zero hrest), hlies.strLenAt_eq, ok_bind, usizeAdd_strlen, ← hmoved]
      dsimp only
      rw [hlen, ok_bind]

/-- A trimming function leaves the string without its ends: it returns its argument, what it cuts
off passes the test, nothing that passes it is left at an end, no byte outside the string is
changed, and a second call changes nothing. -/
structure Trims (trim : Memory → Nat → Except String (Nat × Memory)) (test : UInt8 → Bool)
    (mem : Memory) (p : Nat) (s t : CString) (mem' : Memory) : Prop where
  returns : trim mem p = .ok (p, mem')
  liesAt : LiesAt mem' p t
  frame : Frame [⟨p, s.object.length⟩] mem mem'
  cut : ∃ front back, s.bytes = front ++ t.bytes ++ back ∧ (∀ b ∈ front, test b = true) ∧
    ∀ b ∈ back, test b = true
  head : ∀ b ∈ t.bytes.head?, test b = false
  last : ∀ b ∈ t.bytes.getLast?, test b = false
  again : trim mem' p = .ok (p, mem')

/-- What remains begins with no character that passes the test. -/
theorem CString.trim_head (s : CString) (test : UInt8 → Bool) :
    ∀ b ∈ (s.trim test).bytes.head?, test b = false := by
  intro b hb
  have hfirst := List.head?_dropWhile_not test s.bytes
  obtain ⟨back, hback⟩ := List.rdropWhile_prefix test (s.bytes.dropWhile test)
  rw [bytes_trim] at hb
  rw [← hback, List.head?_append_of_ne_nil _ (List.ne_nil_of_mem (List.mem_of_mem_head? hb)),
    Option.mem_def.mp hb] at hfirst
  exact hfirst

/-- Trimming once is enough. -/
theorem CString.trim_trim (s : CString) (test : UInt8 → Bool) :
    (s.trim test).trim test = s.trim test := by
  apply CString.eq_of_bytes
  have hfront : (s.trim test).bytes.dropWhile test = (s.trim test).bytes := by
    have hhead := s.trim_head test
    cases hbytes : (s.trim test).bytes with
    | nil => rfl
    | cons x xs =>
      rw [hbytes] at hhead
      exact List.dropWhile_cons_of_neg (by rw [hhead x rfl]; exact Bool.false_ne_true)
  rw [bytes_trim, hfront, bytes_trim, List.rdropWhile_idempotent]

/-- Where the two tests agree, trimming in place trims the string and leaves nothing to trim. -/
theorem strTrimInplace_trims (h : LiesAt mem p s) (fn : String)
    (htests : ∀ b ≠ 0, startTest b = test b)
    (hstop : startTest 0 = true → ∀ b ≠ 0, startTest b = false) :
    ∃ mem', Trims (strTrimInplace fn startTest test) test mem p s (s.trim test) mem' := by
  obtain ⟨mem', htrim, hlies, hframe⟩ := strTrimInplace_spec h fn htests hstop
  obtain ⟨mem'', htrim', hlies', hframe'⟩ := strTrimInplace_spec hlies fn htests hstop
  rw [CString.trim_trim] at hlies'
  rw [hframe'.eq_of_read (hlies'.read_eq.trans hlies.read_eq.symm)] at htrim'
  refine ⟨mem', htrim, hlies, hframe,
    ⟨s.bytes.takeWhile test, (s.bytes.dropWhile test).rtakeWhile test, ?_, ?_, ?_⟩,
    s.trim_head test, ?_, htrim'⟩
  · rw [CString.bytes_trim, List.append_assoc, List.rdropWhile_append_rtakeWhile,
      List.takeWhile_append_dropWhile]
  · exact fun b hb => List.mem_takeWhile_imp hb
  · exact fun b hb => List.mem_rtakeWhile_imp hb
  · intro b hb
    obtain ⟨hne, rfl⟩ := List.mem_getLast?_eq_getLast hb
    exact Bool.eq_false_of_not_eq_true (List.rdropWhile_last_not test _ hne)

/-- Trimming a string in place, of a character or of white space, leaves exactly what is between
the characters at its ends. -/
theorem strTrimInplace_trimmed (h : LiesAt mem p s) :
    (∀ trimCh, ∃ t mem', Trims (fun mem s => strTrimCharInplace mem s trimCh) (· = trimCh)
      mem p s t mem') ∧
    ∃ t mem', Trims strTrimWhitespaceInplace splitIsWs mem p s t mem' := by
  refine ⟨fun trimCh => ?_, ?_⟩
  · have hstop : decide (0 = trimCh) = true → ∀ b : UInt8, b ≠ 0 → decide (b = trimCh) = false := by
      intro hzero b hb
      rw [← of_decide_eq_true hzero]
      exact decide_eq_false hb
    obtain ⟨mem', htrims⟩ := @strTrimInplace_trims mem p s (fun b => decide (b = trimCh))
      (fun b => decide (b = trimCh)) h "str_trim_char_inplace" (fun _ _ => rfl) hstop
    exact ⟨_, mem', htrims⟩
  · have htests : ∀ b : UInt8, b ≠ 0 → (decide (b ≠ 0) && splitIsWs b) = splitIsWs b := by
      intro b hb
      rw [decide_eq_true hb, Bool.true_and]
    obtain ⟨mem', htrims⟩ := strTrimInplace_trims h "str_trim_whitespace_inplace" htests nofun
    exact ⟨_, mem', htrims⟩

/-- A word between spaces. -/
theorem strTrimInplace_trimmed_spaces : ∃ t mem', Trims strTrimWhitespaceInplace splitIsWs
    (Cells.write (fun _ => 0) 16 [32, 97, 98, 32, 9]) 16
    ⟨[32, 97, 98, 32, 9], by simp, by decide⟩ t mem' := by
  have hword : LiesAt (Cells.write (fun _ => 0) 16 [32, 97, 98, 32, 9]) 16
      ⟨[32, 97, 98, 32, 9], by simp, by decide⟩ := ⟨by decide, by decide, by decide⟩
  exact (strTrimInplace_trimmed hword).2

end CanonC
