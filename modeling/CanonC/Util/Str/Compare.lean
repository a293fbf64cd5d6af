import CanonC.Core.Compare
import CanonC.Toolkit.Ranking
import CanonC.Util.Str.CStr
import CanonC.Util.Str.Intern.Table
import CanonC.Util.Str.Sub

/-!
# Comparing strings and views

The loops over terminated strings and the comparison of bytes behind the views both give the
lexicographic order of the bytes, the terminator being smaller than any of them. Equality,
prefixes and suffixes are read off the same comparisons, so that the functions on strings
and those on views agree.
-/

namespace CanonC

open Toolkit

/-- Bytes are ordered as numbers. -/
instance byteLinearOrder : LinearOrder UInt8 where
  le_refl _ := UInt8.le_refl _
  le_trans _ _ _ := UInt8.le_trans
  le_antisymm _ _ := UInt8.le_antisymm
  le_total _ _ := UInt8.le_total _ _
  lt_iff_le_not_ge a b := by
    rw [UInt8.lt_iff_toNat_lt, UInt8.le_iff_toNat_le, UInt8.le_iff_toNat_le]
    omega
  toDecidableLE := fun a b => inferInstance

variable {mem : Memory} {a b p : Nat} {s t : CString} {v w : StrView} {xs ys : List UInt8}
  {x y : UInt8}

/-- The difference of two bytes ranks them. -/
theorem ranks_byteDiff (mem : Memory) (a b : Nat) : Ranks (byteDiff mem a b) (mem a) (mem b) := by
  constructor <;>
    · rw [byteDiff, UInt8.lt_iff_toNat_lt]
      omega

/-- The bytes with a terminator behind them lie at the address. -/
def Terminated (mem : Memory) (p : Nat) (xs : List UInt8) : Prop :=
  (∀ x ∈ xs, x ≠ 0) ∧ Cells.read mem p (xs.length + 1) = xs ++ [0]

namespace Terminated

/-- The empty string is its terminator. -/
theorem nil (h : Terminated mem p []) : mem p = 0 := by
  have hread := h.2
  rw [List.length_nil, Cells.read_succ] at hread
  exact (List.cons.inj hread).1

/-- The first character of a string, and the string behind it. -/
theorem cons (h : Terminated mem p (x :: xs)) :
    mem p = x ∧ x ≠ 0 ∧ Terminated mem (p + 1) xs := by
  have hread := h.2
  rw [List.length_cons, Cells.read_succ, List.cons_append] at hread
  obtain ⟨hhead, htail⟩ := List.cons.inj hread
  exact ⟨hhead, h.1 x List.mem_cons_self, fun z hz => h.1 z (List.mem_cons_of_mem x hz), htail⟩

/-- The rest of the bytes lie behind the first ones. -/
theorem drop (h : Terminated mem p xs) {n : Nat} (hn : n ≤ xs.length) :
    Terminated mem (p + n) (xs.drop n) := by
  refine ⟨fun x hx => h.1 x (List.mem_of_mem_drop hx), ?_⟩
  rw [List.length_drop, show xs.length - n + 1 = xs.length + 1 - n by omega, ← Cells.drop_read,
    h.2, List.drop_append_of_le_length hn]

/-- The first bytes decide where they differ or one of them is the terminator, however many
more are looked at. -/
theorem ranks_first (ha : Terminated mem a xs) (hb : Terminated mem b ys)
    (hstop : ¬(mem a ≠ 0 ∧ mem a = mem b)) (n : Nat) :
    Ranks (byteDiff mem a b) (xs.take (n + 1)) (ys.take (n + 1)) := by
  have hranks := ranks_byteDiff mem a b
  cases xs with
  | nil =>
    have hmem := ha.nil
    cases ys with
    | nil =>
      rw [byteDiff, hmem, hb.nil, sub_self]
      exact .refl []
    | cons y ys =>
      obtain ⟨hy, hne, -⟩ := hb.cons
      refine .nil_cons (hranks.neg.mpr ?_)
      rw [hmem, hy]
      exact UInt8.pos_iff_ne_zero.mpr hne
  | cons x xs =>
    obtain ⟨hx, hne, -⟩ := ha.cons
    cases ys with
    | nil =>
      refine .cons_nil (hranks.pos.mpr ?_)
      rw [hx, hb.nil]
      exact UInt8.pos_iff_ne_zero.mpr hne
    | cons y ys =>
      obtain ⟨hy, -⟩ := hb.cons
      rw [hx, hy] at hstop hranks
      exact hranks.cons_of_ne fun hxy => hstop ⟨hne, hxy⟩

/-- Where the loops go on, both strings have the byte. -/
theorem same_first (ha : Terminated mem a xs) (hb : Terminated mem b ys)
    (hgo : mem a ≠ 0 ∧ mem a = mem b) : ∃ x xs' ys', xs = x :: xs' ∧ ys = x :: ys' ∧
      Terminated mem (a + 1) xs' ∧ Terminated mem (b + 1) ys' := by
  cases xs with
  | nil => exact absurd ha.nil hgo.1
  | cons x xs =>
    cases ys with
    | nil => exact absurd (hgo.2.trans hb.nil) hgo.1
    | cons y ys =>
      obtain ⟨hx, -, ha'⟩ := ha.cons
      obtain ⟨hy, -, hb'⟩ := hb.cons
      obtain rfl : x = y := by rw [← hx, ← hy, hgo.2]
      exact ⟨x, xs, ys, rfl, rfl, ha', hb'⟩

end Terminated

/-- The loop of `str_compare` gives the lexicographic order before memory ends. -/
theorem strCompareLoop_spec (left : Nat) (ha : Terminated mem a xs) (hb : Terminated mem b ys)
    (hleft : min xs.length ys.length < left) :
    ∃ r, strCompareLoop mem left a b = .ok r ∧ Ranks r xs ys := by
  induction left generalizing a b xs ys with
  | zero => exact absurd hleft (Nat.not_lt_zero _)
  | succ left ih =>
    rw [strCompareLoop]
    split
    · rename_i hgo
      obtain ⟨x, xs, ys, rfl, rfl, ha', hb'⟩ := ha.same_first hb hgo
      rw [List.length_cons, List.length_cons] at hleft
      obtain ⟨r, hloop, hranks⟩ := ih ha' hb' (by omega)
      exact ⟨r, hloop, hranks.cons x⟩
    · rename_i hstop
      have hranks := ha.ranks_first hb hstop (max xs.length ys.length)
      rw [List.take_of_length_le (by omega), List.take_of_length_le (by omega)] at hranks
      exact ⟨_, rfl, hranks⟩

/-- The loop of `str_ncompare` gives the order of the first bytes. -/
theorem strNcompareLoop_spec (m : Nat) (ha : Terminated mem a xs) (hb : Terminated mem b ys) :
    Ranks (strNcompareLoop mem (m + 1) a b) (xs.take (m + 1)) (ys.take (m + 1)) := by
  induction m generalizing a b xs ys with
  | zero =>
    change Ranks (byteDiff mem a b) _ _
    by_cases hgo : mem a ≠ 0 ∧ mem a = mem b
    · obtain ⟨x, xs, ys, rfl, rfl, -, -⟩ := ha.same_first hb hgo
      rw [byteDiff, hgo.2, sub_self]
      exact .refl [x]
    · exact ha.ranks_first hb hgo 0
  | succ m ih =>
    rw [strNcompareLoop]
    split
    · rename_i hgo
      obtain ⟨x, xs, ys, rfl, rfl, ha', hb'⟩ := ha.same_first hb hgo
      exact (ih ha' hb').cons x
    · rename_i hstop
      exact ha.ranks_first hb hstop (m + 1)

namespace LiesAt

/-- A string that lies at an address ends there with its terminator. -/
theorem terminated (h : LiesAt mem p s) : Terminated mem p s.bytes := by
  have hread := h.read_eq
  rw [CString.length_object, CString.object] at hread
  exact ⟨s.noTerminator, hread⟩

/-- `strlen` counts the characters of a string that lies there. -/
theorem strLenAt_eq (h : LiesAt mem p s) : strLenAt mem p = .ok s.bytes.length := by
  rw [strLenAt, if_neg h.ne_zero, h.strlen_eq]

/-- One string lies at an address. -/
theorem bytes_eq (hs : LiesAt mem p s) (ht : LiesAt mem p t) : s.bytes = t.bytes := by
  have hlen : s.bytes.length = t.bytes.length :=
    Option.some.inj (hs.strlen_eq.symm.trans ht.strlen_eq)
  have hread := hs.terminated.2
  rw [hlen, ht.terminated.2] at hread
  exact (List.append_cancel_right hread).symm

/-- `str_compare` of two strings gives the lexicographic order of their bytes. -/
theorem strCompare_spec (ha : LiesAt mem a s) (hb : LiesAt mem b t) {n : Nat}
    (hn : n ≤ s.bytes.length) :
    ∃ r, strCompare mem (a + n) b = .ok r ∧ Ranks r (s.bytes.drop n) t.bytes := by
  have hfits := ha.fits
  have hfits' := hb.fits
  have hne := ha.ne_zero
  rw [CString.length_object] at hfits hfits'
  rw [strCompare, decide_eq_true (show a + n ≠ 0 by omega), requireMsg_true, ok_bind,
    decide_eq_true hb.ne_zero, requireMsg_true, ok_bind]
  refine strCompareLoop_spec _ (ha.terminated.drop hn) hb.terminated ?_
  rw [List.length_drop]
  omega

/-- `str_ncompare` of two strings gives the order of their first bytes. -/
theorem strNcompare_spec (ha : LiesAt mem a s) (hb : LiesAt mem b t) (n : Nat) :
    ∃ r, strNcompare mem a b n = .ok r ∧ Ranks r (s.bytes.take n) (t.bytes.take n) := by
  cases n with
  | zero => exact ⟨0, rfl, .refl []⟩
  | succ m =>
    rw [strNcompare, if_neg (Nat.succ_ne_zero m), decide_eq_true ha.ne_zero, requireMsg_true,
      ok_bind, decide_eq_true hb.ne_zero, requireMsg_true, ok_bind]
    exact ⟨_, rfl, strNcompareLoop_spec m ha.terminated hb.terminated⟩

/-- `str_equals` compares the bytes. -/
theorem strEquals_eq (ha : LiesAt mem a s) (hb : LiesAt mem b t) :
    strEquals mem a b = .ok (decide (s.bytes = t.bytes)) := by
  rw [strEquals]
  by_cases hab : a = b
  · subst hab
    rw [if_pos rfl, decide_eq_true (ha.bytes_eq hb)]
  · obtain ⟨r, hcompare, hranks⟩ := ha.strCompare_spec hb (Nat.zero_le _)
    rw [Nat.add_zero, List.drop_zero] at *
    rw [if_neg hab, if_neg (not_or.mpr ⟨ha.ne_zero, hb.ne_zero⟩), hcompare, ok_bind,
      decide_eq_decide.mpr hranks.zero]

/-- `cstr_starts_with` tests for a prefix. -/
theorem cstrStartsWith_eq (ha : LiesAt mem a s) (hb : LiesAt mem b t) :
    cstrStartsWith mem a b = .ok (decide (t.bytes <+: s.bytes)) := by
  rw [cstrStartsWith, decide_eq_true ha.ne_zero, requireMsg_true, ok_bind,
    decide_eq_true hb.ne_zero, requireMsg_true, ok_bind, hb.strLenAt_eq, ok_bind]
  split
  · rename_i hzero
    rw [List.length_eq_zero_iff] at hzero
    rw [hzero, decide_eq_true List.nil_prefix]
  · obtain ⟨r, hcompare, hranks⟩ := ha.strNcompare_spec hb t.bytes.length
    rw [List.take_length] at hranks
    have hiff : r = 0 ↔ t.bytes <+: s.bytes :=
      (hranks.zero.trans eq_comm).trans List.prefix_iff_eq_take.symm
    rw [hcompare, ok_bind, decide_eq_decide.mpr hiff]

/-- `cstr_ends_with` tests for a suffix. -/
theorem cstrEndsWith_eq (ha : LiesAt mem a s) (hb : LiesAt mem b t) :
    cstrEndsWith mem a b = .ok (decide (t.bytes <:+ s.bytes)) := by
  rw [cstrEndsWith, decide_eq_true ha.ne_zero, requireMsg_true, ok_bind,
    decide_eq_true hb.ne_zero, requireMsg_true, ok_bind, ha.strLenAt_eq, ok_bind,
    hb.strLenAt_eq, ok_bind]
  split
  · rename_i hlong
    rw [decide_eq_false fun hsuffix => hlong.not_ge hsuffix.length_le]
  · rename_i hle
    obtain ⟨r, hcompare, hranks⟩ :=
      ha.strCompare_spec hb (Nat.sub_le s.bytes.length t.bytes.length)
    have hiff : r = 0 ↔ t.bytes <:+ s.bytes :=
      (hranks.zero.trans eq_comm).trans List.suffix_iff_eq_drop.symm
    rw [Nat.add_sub_assoc (Nat.le_of_not_gt hle), hcompare, ok_bind, decide_eq_decide.mpr hiff]

end LiesAt

/-- A view of some bytes points to them, and their number is a `usize`. -/
structure StrView.Valid (v : StrView) : Prop where
  /-- Without an address there are no bytes. -/
  len_eq_zero : v.ptr = 0 → v.len = 0
  /-- The length is a `usize`. -/
  len_lt : v.len < usizeSize

/-- `mem_compare` of two addresses compares the bytes. -/
theorem memCompareAt_eq (ha : a ≠ 0) (hb : b ≠ 0) (n : Nat) :
    memCompareAt mem a b n = memCompare (Cells.read mem a n) (Cells.read mem b n) := by
  have hself : ∀ xs : List UInt8, memCompare xs xs = 0 := fun xs => (memCompare_eq_zero rfl).mpr rfl
  rw [memCompareAt]
  by_cases hab : a = b
  · rw [if_pos hab, hab, hself]
  · rw [if_neg hab, if_neg ha, if_neg hb]
    split
    · rename_i hn
      rw [hn]
      rfl
    · rfl

/-- `mem_compare` of the bytes that both runs have, and then the lengths, give the
lexicographic order. -/
theorem memCompare_ranks (xs ys : List UInt8) :
    Ranks (if memCompare xs ys ≠ 0 then memCompare xs ys
      else if xs.length < ys.length then -1 else if xs.length > ys.length then 1 else 0) xs ys := by
  induction xs generalizing ys with
  | nil =>
    cases ys with
    | nil => exact .refl []
    | cons y ys =>
      rw [memCompare]
      · simpa using .nil_cons (by decide : (-1 : Int) < 0)
      · exact fun _ _ _ _ h => absurd h (List.cons_ne_nil _ _).symm
  | cons x xs ih =>
    cases ys with
    | nil =>
      rw [memCompare]
      · simpa using .cons_nil (by decide : (0 : Int) < 1)
      · exact fun _ _ _ _ _ h => absurd h (List.cons_ne_nil _ _).symm
    | cons y ys =>
      rw [memCompare]
      by_cases hxy : x = y
      · subst hxy
        rw [if_pos rfl, List.length_cons, List.length_cons]
        simp only [Nat.add_lt_add_iff_right, gt_iff_lt]
        exact (ih ys).cons x
      · rw [if_neg hxy]
        have hne : (if x < y then (-1 : Int) else 1) ≠ 0 := by split <;> decide
        rw [if_pos hne]
        have hranks : Ranks (if x < y then (-1 : Int) else 1) x y := by
          rcases lt_or_gt_of_ne hxy with hlt | hgt
          · rw [if_pos hlt]
            exact .of_lt (by decide) hlt
          · rw [if_neg hgt.not_gt]
            exact .of_gt (by decide) hgt
        exact hranks.cons_of_ne hxy

/-- Bytes that one run has and the other has not do not matter to `mem_compare`. -/
theorem memCompare_take (xs ys : List UInt8) :
    memCompare (xs.take (min xs.length ys.length)) (ys.take (min xs.length ys.length)) =
      memCompare xs ys := by
  induction xs generalizing ys with
  | nil =>
    rw [List.length_nil, Nat.zero_min, List.take_zero, List.take_zero]
    cases ys <;> rfl
  | cons x xs ih =>
    cases ys with
    | nil => rfl
    | cons y ys =>
      rw [List.length_cons, List.length_cons, Nat.succ_min_succ, List.take_succ_cons,
        List.take_succ_cons, memCompare, memCompare, ih]

namespace StrView

/-- A view has as many bytes as its length says. -/
theorem length_text (v : StrView) (mem : Memory) : (v.text mem).length = v.len :=
  Cells.length_read

/-- A view that is not empty is not at NULL. -/
theorem Valid.ne_zero (h : v.Valid) (hlen : 0 < v.len) : v.ptr ≠ 0 :=
  fun hptr => hlen.ne' (h.len_eq_zero hptr)

/-- `str_view_compare` gives the lexicographic order of the bytes. -/
theorem Valid.compare_ranks (hv : v.Valid) (hw : w.Valid) (mem : Memory) :
    Ranks (strViewCompare mem v w) (v.text mem) (w.text mem) := by
  have hranks := memCompare_ranks (v.text mem) (w.text mem)
  have htake := memCompare_take (v.text mem) (w.text mem)
  rw [length_text, length_text] at hranks htake
  have hmin : (if v.len < w.len then v.len else w.len) = min v.len w.len := by
    rw [Nat.min_def]
    split <;> split <;> omega
  have hcompare : (if min v.len w.len > 0 then memCompareAt mem v.ptr w.ptr (min v.len w.len)
      else 0) = memCompare (v.text mem) (w.text mem) := by
    rw [← htake, text, text, Cells.take_read (Nat.min_le_left _ _),
      Cells.take_read (Nat.min_le_right _ _)]
    by_cases hpos : min v.len w.len > 0
    · rw [if_pos hpos]
      exact memCompareAt_eq (hv.ne_zero (by omega)) (hw.ne_zero (by omega)) _
    · rw [if_neg hpos, Nat.eq_zero_of_not_pos hpos]
      rfl
  rw [strViewCompare]
  simp only [hmin, hcompare]
  exact hranks

/-- `str_view_equals` compares the bytes. -/
theorem Valid.equals_eq (hv : v.Valid) (hw : w.Valid) (mem : Memory) :
    strViewEquals mem v w = decide (v.text mem = w.text mem) := by
  have hlen := v.length_text mem
  have hlen' := w.length_text mem
  rw [strViewEquals]
  by_cases hne : v.len ≠ w.len
  · rw [if_pos hne, decide_eq_false fun htext => hne (by rw [← hlen, ← hlen', htext])]
  · have heq : v.len = w.len := not_not.mp hne
    rw [if_neg hne]
    by_cases hzero : v.len = 0
    · rw [if_pos hzero, text, text, ← heq, hzero, decide_eq_true]
      rfl
    · have hpos : 0 < v.len := Nat.pos_of_ne_zero hzero
      rw [if_neg hzero, memCompareAt_eq (hv.ne_zero hpos) (hw.ne_zero (heq ▸ hpos)),
        decide_eq_decide, memCompare_eq_zero (by rw [Cells.length_read, Cells.length_read]), text,
        text, heq]

/-- `str_view_starts_with` tests for a prefix. -/
theorem Valid.startsWith_eq (hv : v.Valid) (hw : w.Valid) (mem : Memory) :
    strViewStartsWith mem v w = decide (w.text mem <+: v.text mem) := by
  have hlen := v.length_text mem
  have hlen' := w.length_text mem
  rw [strViewStartsWith]
  by_cases hlong : w.len > v.len
  · rw [if_pos hlong, decide_eq_false fun hstart => by have := hstart.length_le; omega]
  · rw [if_neg hlong]
    by_cases hzero : w.len = 0
    · rw [if_pos hzero, decide_eq_true (by rw [text, hzero]; exact List.nil_prefix)]
    · have hpos : 0 < w.len := Nat.pos_of_ne_zero hzero
      rw [if_neg hzero, memCompareAt_eq (hv.ne_zero (by omega)) (hw.ne_zero hpos),
        decide_eq_decide, memCompare_eq_zero (by rw [Cells.length_read, Cells.length_read]),
        List.prefix_iff_eq_take, hlen', text, text, Cells.take_read (Nat.le_of_not_gt hlong),
        eq_comm]

/-- `str_view_ends_with` tests for a suffix. -/
theorem Valid.endsWith_eq (hv : v.Valid) (hw : w.Valid) (mem : Memory) :
    strViewEndsWith mem v w = decide (w.text mem <:+ v.text mem) := by
  have hlen := v.length_text mem
  have hlen' := w.length_text mem
  rw [strViewEndsWith]
  by_cases hlong : w.len > v.len
  · rw [if_pos hlong, decide_eq_false fun hsuffix => by have := hsuffix.length_le; omega]
  · rw [if_neg hlong]
    by_cases hzero : w.len = 0
    · rw [if_pos hzero, decide_eq_true (by rw [text, hzero]; exact List.nil_suffix)]
    · have hpos : 0 < w.len := Nat.pos_of_ne_zero hzero
      have hptr := hv.ne_zero (by omega)
      rw [if_neg hzero, Nat.add_sub_assoc (Nat.le_of_not_gt hlong),
        memCompareAt_eq (by omega) (hw.ne_zero hpos), decide_eq_decide,
        memCompare_eq_zero (by rw [Cells.length_read, Cells.length_read]),
        List.suffix_iff_eq_drop, hlen, hlen', text, text, Cells.drop_read,
        Nat.sub_sub_self (Nat.le_of_not_gt hlong), eq_comm]

end StrView

namespace LiesAt

/-- A view from a string points to its bytes. -/
theorem strViewFrom_eq (h : LiesAt mem p s) : strViewFrom mem p = some ⟨p, s.bytes.length⟩ := by
  rw [strViewFrom, if_neg h.ne_zero, h.strlen_eq, Option.map_some]

/-- The view of a string that lies at an address is valid. -/
theorem valid (h : LiesAt mem p s) : StrView.Valid ⟨p, s.bytes.length⟩ := by
  have hlen := s.length_lt
  have hmax := usizeMax_succ
  exact ⟨fun hp => absurd hp h.ne_zero, show s.bytes.length < usizeSize by omega⟩

/-- A string that lies at an address is read there. -/
theorem read_bytes (h : LiesAt mem p s) : Cells.read mem p s.bytes.length = s.bytes := by
  have hread := h.terminated.2
  rw [Cells.read_add] at hread
  exact List.append_inj_left hread Cells.length_read

/-- The view of a string has its bytes. -/
theorem text_eq (h : LiesAt mem p s) : StrView.text ⟨p, s.bytes.length⟩ mem = s.bytes :=
  h.read_bytes

end LiesAt

/-- The comparisons of two strings, of terminated ones and through views, all read the same
order: the lexicographic one of their bytes, whole or cut to a number of bytes. Equality is
equality of the bytes, and the tests for a prefix and a suffix are those of the bytes. Views
are totally preordered by it, two of them being level when they show the same bytes. -/
theorem str_comparisons_agree (ha : LiesAt mem a s) (hb : LiesAt mem b t) :
    (∃ r, strCompare mem a b = .ok r ∧ Ranks r s.bytes t.bytes) ∧
    (∀ n, ∃ r, strNcompare mem a b n = .ok r ∧ Ranks r (s.bytes.take n) (t.bytes.take n)) ∧
    (∃ v w, strViewFrom mem a = some v ∧ strViewFrom mem b = some w ∧
      Ranks (strViewCompare mem v w) s.bytes t.bytes ∧
      strEquals mem a b = .ok (strViewEquals mem v w) ∧
      strViewEquals mem v w = decide (s.bytes = t.bytes) ∧
      cstrStartsWith mem a b = .ok (strViewStartsWith mem v w) ∧
      strViewStartsWith mem v w = decide (t.bytes <+: s.bytes) ∧
      cstrEndsWith mem a b = .ok (strViewEndsWith mem v w) ∧
      strViewEndsWith mem v w = decide (t.bytes <:+ s.bytes)) ∧
    AlgoCmpFn.TotalPreorder
      (fun (v w : {v : StrView // v.Valid}) mem => strViewCompare mem v w) mem := by
  have hcompare := ha.strCompare_spec hb (Nat.zero_le _)
  rw [Nat.add_zero, List.drop_zero] at hcompare
  obtain ⟨hv, htext⟩ := And.intro ha.valid ha.text_eq
  obtain ⟨hw, htext'⟩ := And.intro hb.valid hb.text_eq
  refine ⟨hcompare, ha.strNcompare_spec hb,
    ⟨_, _, ha.strViewFrom_eq, hb.strViewFrom_eq, ?_, ?_, ?_, ?_, ?_, ?_, ?_⟩,
    ⟨fun v w => ?_, fun u v w huv hvw => ?_⟩⟩
  · have hranks := hv.compare_ranks hw mem
    rwa [htext, htext'] at hranks
  · rw [ha.strEquals_eq hb, hv.equals_eq hw, htext, htext']
  · rw [hv.equals_eq hw, htext, htext']
  · rw [ha.cstrStartsWith_eq hb, hv.startsWith_eq hw, htext, htext']
  · rw [hv.startsWith_eq hw, htext, htext']
  · rw [ha.cstrEndsWith_eq hb, hv.endsWith_eq hw, htext, htext']
  · rw [hv.endsWith_eq hw, htext, htext']
  · exact (v.2.compare_ranks w.2 mem).neg.trans (w.2.compare_ranks v.2 mem).pos.symm
  · have huv' := mt (u.2.compare_ranks v.2 mem).pos.mpr (not_lt.mpr huv)
    have hvw' := mt (v.2.compare_ranks w.2 mem).pos.mpr (not_lt.mpr hvw)
    refine not_lt.mp (mt (u.2.compare_ranks w.2 mem).pos.mp ?_)
    exact not_lt.mpr ((not_lt.mp huv').trans (not_lt.mp hvw'))

/-- A word and the end of it at the next address. -/
theorem str_comparisons_agree_end :
    strEquals (Cells.write (fun _ => 0) 16 [97, 98]) 16 17 = .ok false ∧
      cstrEndsWith (Cells.write (fun _ => 0) 16 [97, 98]) 16 17 = .ok true := by
  have hword : LiesAt (Cells.write (fun _ => 0) 16 [97, 98]) 16
      ⟨[97, 98], by simp, by decide⟩ := ⟨by decide, by decide, by decide⟩
  have hend : LiesAt (Cells.write (fun _ => 0) 16 [97, 98]) 17 ⟨[98], by simp, by decide⟩ :=
    ⟨by decide, by decide, by decide⟩
  obtain ⟨-, -, ⟨v, w, -, -, -, hequals, hequals', -, -, hends, hends'⟩, -⟩ :=
    str_comparisons_agree hword hend
  rw [hequals, hequals', hends, hends']
  exact ⟨by decide, by decide⟩

end CanonC
