import CanonC.Toolkit.Runs
import CanonC.Util.Str.Split.Model

/-!
# The parts that splitting reports

Skipping empty parts reports where the maximal runs of other bytes start; keeping them
reports where the fields between the delimiters start. Both stop at the capacity of the
array, and at the terminator even when it is the delimiter.
-/

namespace CanonC

open Toolkit Toolkit.Runs

variable {addr maxParts : Nat} {delim : UInt8}

/-- The parts that are stored behind those already there, and the slots that are left. -/
def storeParts (addr maxParts : Nat) (done slots new : List Nat) : Nat × List Nat :=
  let stored := (new.take (maxParts - done.length)).map (addr + ·)
  ((done ++ stored).length, (done ++ stored) ++ slots.drop stored.length)

/-- No more parts are stored. -/
theorem storeParts_nil (done slots : List Nat) :
    storeParts addr maxParts done slots [] = (done.length, done ++ slots) := by
  simp [storeParts]

/-- A full array takes no more parts. -/
theorem storeParts_full {done : List Nat} (h : ¬ done.length < maxParts) (slots new : List Nat) :
    storeParts addr maxParts done slots new = (done.length, done ++ slots) := by
  simp [storeParts, show maxParts - done.length = 0 by omega]

/-- A part that has a slot is stored. -/
theorem storeParts_cons {done : List Nat} (h : done.length < maxParts) (slot p : Nat)
    (slots new : List Nat) : storeParts addr maxParts done (slot :: slots) (p :: new) =
      storeParts addr maxParts (done ++ [addr + p]) slots new := by
  obtain ⟨k, hk⟩ : ∃ k, maxParts - done.length = k + 1 := ⟨maxParts - done.length - 1, by omega⟩
  have hk' : maxParts - (done.length + 1) = k := by omega
  simp [storeParts, hk, hk']

/-- Where a scanner stops when a word is ahead. -/
structure WordAhead (s : List UInt8) (delim : UInt8) (pre gap word : List UInt8) : Prop where
  /-- It is not at the terminator. -/
  here : ∃ c, c ≠ 0 ∧ readElem s pre.length = .ok c
  /-- It passes the gap. -/
  skips : scanWhile (· = delim) s pre.length = .ok (pre ++ gap).length
  /-- It is not at the terminator behind the gap. -/
  start : ∃ c, c ≠ 0 ∧ readElem s (pre ++ gap).length = .ok c
  /-- It passes the word. -/
  passes : scanWhile (fun c => c ≠ 0 ∧ c ≠ delim) s (pre ++ gap).length =
    .ok (pre ++ gap ++ word).length

/-- What the loop reads where a word is ahead. -/
theorem wordAhead {s pre gap word rest : List UInt8} (h : Leads delim gap word rest)
    (hs : s = pre ++ (gap ++ word ++ rest) ++ [0]) (hne : ∀ x ∈ gap ++ word ++ rest, x ≠ 0) :
    WordAhead s delim pre gap word := by
  obtain ⟨w, word, rfl⟩ := List.exists_cons_of_ne_nil h.word_ne
  have hw : w ≠ 0 := hne w (by simp)
  have hwd : decide (w = delim) = false :=
    decide_eq_false (List.ne_and_not_mem_of_not_mem_cons h.word_free).1.symm
  -- Two views of the string: from the end of the gap on, and from the end of the word on.
  have hgap : s = pre ++ gap ++ w :: (word ++ rest ++ [0]) := by simp [hs]
  have hword : s = (pre ++ gap) ++ (w :: word) ++ (rest ++ [0]) := by simp [hs]
  obtain ⟨y, tail, htail, hy⟩ : ∃ y tail, rest ++ [0] = y :: tail ∧
      decide (y ≠ 0 ∧ y ≠ delim) = false := by
    cases rest with
    | nil => exact ⟨0, [], rfl, decide_eq_false fun hy => hy.1 rfl⟩
    | cons y rest =>
      exact ⟨y, rest ++ [0], rfl, decide_eq_false fun hy => hy.2 (h.rest_eq y rfl)⟩
  have hpass : ∀ y ∈ w :: word, decide (y ≠ 0 ∧ y ≠ delim) = true := by
    intro y hy
    refine decide_eq_true ⟨hne y ?_, fun hd => h.word_free (hd ▸ hy)⟩
    exact List.mem_append_left _ (List.mem_append_right _ hy)
  constructor
  · cases gap with
    | nil => exact ⟨w, hw, by rw [hs]; exact readElem_front rfl⟩
    | cons c gap => exact ⟨c, hne c (by simp), by rw [hs]; exact readElem_front rfl⟩
  · exact scanWhile_append hgap (fun y hy => decide_eq_true (h.gap_eq y hy)) hwd
  · exact ⟨w, hw, by rw [hgap]; exact readElem_append rfl⟩
  · exact scanWhile_append (hword.trans (by rw [htail])) hpass hy

/-- Where a scanner stops when no word is ahead. -/
structure GapAhead (s : List UInt8) (delim : UInt8) (pre gap : List UInt8) : Prop where
  /-- It is not at the terminator. -/
  here : ∃ c, c ≠ 0 ∧ readElem s pre.length = .ok c
  /-- It passes the gap. -/
  skips : scanWhile (· = delim) s pre.length = .ok (pre ++ gap).length
  /-- It is at the terminator behind the gap. -/
  done : readElem s (pre ++ gap).length = .ok 0

/-- What the loop reads where only delimiters are ahead. -/
theorem gapAhead {s pre gap : List UInt8} (hgap : ∀ x ∈ gap, x = delim)
    (hs : s = pre ++ gap ++ [0]) (hne : ∀ x ∈ gap, x ≠ 0) :
    readElem s pre.length = .ok 0 ∨ GapAhead s delim pre gap := by
  have hend : readElem s (pre ++ gap).length = .ok 0 := by
    rw [hs]
    exact readElem_append rfl
  cases gap with
  | nil =>
    left
    rwa [List.append_nil] at hend
  | cons x gap =>
    right
    have hx : x ≠ 0 := hne x List.mem_cons_self
    have hdelim : decide ((0 : UInt8) = delim) = false := by
      rw [← hgap x List.mem_cons_self]
      exact decide_eq_false hx.symm
    exact ⟨⟨x, hx, readElem_front hs⟩,
      scanWhile_append hs (fun y hy => decide_eq_true (hgap y hy)) hdelim, hend⟩

/-- The loop stores the starts of the runs that it has not passed. -/
theorem strSplitLoop_spec (s : List UInt8) (xs : List UInt8) :
    ∀ (pre : List UInt8) (rounds : Nat) (done slots : List Nat), s = pre ++ xs ++ [0] →
      (∀ x ∈ xs, x ≠ 0) → xs.length < rounds → maxParts ≤ done.length + slots.length →
      strSplitLoop addr s delim maxParts rounds pre.length done.length (done ++ slots) =
        .ok (storeParts addr maxParts done slots ((starts delim xs).map (pre.length + ·))) := by
  induction xs using word_induction (d := delim) with
  | hgap xs hgap =>
    intro pre rounds done slots hs hne hrounds hroom
    obtain ⟨rounds, rfl⟩ := Nat.exists_eq_add_one_of_ne_zero (Nat.ne_zero_of_lt hrounds)
    rw [starts_of_gap hgap, List.map_nil, storeParts_nil]
    rcases gapAhead hgap hs hne with hread | ⟨⟨c, hc, hread⟩, hscan, hend⟩
    · rw [strSplitLoop, hread, ok_bind, if_pos rfl]
    · rw [strSplitLoop, hread, ok_bind, if_neg hc, hscan, ok_bind, hend, ok_bind, if_pos rfl]
  | hword gap word rest h ih =>
    intro pre rounds done slots hs hne hrounds hroom
    obtain ⟨rounds, rfl⟩ := Nat.exists_eq_add_one_of_ne_zero (Nat.ne_zero_of_lt hrounds)
    have hrest : s = (pre ++ gap ++ word) ++ rest ++ [0] := by simp [hs]
    have hpos := List.length_pos_iff.mpr h.word_ne
    obtain ⟨⟨c, hc, hread⟩, hskip, ⟨w, hw, hstart⟩, hscan⟩ := wordAhead h hs hne
    rw [strSplitLoop, hread, ok_bind, if_neg hc, hskip, ok_bind, hstart, ok_bind, if_neg hw,
      starts_leads h, List.map_cons, List.map_map]
    by_cases hfull : done.length < maxParts
    · obtain ⟨slot, slots, rfl⟩ := List.exists_cons_of_length_pos (l := slots) (by omega)
      have hlen : addr + (pre ++ gap).length = addr + (pre.length + gap.length) := by
        rw [List.length_append]
      rw [if_pos hfull, writeElem_push, ok_bind, hscan, ok_bind, storeParts_cons hfull, ← hlen]
      have hnext := ih (pre ++ gap ++ word) rounds (done ++ [addr + (pre ++ gap).length]) slots
        hrest (fun y hy => hne y (List.mem_append_right _ hy))
        (by simp only [List.length_append] at hrounds; omega)
        (by simp only [List.length_append, List.length_cons, List.length_nil] at hroom ⊢; omega)
      rw [@List.length_append _ done, List.length_singleton] at hnext
      rw [hnext]
      congr 3
      funext i
      simp only [Function.comp, List.length_append]
      omega
    · rw [if_neg hfull, storeParts_full hfull]

/-- The loop stores the field at hand and a field behind each delimiter that is left. -/
theorem strSplitKeepEmptyLoop_spec (xs : List UInt8) :
    ∀ (p start : Nat) (done slots : List Nat), (∀ x ∈ xs, x ≠ 0) →
      maxParts ≤ done.length + slots.length →
      strSplitKeepEmptyLoop addr delim maxParts (xs ++ [0]) p start done.length (done ++ slots) =
        .ok (storeParts addr maxParts done slots
          (start :: (seps delim xs).map (p + 1 + ·))) := by
  induction xs with
  | nil =>
    intro p start done slots _ hroom
    rw [List.nil_append, strSplitKeepEmptyLoop, if_pos (Or.inr rfl)]
    by_cases hfull : done.length < maxParts
    · obtain ⟨slot, slots, rfl⟩ := List.exists_cons_of_length_pos (l := slots) (by omega)
      rw [if_pos hfull, writeElem_push, ok_bind, if_pos rfl, storeParts_cons hfull]
      simp [seps, storeParts_nil]
    · rw [if_neg hfull, storeParts_full hfull]
  | cons x xs ih =>
    intro p start done slots hne hroom
    obtain ⟨hx, hxs⟩ := List.forall_mem_cons.mp hne
    have hmap (l : List Nat) : (l.map (· + 1)).map (p + 1 + ·) = l.map (p + 1 + 1 + ·) := by
      rw [List.map_map]
      refine List.map_congr_left fun i _ => ?_
      simp only [Function.comp]
      omega
    rw [List.cons_append, strSplitKeepEmptyLoop, seps_cons, List.map_append, hmap]
    by_cases hd : x = delim
    · rw [if_pos (Or.inl hd), if_pos hd]
      by_cases hfull : done.length < maxParts
      · obtain ⟨slot, slots, rfl⟩ := List.exists_cons_of_length_pos (l := slots) (by omega)
        have hnext := ih (p + 1) (p + 1) (done ++ [addr + start]) slots hxs
          (by simp only [List.length_append, List.length_cons, List.length_nil] at hroom ⊢; omega)
        rw [@List.length_append _ done, List.length_singleton] at hnext
        rw [if_pos hfull, writeElem_push, ok_bind, if_neg hx, storeParts_cons hfull, hnext]
        rfl
      · rw [if_neg hfull, storeParts_full hfull]
    · rw [if_neg (not_or.mpr ⟨hd, hx⟩), if_neg hd]
      exact ih (p + 1) start done slots hxs hroom

/-- The positions at which the fields of a string start: none in the empty string, else the first
position and every one behind a delimiter. -/
def fieldStarts (delim : UInt8) (xs : List UInt8) : List Nat :=
  if xs = [] then [] else 0 :: (seps delim xs).map (· + 1)

/-- There is one field more than delimiters, but none in the empty string. -/
theorem length_fieldStarts (delim : UInt8) (xs : List UInt8) :
    (fieldStarts delim xs).length = if xs = [] then 0 else 1 + xs.count delim := by
  rw [fieldStarts]
  split
  · rfl
  · rw [List.length_cons, List.length_map, length_seps, Nat.add_comm]

/-- What is stored from the start of an array with room for all parts. -/
theorem storeParts_start {out new : List Nat} :
    storeParts addr maxParts [] out new =
      (min maxParts new.length,
        (new.take maxParts).map (addr + ·) ++ out.drop (min maxParts new.length)) := by
  simp [storeParts]

/-- For every string, delimiter and capacity, splitting reports the starts of the first maximal runs
of other bytes, and splitting that keeps empty fields those of the first fields, one more than the
string has delimiters and none in the empty string; slots behind them stay, and neither reads behind
the terminator. -/
theorem strSplit_starts {addr maxParts : Nat} (haddr : addr ≠ 0) (s : CString) (delim : UInt8)
    {out : List Nat} (hroom : maxParts ≤ out.length) :
    strSplit addr s delim (some out) maxParts =
      .ok (min maxParts (starts delim s.bytes).length,
        ((starts delim s.bytes).take maxParts).map (addr + ·) ++
          out.drop (min maxParts (starts delim s.bytes).length)) ∧
    strSplitKeepEmpty addr s delim (some out) maxParts =
      .ok (min maxParts (fieldStarts delim s.bytes).length,
        ((fieldStarts delim s.bytes).take maxParts).map (addr + ·) ++
          out.drop (min maxParts (fieldStarts delim s.bytes).length)) ∧
    (fieldStarts delim s.bytes).length =
      if s.bytes = [] then 0 else 1 + s.bytes.count delim := by
  refine ⟨?_, ?_, length_fieldStarts delim s.bytes⟩
  · rw [strSplit, decide_eq_true haddr, requireMsg_true, ok_bind]
    by_cases h0 : maxParts = 0
    · simp [h0]
    · have hrounds : s.bytes.length < s.object.length := by
        rw [CString.length_object]
        exact Nat.lt_succ_self _
      have hloop := @strSplitLoop_spec addr maxParts delim s.object s.bytes [] _ [] out rfl
        s.noTerminator hrounds (by simpa using hroom)
      simp only [List.length_nil, List.nil_append, Nat.zero_add, List.map_id'] at hloop
      simp only [if_neg h0]
      rw [hloop, storeParts_start]
  · rw [strSplitKeepEmpty, decide_eq_true haddr, requireMsg_true, ok_bind]
    by_cases h0 : maxParts = 0
    · simp [h0]
    · simp only [if_neg h0]
      cases hs : s.bytes with
      | nil =>
        have hread : readElem s.object 0 = .ok 0 := by rw [CString.object, hs]; rfl
        rw [hread, ok_bind, if_pos rfl]
        simp [fieldStarts]
      | cons c cs =>
        have hc : c ≠ 0 := s.noTerminator c (by rw [hs]; exact List.mem_cons_self)
        have hread : readElem s.object 0 = .ok c := by rw [CString.object, hs]; rfl
        have hloop := @strSplitKeepEmptyLoop_spec addr maxParts delim s.bytes 0 0 [] out
          s.noTerminator (by simpa using hroom)
        simp only [List.length_nil, List.nil_append, Nat.zero_add] at hloop
        rw [hread, ok_bind, if_neg hc, CString.object, hloop, storeParts_start, hs, fieldStarts,
          if_neg (List.cons_ne_nil c cs)]
        simp only [Nat.add_comm 1]

/-- Three fields, the middle one empty, and a capacity of two. -/
theorem strSplit_starts_cut :
    strSplit 4096 ⟨[97, 44, 44, 98], by simp, by decide⟩ 44 (some [0, 0, 0]) 2 =
      .ok (2, [4096, 4099, 0]) ∧
    strSplitKeepEmpty 4096 ⟨[97, 44, 44, 98], by simp, by decide⟩ 44 (some [0, 0, 0]) 2 =
      .ok (2, [4096, 4098, 0]) := by
  have h := @strSplit_starts 4096 2 (by decide) ⟨[97, 44, 44, 98], by simp, by decide⟩ 44
    [0, 0, 0] (by decide)
  exact ⟨h.1, h.2.1⟩

end CanonC
