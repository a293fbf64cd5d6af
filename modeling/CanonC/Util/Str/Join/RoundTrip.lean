import CanonC.Util.Str.Join.Correctness
import CanonC.Util.Str.Split.Correctness

/-!
# Joining and splitting undo each other

Splitting packs the words of a string into the scratch buffer, each with a terminator of
its own. Joining them with the delimiter gives the string with its runs of delimiters
collapsed, and splitting a string that was joined from words gives the words.
-/

namespace CanonC

open Toolkit Toolkit.Runs

variable {maxParts : Nat} {delim : UInt8}

/-- Words one behind the other, each with a terminator. -/
def packed (ws : List (List UInt8)) : List UInt8 := ws.flatMap (· ++ [0])

/-- Where packed words start when the first one starts at `pos`. -/
def partOffsets (pos : Nat) : List (List UInt8) → List Nat
  | [] => []
  | w :: ws => pos :: partOffsets (pos + w.length + 1) ws

/-- There are as many offsets as words. -/
@[simp] theorem length_partOffsets (pos : Nat) (ws : List (List UInt8)) :
    (partOffsets pos ws).length = ws.length := by
  induction ws generalizing pos with
  | nil => rfl
  | cons w ws ih => rw [partOffsets, List.length_cons, ih, List.length_cons]

/-- The first word and its terminator, and the other words. -/
theorem packed_cons (w : List UInt8) (ws : List (List UInt8)) :
    packed (w :: ws) = w ++ [0] ++ packed ws := List.flatMap_cons

/-- The length of the packed words, from the first one on. -/
theorem length_packed_cons (w : List UInt8) (ws : List (List UInt8)) :
    (packed (w :: ws)).length = w.length + 1 + (packed ws).length := by
  rw [packed_cons, List.length_append, List.length_append, List.length_singleton]

/-- The result of splitting off the words that are left into the slots and the bytes that are
left. -/
structure Splits (maxParts : Nat) (ws : List (List UInt8)) (done slots : List Nat)
    (filled free : List UInt8) (result : Nat × List Nat × List UInt8) : Prop where
  /-- With room for all words they are packed behind those that are there. -/
  success : done.length + ws.length ≤ maxParts ∧ (packed ws).length ≤ free.length → result =
    (done.length + ws.length, done ++ partOffsets filled.length ws ++ slots.drop ws.length,
      filled ++ packed ws ++ free.drop (packed ws).length)
  /-- Without it no part is reported. -/
  failure : ¬ (done.length + ws.length ≤ maxParts ∧ (packed ws).length ≤ free.length) →
    result.1 = 0

namespace Splits

variable {word : List UInt8} {ws : List (List UInt8)} {done slots : List Nat}
  {filled free : List UInt8} {result : Nat × List Nat × List UInt8}

/-- No word leaves everything as it is. -/
theorem nil (hdone : done.length ≤ maxParts) :
    Splits maxParts [] done slots filled free (done.length, done ++ slots, filled ++ free) :=
  ⟨fun _ => by simp [partOffsets, packed], fun h => absurd ⟨hdone, Nat.zero_le _⟩ h⟩

/-- A word is packed before the others. -/
theorem cons (hroom : done.length < maxParts ∧ word.length < free.length)
    (h : Splits maxParts ws (done ++ [filled.length]) (slots.drop 1) (filled ++ (word ++ [0]))
      (free.drop (word.length + 1)) result) :
    Splits maxParts (word :: ws) done slots filled free result := by
  have hpacked := length_packed_cons word ws
  have hiff : (done ++ [filled.length]).length + ws.length ≤ maxParts ∧
        (packed ws).length ≤ (free.drop (word.length + 1)).length ↔
      done.length + (word :: ws).length ≤ maxParts ∧
        (packed (word :: ws)).length ≤ free.length := by
    rw [List.length_append, List.length_singleton, List.length_drop, hpacked, List.length_cons]
    omega
  refine ⟨fun hfits => ?_, fun hfits => h.failure (mt hiff.mp hfits)⟩
  rw [h.success (hiff.mpr hfits), hpacked, packed_cons, partOffsets]
  simp only [List.length_append, List.length_cons, List.length_nil, List.drop_drop,
    List.append_assoc, List.singleton_append, Nat.add_assoc, Nat.add_comm 1]

/-- A word without a slot or without bytes left makes the call fail. -/
theorem full (hfull : ¬ (done.length < maxParts ∧ word.length < free.length))
    (hzero : result.1 = 0) : Splits maxParts (word :: ws) done slots filled free result := by
  refine ⟨fun hfits => absurd ⟨?_, ?_⟩ hfull, fun _ => hzero⟩
  · rw [List.length_cons] at hfits
    omega
  · rw [length_packed_cons] at hfits
    omega

end Splits

/-- One round packs a word, or there is no room for it. -/
theorem strSplitToPartsLoop_word {s pre gap word filled free : List UInt8} {done slots : List Nat}
    {rounds : Nat} {rest : List UInt8} (h : WordAhead s delim pre gap word)
    (hs : s = pre ++ gap ++ (word ++ (rest ++ [0])))
    (hslots : maxParts ≤ done.length + slots.length)
    (hspace : SeparateObjects [s.length, (filled ++ free).length]) :
    strSplitToPartsLoop s delim maxParts (rounds + 1) pre.length done.length filled.length
        (done ++ slots) (filled ++ free) =
      if done.length < maxParts ∧ word.length < free.length then
        strSplitToPartsLoop s delim maxParts rounds (pre ++ gap ++ word).length
          (done ++ [filled.length]).length (filled ++ (word ++ [0])).length
          (done ++ [filled.length] ++ slots.drop 1)
          (filled ++ (word ++ [0]) ++ free.drop (word.length + 1))
      else .ok (0, done ++ slots, filled ++ free) := by
  obtain ⟨⟨c, hc, hread⟩, hskip, ⟨w, hw, hstart⟩, hscan⟩ := h
  have hmax := usizeMax_succ
  have hslen : s.length = pre.length + gap.length + (word.length + (rest.length + 1)) := by
    rw [hs]
    simp only [List.length_append, List.length_singleton]
  simp only [SeparateObjects, List.sum_cons, List.sum_nil, List.length_append, hslen] at hspace
  have hlen : (pre ++ gap ++ word).length - (pre ++ gap).length = word.length := by
    rw [@List.length_append _ _ word, Nat.add_sub_cancel_left]
  have hpos : usizeAdd filled.length word.length = filled.length + word.length :=
    usizeAdd_of_lt (by omega)
  have hneeded : usizeAdd (filled.length + word.length) 1 = filled.length + word.length + 1 :=
    usizeAdd_of_lt (by omega)
  have hnext : usizeAdd filled.length (usizeAdd word.length 1) =
      (filled ++ (word ++ [0])).length := by
    have hone : usizeAdd word.length 1 = word.length + 1 := usizeAdd_of_lt (by omega)
    rw [hone, usizeAdd_of_lt (by omega), List.length_append, List.length_append]
    rfl
  rw [strSplitToPartsLoop, hread, ok_bind, if_neg hc, hskip, ok_bind, hstart, ok_bind, if_neg hw,
    hscan, ok_bind]
  simp only [hlen, hpos, hneeded, hnext]
  rw [List.length_append]
  by_cases hfree : word.length < free.length
  · rw [if_neg (by omega)]
    by_cases hfull : done.length < maxParts
    · rw [if_neg (by omega), if_pos ⟨hfull, hfree⟩]
      have hprefix : word <+: s.drop (pre ++ gap).length := by
        rw [hs, List.drop_left]
        exact List.prefix_append _ _
      have hcopy := @copyElems_free _ filled free _ _ hprefix hfree.le
      have hwrite := @writeElem_free _ (filled ++ word) (free.drop word.length)
        (by rw [List.length_drop]; omega) 0
      have hout := @writeElem_free _ done slots (by omega) filled.length
      rw [hcopy, ok_bind, ← List.length_append, hwrite, ok_bind, hout, ok_bind, List.drop_drop,
        List.append_assoc filled, @List.length_append _ done]
      rfl
    · rw [if_pos (by omega), if_neg fun h => hfull h.1]
  · rw [if_pos (by omega), if_neg fun h => hfree h.2]

/-- The loop packs the words that are left. -/
theorem strSplitToPartsLoop_spec (s xs : List UInt8) :
    ∀ (pre filled free : List UInt8) (rounds : Nat) (done slots : List Nat),
      s = pre ++ xs ++ [0] → (∀ x ∈ xs, x ≠ 0) → xs.length < rounds → done.length ≤ maxParts →
      maxParts ≤ done.length + slots.length → SeparateObjects [s.length, (filled ++ free).length] →
      ∃ result, strSplitToPartsLoop s delim maxParts rounds pre.length done.length filled.length
          (done ++ slots) (filled ++ free) = .ok result ∧
        Splits maxParts (words delim xs) done slots filled free result := by
  induction xs using word_induction (d := delim) with
  | hgap xs hgap =>
    intro pre filled free rounds done slots hs hne hrounds hdone hslots _
    obtain ⟨rounds, rfl⟩ := Nat.exists_eq_add_one_of_ne_zero (Nat.ne_zero_of_lt hrounds)
    rw [words_of_gap hgap]
    refine ⟨(done.length, done ++ slots, filled ++ free), ?_, Splits.nil hdone⟩
    rcases gapAhead hgap hs hne with hread | ⟨⟨c, hc, hread⟩, hscan, hend⟩
    · rw [strSplitToPartsLoop, hread, ok_bind, if_pos rfl]
    · rw [strSplitToPartsLoop, hread, ok_bind, if_neg hc, hscan, ok_bind, hend, ok_bind,
        if_pos rfl]
  | hword gap word rest h ih =>
    intro pre filled free rounds done slots hs hne hrounds hdone hslots hspace
    obtain ⟨rounds, rfl⟩ := Nat.exists_eq_add_one_of_ne_zero (Nat.ne_zero_of_lt hrounds)
    have hrest : s = (pre ++ gap ++ word) ++ rest ++ [0] := by simp [hs]
    have hpos := List.length_pos_iff.mpr h.word_ne
    have htail : s = pre ++ gap ++ (word ++ (rest ++ [0])) := by simp [hs]
    rw [words_leads h, strSplitToPartsLoop_word (wordAhead h hs hne) htail hslots hspace]
    by_cases hroom : done.length < maxParts ∧ word.length < free.length
    · have hsize : (filled ++ (word ++ [0]) ++ free.drop (word.length + 1)).length =
          (filled ++ free).length := by
        simp only [List.length_append, List.length_singleton, List.length_drop]
        omega
      obtain ⟨result, hrun, hresult⟩ := ih (pre ++ gap ++ word) (filled ++ (word ++ [0]))
        (free.drop (word.length + 1)) rounds (done ++ [filled.length]) (slots.drop 1) hrest
        (fun y hy => hne y (List.mem_append_right _ hy))
        (by simp only [List.length_append] at hrounds; omega)
        (by rw [List.length_append, List.length_singleton]; omega)
        (by rw [List.length_append, List.length_singleton, List.length_drop]; omega)
        (by rwa [hsize])
      rw [if_pos hroom]
      exact ⟨result, hrun, hresult.cons hroom⟩
    · rw [if_neg hroom]
      exact ⟨_, rfl, Splits.full hroom rfl⟩

/-- `str_split_to_parts` packs all words from the front of the scratch buffer. -/
theorem strSplitToParts_spec {s : CString} {out : List Nat} {scratch : List UInt8}
    (hout : maxParts ≤ out.length) (hspace : SeparateObjects [s.object.length, scratch.length]) :
    ∃ result, strSplitToParts (some s) delim (some out) maxParts (some scratch) = .ok result ∧
      Splits maxParts (words delim s.bytes) [] out [] scratch result := by
  rw [strSplitToParts]
  by_cases hnone : maxParts = 0 ∨ scratch.length = 0
  · rw [if_pos hnone]
    refine ⟨_, rfl, fun hfits => ?_, fun _ => rfl⟩
    cases hws : words delim s.bytes with
    | nil => rfl
    | cons w ws =>
      rw [hws, packed_cons] at hfits
      simp only [List.length_append, List.length_cons] at hfits
      omega
  · rw [if_neg hnone]
    exact strSplitToPartsLoop_spec s.object s.bytes [] [] scratch s.object.length [] out rfl
      s.noTerminator (by rw [CString.length_object]; exact Nat.lt_succ_self _) (Nat.zero_le _)
      (by rwa [List.length_nil, Nat.zero_add]) hspace

/-- The parts that splitting leaves point to the words. -/
theorem partStrings_packed (ws : List CString) : ∀ (filled free : List UInt8),
    partStrings (filled ++ packed (ws.map CString.bytes) ++ free)
      (partOffsets filled.length (ws.map CString.bytes)) = .ok (ws.map some) := by
  induction ws with
  | nil => exact fun _ _ => rfl
  | cons w ws ih =>
    intro filled free
    have hnext := ih (filled ++ w.object) free
    have hlen : (filled ++ w.object).length = filled.length + w.bytes.length + 1 := by
      rw [List.length_append, CString.length_object, Nat.add_assoc]
    rw [hlen, List.append_assoc filled] at hnext
    have hbuffer : packed ((w :: ws).map CString.bytes) =
        w.object ++ packed (ws.map CString.bytes) := packed_cons _ _
    rw [hbuffer, List.map_cons, partOffsets, partStrings, List.mapM_cons,
      ← List.append_assoc filled, List.append_assoc (filled ++ _), cStringAt_object, ok_bind,
      ← List.append_assoc (filled ++ _), List.append_assoc filled]
    rw [partStrings] at hnext
    rw [hnext]
    rfl

/-- Each of the packed words takes a byte at least. -/
theorem length_le_packed (ws : List (List UInt8)) : ws.length ≤ (packed ws).length := by
  induction ws with
  | nil => exact Nat.le_refl _
  | cons w ws ih =>
    rw [length_packed_cons, List.length_cons]
    omega

/-- What splitting reports when there is room for all words. -/
theorem strSplitToParts_words {s : CString} {ws : List CString} {out : List Nat}
    {scratch : List UInt8} (hws : ws.map CString.bytes = words delim s.bytes)
    (hout : maxParts ≤ out.length) (hspace : SeparateObjects [s.object.length, scratch.length])
    (hslots : ws.length ≤ maxParts)
    (hroom : (packed (ws.map CString.bytes)).length ≤ scratch.length) :
    ∃ out' scratch', strSplitToParts (some s) delim (some out) maxParts (some scratch) =
      .ok (ws.length, out', scratch') ∧
      partStrings scratch' (out'.take ws.length) = .ok (ws.map some) := by
  obtain ⟨result, hrun, hresult⟩ := @strSplitToParts_spec _ delim _ _ _ hout hspace
  have hlen : (words delim s.bytes).length = ws.length := by rw [← hws, List.length_map]
  have hsuccess := hresult.success ⟨by rwa [List.length_nil, Nat.zero_add, hlen], by rwa [← hws]⟩
  rw [hlen, List.length_nil, Nat.zero_add, ← hws] at hsuccess
  refine ⟨_, _, hrun.trans (congrArg Except.ok hsuccess), ?_⟩
  rw [List.take_left' (by rw [List.nil_append, length_partOffsets, List.length_map])]
  exact partStrings_packed ws [] _

/-- Joining the words of a string collapses its runs of delimiters. -/
theorem strJoin_words {s sep : CString} {ws : List CString} {dest : List UInt8}
    (hws : ws.map CString.bytes = words delim s.bytes) (hsep : sep.bytes = [delim])
    (hcount : ws.length < usizeSize) (hdest : (collapse delim s.bytes).length < dest.length)
    (hspace : SeparateObjects [dest.length, s.object.length, sep.object.length]) :
    ∃ dest' r, strJoin (some dest) (ws.map some) (some sep) = .ok (true, dest') ∧
      cStringAt dest' 0 = some r ∧ r.bytes = collapse delim s.bytes := by
  simp only [SeparateObjects, CString.length_object, List.sum_cons, List.sum_nil] at hspace
  have hparts : ∀ part, some part ∈ ws.map some → SeparateObjects
      [dest.length, part.bytes.length + 1, ((some sep).getD .empty).bytes.length + 1] := by
    intro part hpart
    have hmem : part.bytes ∈ words delim s.bytes := by
      rw [← hws]
      exact List.mem_map_of_mem (by simpa using hpart)
    have hle := (sublist_of_mem_words hmem).length_le
    simp only [SeparateObjects, List.sum_cons, List.sum_nil, Option.getD_some]
    omega
  obtain ⟨result, hrun, hresult⟩ :=
    strJoin_spec (by rwa [List.length_map]) (Nat.zero_lt_of_lt hdest) hparts
  have hjoined : joined sep.bytes (ws.map some) = collapse delim s.bytes := by
    rw [joined_map_some, hws, hsep, Runs.collapse_eq]
  have hflag : result.1 = true := hresult.flag.mpr ⟨by simp, by rwa [Option.getD_some, hjoined]⟩
  obtain ⟨r, hr, hstring⟩ := Joins.string hresult hflag (by omega)
  refine ⟨result.2, r, ?_, hstring, hr.trans hjoined⟩
  rw [hrun, ← hflag]

/-- The words of a string are strings. -/
theorem exists_words (s : CString) (delim : UInt8) :
    ∃ ws : List CString, ws.map CString.bytes = words delim s.bytes :=
  exists_strings fun _ hw => ⟨fun b hb => s.noTerminator b ((sublist_of_mem_words hw).subset hb),
    (sublist_of_mem_words hw).length_le.trans_lt s.length_lt⟩

/-- With room for all words of a string splitting reports them. -/
theorem exists_strSplitToParts {s : CString} {out : List Nat} {scratch : List UInt8}
    (hslots : (words delim s.bytes).length ≤ maxParts) (hout : maxParts ≤ out.length)
    (hscratch : (packed (words delim s.bytes)).length ≤ scratch.length)
    (hspace : SeparateObjects [s.object.length, scratch.length]) :
    ∃ (ws : List CString) (out' : List Nat) (scratch' : List UInt8),
      ws.map CString.bytes = words delim s.bytes ∧ ws.length < usizeSize ∧
      strSplitToParts (some s) delim (some out) maxParts (some scratch) =
        .ok (ws.length, out', scratch') ∧
      partStrings scratch' (out'.take ws.length) = .ok (ws.map some) := by
  obtain ⟨ws, hws⟩ := exists_words s delim
  rw [← hws] at hscratch
  rw [← hws, List.length_map] at hslots
  have hcount := length_le_packed (ws.map CString.bytes)
  rw [List.length_map] at hcount
  obtain ⟨out', scratch', hsplit, hstrings⟩ :=
    strSplitToParts_words hws hout hspace hslots hscratch
  refine ⟨ws, out', scratch', hws, ?_, hsplit, hstrings⟩
  have hmax := usizeMax_succ
  simp only [SeparateObjects, List.sum_cons, List.sum_nil] at hspace
  omega

/-- `str_rejoin` with the delimiter collapses its runs; a string without words makes it report a
failure. -/
theorem strRejoin_words {s sep : CString} {dest scratch : List UInt8} {out : List Nat}
    (hsep : sep.bytes = [delim]) (hdest : (collapse delim s.bytes).length < dest.length)
    (hslots : (words delim s.bytes).length ≤ maxParts) (hout : maxParts ≤ out.length)
    (hscratch : (packed (words delim s.bytes)).length ≤ scratch.length)
    (hspace : SeparateObjects
      [dest.length, scratch.length, s.object.length, sep.object.length]) :
    ∃ dest' r, strRejoin (some s) delim (some out) maxParts (some scratch) (some dest)
        (some sep) = .ok (decide (words delim s.bytes ≠ []), dest') ∧
      cStringAt dest' 0 = some r ∧ r.bytes = collapse delim s.bytes := by
  simp only [SeparateObjects, List.sum_cons, List.sum_nil] at hspace
  obtain ⟨ws, out', scratch', hws, hcount, hsplit, hstrings⟩ := exists_strSplitToParts hslots hout
    hscratch (by simp only [SeparateObjects, List.sum_cons, List.sum_nil]; omega)
  simp only [strRejoin, Option.isSome_some, requireMsg_true, ok_bind]
  rw [requireMsg_eq_ok.mpr (decide_eq_true (Nat.zero_lt_of_lt hdest)), ok_bind, hsplit, ok_bind]
  dsimp only
  cases ws with
  | nil =>
    obtain ⟨x, xs, rfl⟩ := List.exists_cons_of_length_pos (Nat.zero_lt_of_lt hdest)
    rw [List.map_nil] at hws
    refine ⟨0 :: xs, .empty, ?_, cStringAt_object [] xs .empty, ?_⟩
    · rw [if_pos List.length_nil, decide_eq_false (not_not.mpr hws.symm)]
      rfl
    · rw [Runs.collapse_eq, ← hws]
      rfl
  | cons w ws =>
    have hne : words delim s.bytes ≠ [] := by
      rw [← hws]
      exact List.cons_ne_nil _ _
    rw [if_neg (show ¬ (w :: ws).length = 0 from Nat.succ_ne_zero _), hstrings, ok_bind,
      decide_eq_true hne]
    exact strJoin_words hws hsep hcount hdest
      (by simp only [SeparateObjects, List.sum_cons, List.sum_nil]; omega)

/-- Words that were joined with the delimiter are split again. -/
theorem strSplitToParts_joined {parts : List CString} {sep : CString} {dest scratch : List UInt8}
    {out : List Nat} (hsep : sep.bytes = [delim])
    (hparts : ∀ part ∈ parts, part.bytes ≠ [] ∧ delim ∉ part.bytes)
    (hdest : (joined sep.bytes (parts.map some)).length + 1 ≤ dest.length)
    (hslots : parts.length ≤ maxParts) (hout : maxParts ≤ out.length)
    (hscratch : (packed (parts.map CString.bytes)).length ≤ scratch.length)
    (hspace : SeparateObjects [dest.length, scratch.length])
    (hsizes : ∀ part ∈ parts,
      SeparateObjects [dest.length, part.object.length, sep.object.length]) :
    ∃ dest' s out' scratch',
      strJoin (some dest) (parts.map some) (some sep) = .ok (true, dest') ∧
      cStringAt dest' 0 = some s ∧
      strSplitToParts (some s) delim (some out) maxParts (some scratch) =
        .ok (parts.length, out', scratch') ∧
      partStrings scratch' (out'.take parts.length) = .ok (parts.map some) := by
  have hmax := usizeMax_succ
  simp only [SeparateObjects, List.sum_cons, List.sum_nil] at hspace
  have hcount := length_le_packed (parts.map CString.bytes)
  rw [List.length_map] at hcount
  obtain ⟨result, hrun, hresult⟩ := @strJoin_spec dest (parts.map some) (some sep)
    (by rw [List.length_map]; omega) (by omega) (by
      intro part hpart
      have hmem : part ∈ parts := by simpa using hpart
      simpa only [CString.length_object, Option.getD_some] using hsizes part hmem)
  have hflag : result.1 = true := hresult.flag.mpr ⟨by simp, hdest⟩
  obtain ⟨s, hs, hstring⟩ := Joins.string hresult hflag (by omega)
  have hws : parts.map CString.bytes = words delim s.bytes := by
    rw [hs, joined_map_some, Option.getD_some, hsep, words_intercalate]
    · exact List.forall_mem_map.mpr fun part hpart => (hparts part hpart).1
    · exact List.forall_mem_map.mpr fun part hpart => (hparts part hpart).2
  have hfits : SeparateObjects [s.object.length, scratch.length] := by
    rw [Option.getD_some] at hs
    simp only [SeparateObjects, List.sum_cons, List.sum_nil, CString.length_object, hs]
    omega
  obtain ⟨out', scratch', hsplit, hstrings⟩ :=
    strSplitToParts_words hws hout hfits hslots hscratch
  refine ⟨result.2, s, out', scratch', ?_, hstring, hsplit, hstrings⟩
  rw [hrun, ← hflag]

/-- Joining succeeds exactly when no part is NULL and the whole length fits, and a list of words
and a string with single inner delimiters are two forms of the same. -/
theorem strJoin_strSplit_roundTrip :
    (∀ (dest : List UInt8) (parts : List (Option CString)) (sep : Option CString),
      0 < dest.length → parts.length < usizeSize →
      (∀ part, some part ∈ parts →
        SeparateObjects [dest.length, part.object.length, (sep.getD .empty).object.length]) →
      ∃ flag dest', strJoin (some dest) parts sep = .ok (flag, dest') ∧
        (flag = true ↔ none ∉ parts ∧ (parts.map fun part => (partBytes part).length).sum +
          (parts.length - 1) * (sep.getD .empty).bytes.length + 1 ≤ dest.length) ∧
        (flag = true → dest' = joined (sep.getD .empty).bytes parts ++
          0 :: dest.drop ((joined (sep.getD .empty).bytes parts).length + 1)) ∧
        (flag = false → dest'.head? = some 0)) ∧
    (∀ (parts : List CString) (sep : CString) (dest : List UInt8) (out : List Nat)
        (maxParts : Nat) (scratch : List UInt8) (d : UInt8), sep.bytes = [d] →
      (∀ part ∈ parts, part.bytes ≠ [] ∧ d ∉ part.bytes) →
      (joined sep.bytes (parts.map some)).length + 1 ≤ dest.length →
      parts.length ≤ maxParts → maxParts ≤ out.length →
      (packed (parts.map CString.bytes)).length ≤ scratch.length →
      SeparateObjects [dest.length, scratch.length] →
      (∀ part ∈ parts, SeparateObjects [dest.length, part.object.length, sep.object.length]) →
      ∃ dest' s out' scratch',
        strJoin (some dest) (parts.map some) (some sep) = .ok (true, dest') ∧
        cStringAt dest' 0 = some s ∧
        strSplitToParts (some s) d (some out) maxParts (some scratch) =
          .ok (parts.length, out', scratch') ∧
        partStrings scratch' (out'.take parts.length) = .ok (parts.map some)) ∧
    (∀ (s sep : CString) (dest : List UInt8) (out : List Nat) (maxParts : Nat)
        (scratch : List UInt8) (d : UInt8), sep.bytes = [d] →
      (collapse d s.bytes).length + 1 ≤ dest.length →
      (words d s.bytes).length ≤ maxParts → maxParts ≤ out.length →
      (packed (words d s.bytes)).length ≤ scratch.length →
      SeparateObjects [dest.length, scratch.length, s.object.length, sep.object.length] →
      ∃ count out' scratch' strings dest' r,
        strSplitToParts (some s) d (some out) maxParts (some scratch) =
          .ok (count, out', scratch') ∧
        partStrings scratch' (out'.take count) = .ok strings ∧
        strJoin (some dest) strings (some sep) = .ok (true, dest') ∧
        cStringAt dest' 0 = some r ∧ r.bytes = collapse d s.bytes) := by
  refine ⟨?_, ?_, ?_⟩
  · intro dest parts sep hdest hcount hspace
    simp only [CString.length_object] at hspace
    obtain ⟨result, hrun, hresult⟩ := strJoin_spec hcount hdest hspace
    refine ⟨result.1, result.2, hrun, ?_, hresult.success, hresult.failure⟩
    rw [hresult.flag, length_joined, Nat.lt_iff_add_one_le]
  · intro parts sep dest out maxParts scratch d hsep hparts hdest hslots hout hscratch hspace hsizes
    exact strSplitToParts_joined hsep hparts hdest hslots hout hscratch hspace hsizes
  · intro s sep dest out maxParts scratch d hsep hdest hslots hout hscratch hspace
    simp only [SeparateObjects, List.sum_cons, List.sum_nil] at hspace
    obtain ⟨ws, out', scratch', hws, hcount, hsplit, hstrings⟩ := exists_strSplitToParts hslots
      hout hscratch (by simp only [SeparateObjects, List.sum_cons, List.sum_nil]; omega)
    obtain ⟨dest', r, hjoin, hstring, hr⟩ := strJoin_words hws hsep hcount hdest
      (by simp only [SeparateObjects, List.sum_cons, List.sum_nil]; omega)
    exact ⟨ws.length, out', scratch', ws.map some, dest', r, hsplit, hstrings, hjoin, hstring, hr⟩

/-- Two letters are joined by a comma and split again, and outer commas are dropped. -/
theorem strJoin_strSplit_roundTrip_letters :
    let comma : CString := ⟨[44], by simp, by decide⟩
    let letters : List CString := [⟨[97], by simp, by decide⟩, ⟨[98], by simp, by decide⟩]
    (∃ flag dest', strJoin (some [7, 7]) (letters.map some) none = .ok (flag, dest') ∧
      (flag = true ↔ none ∉ letters.map some ∧ 2 + 1 * 0 + 1 ≤ 2) ∧
      (flag = false → dest'.head? = some 0)) ∧
    (∃ dest' s out' scratch', strJoin (some [7, 7, 7, 7]) (letters.map some) (some comma) =
        .ok (true, dest') ∧ cStringAt dest' 0 = some s ∧
      strSplitToParts (some s) 44 (some [0, 0]) 2 (some [7, 7, 7, 7]) =
        .ok (2, out', scratch') ∧
      partStrings scratch' (out'.take 2) = .ok (letters.map some)) ∧
    ∃ count out' scratch' strings dest' r,
      strSplitToParts (some ⟨[44, 97, 44], by simp, by decide⟩) 44 (some [0]) 1 (some [7, 7]) =
        .ok (count, out', scratch') ∧
      partStrings scratch' (out'.take count) = .ok strings ∧
      strJoin (some [7, 7]) strings (some comma) = .ok (true, dest') ∧
      cStringAt dest' 0 = some r ∧ r.bytes = collapse 44 [44, 97, 44] := by
  intro comma letters
  refine ⟨?_, ?_, ?_⟩
  · obtain ⟨flag, dest', hrun, hflag, -, hfailure⟩ := strJoin_strSplit_roundTrip.1 [7, 7]
      (letters.map some) none (by decide) (by decide) (by simp [letters]; decide)
    exact ⟨flag, dest', hrun, hflag, hfailure⟩
  · exact strJoin_strSplit_roundTrip.2.1 letters comma [7, 7, 7, 7] [0, 0] 2 [7, 7, 7, 7] 44 rfl
      (by simp [letters]) (by decide) (by decide) (by decide) (by decide) (by decide) (by decide)
  · exact strJoin_strSplit_roundTrip.2.2 ⟨[44, 97, 44], by simp, by decide⟩ comma [7, 7] [0] 1
      [7, 7] 44 rfl (by decide) (by decide) (by decide) (by decide) (by decide)

end CanonC
