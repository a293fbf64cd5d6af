import CanonC.Util.Str.Join.Correctness
import CanonC.Util.Str.Split.Correctness

/-!
# Fields between delimiters

Splitting that keeps empty fields loses nothing of a string: the fields joined with the
delimiter give the string again. A joined string is split into the parts it was joined
from, unless the only part is empty, since the empty string has no fields.
-/

namespace CanonC

open Toolkit Toolkit.Runs

variable {addr maxParts : Nat} {delim : UInt8}

/-- What a caller reads from a field's address on in a string of these bytes. -/
def fieldAt (addr : Nat) (delim : UInt8) (xs : List UInt8) (field : Nat) : List UInt8 :=
  (xs.drop (field - addr)).takeWhile (· ≠ delim)

/-- The fields of a string: none in the empty string. -/
def fields (delim : UInt8) (xs : List UInt8) : List (List UInt8) :=
  if xs = [] then [] else xs.splitOn delim

/-- What lies between the starts and the delimiters is what splitting a list gives. -/
theorem takeWhile_drop_seps (xs : List UInt8) :
    ((0 :: (seps delim xs).map (· + 1)).map fun p => (xs.drop p).takeWhile (· ≠ delim)) =
      xs.splitOn delim := by
  induction xs with
  | nil => rfl
  | cons x xs ih =>
    have hnext (l : List Nat) : ((l.map (· + 1)).map fun p =>
        ((x :: xs).drop p).takeWhile (· ≠ delim)) =
          l.map fun p => (xs.drop p).takeWhile (· ≠ delim) := by
      rw [List.map_map]
      exact List.map_congr_left fun _ _ => rfl
    rw [List.map_cons, List.drop_zero] at ih
    rw [List.splitOn_cons_eq_if_modifyHead, ← ih, List.map_cons, hnext, List.drop_zero, seps_cons]
    by_cases hd : x = delim
    · rw [if_pos hd, if_pos (beq_iff_eq.mpr hd), List.takeWhile_cons_of_neg (by simpa using hd),
        List.map_append, List.map_cons, List.drop_zero, List.map_nil, List.singleton_append]
    · rw [if_neg hd, if_neg (mt beq_iff_eq.mp hd), List.takeWhile_cons_of_pos (by simpa using hd),
        List.nil_append, List.modifyHead_cons]

/-- What a caller reads at the starts of the fields is the fields. -/
theorem map_fieldAt_fieldStarts (xs : List UInt8) :
    ((fieldStarts delim xs).map (addr + ·)).map (fieldAt addr delim xs) = fields delim xs := by
  have hread : fieldAt addr delim xs ∘ (addr + ·) = fun p => (xs.drop p).takeWhile (· ≠ delim) := by
    funext p
    rw [Function.comp, fieldAt, Nat.add_sub_cancel_left]
  rw [List.map_map, hread, fieldStarts, fields]
  split
  · rfl
  · exact takeWhile_drop_seps xs

/-- There are as many fields as starts. -/
theorem length_fields (xs : List UInt8) :
    (fields delim xs).length = if xs = [] then 0 else 1 + xs.count delim := by
  have hread := @map_fieldAt_fieldStarts 0 delim xs
  rw [← hread, List.length_map, List.length_map, length_fieldStarts]

/-- Joining the fields gives the string. -/
theorem intercalate_fields (xs : List UInt8) : [delim].intercalate (fields delim xs) = xs := by
  rw [fields]
  split
  · next h => rw [h, List.intercalate_nil]
  · exact List.intercalate_splitOn delim

/-- The fields of a joined string are the parts. -/
theorem fields_intercalate {parts : List (List UInt8)} (hfree : ∀ part ∈ parts, delim ∉ part)
    (hparts : parts ≠ [[]]) : fields delim ([delim].intercalate parts) = parts := by
  cases parts with
  | nil => rfl
  | cons part parts =>
    rw [fields, if_neg, List.splitOn_intercalate delim hfree (List.cons_ne_nil _ _)]
    cases parts with
    | nil =>
      rw [List.intercalate_singleton]
      exact fun hnil => hparts (by rw [hnil])
    | cons part' parts =>
      rw [List.intercalate_cons_cons]
      simp

/-- The array of parts holds the first fields that it has room for. -/
theorem strSplitKeepEmpty_spec (haddr : addr ≠ 0) (s : CString) {out : List Nat}
    (hout : maxParts ≤ out.length) :
    strSplitKeepEmpty addr s delim (some out) maxParts =
      .ok (storeParts addr maxParts [] out (fieldStarts delim s.bytes)) := by
  rw [strSplitKeepEmpty, decide_eq_true haddr, requireMsg_true, ok_bind]
  by_cases h0 : maxParts = 0
  · rw [h0, if_pos rfl, storeParts_full (Nat.lt_irrefl 0)]
    rfl
  · simp only [if_neg h0]
    cases hs : s.bytes with
    | nil =>
      have hread : readElem s.object 0 = .ok 0 := by rw [CString.object, hs]; rfl
      rw [hread, ok_bind, if_pos rfl, fieldStarts, if_pos rfl, storeParts_nil]
      rfl
    | cons c cs =>
      have hc : c ≠ 0 := s.noTerminator c (by rw [hs]; exact List.mem_cons_self)
      have hread : readElem s.object 0 = .ok c := by rw [CString.object, hs]; rfl
      have hloop := @strSplitKeepEmptyLoop_spec addr maxParts delim s.bytes 0 0 [] out
        s.noTerminator (by rwa [List.length_nil, Nat.zero_add])
      rw [hread, ok_bind, if_neg hc, fieldStarts, if_neg (List.cons_ne_nil c cs), ← hs]
      refine hloop.trans ?_
      simp only [Nat.zero_add, Nat.add_comm 1]

/-- What a caller reads after splitting. -/
theorem strSplitKeepEmpty_fields (haddr : addr ≠ 0) (s : CString) {out : List Nat}
    (hout : maxParts ≤ out.length) :
    ∃ count out', strSplitKeepEmpty addr s delim (some out) maxParts = .ok (count, out') ∧
      count = min maxParts (fields delim s.bytes).length ∧
      (out'.take count).map (fieldAt addr delim s.bytes) =
        (fields delim s.bytes).take maxParts ∧ out'.drop count = out.drop count := by
  have hlen : (fieldStarts delim s.bytes).length = (fields delim s.bytes).length := by
    rw [length_fieldStarts, length_fields]
  refine ⟨_, _, (strSplitKeepEmpty_spec haddr s hout).trans
    (congrArg Except.ok storeParts_start), by rw [hlen], ?_, ?_⟩
  · rw [List.take_left' (by rw [List.length_map, List.length_take]), List.map_take, List.map_take,
      map_fieldAt_fieldStarts]
  · exact List.drop_left' (by rw [List.length_map, List.length_take])

/-- A field is a part of the string. -/
theorem sublist_of_mem_fields {xs field : List UInt8} (h : field ∈ fields delim xs) :
    field.Sublist xs := by
  by_cases hnil : field = []
  · rw [hnil]
    exact List.nil_sublist xs
  · refine sublist_of_mem_words (d := delim) ?_
    rw [fields] at h
    split at h
    · exact absurd h List.not_mem_nil
    · exact List.mem_filter.mpr ⟨h, decide_eq_true hnil⟩

/-- The fields of a string are strings. -/
theorem exists_fields (s : CString) (delim : UInt8) :
    ∃ strings : List CString, strings.map CString.bytes = fields delim s.bytes :=
  exists_strings fun _ h => ⟨fun b hb => s.noTerminator b ((sublist_of_mem_fields h).subset hb),
    (sublist_of_mem_fields h).length_le.trans_lt s.length_lt⟩

/-- There is at most one part more than the joined string has bytes. -/
theorem length_le_joined (parts : List (Option CString)) :
    parts.length ≤ (joined [delim] parts).length + 1 := by
  rw [length_joined, List.length_singleton]
  omega

/-- Parts without the delimiter, joined by it, are a string. -/
theorem strJoin_fits {parts : List CString} {sep : CString} {dest : List UInt8}
    (hsep : sep.bytes = [delim]) (hdest : (joined [delim] (parts.map some)).length < dest.length)
    (hspace : ∀ part ∈ parts,
      SeparateObjects [dest.length, part.object.length, sep.object.length])
    (hmax : dest.length ≤ usizeMax) :
    ∃ s : CString, s.bytes = [delim].intercalate (parts.map CString.bytes) ∧
      strJoin (some dest) (parts.map some) (some sep) =
        .ok (true, s.object ++ dest.drop s.object.length) := by
  have hcount := @length_le_joined delim (parts.map some)
  have hsize := usizeMax_succ
  rw [List.length_map] at hcount
  obtain ⟨result, hrun, hresult⟩ := @strJoin_spec dest (parts.map some) (some sep)
    (by rw [List.length_map]; omega) (Nat.zero_lt_of_lt hdest) (by
      intro part hpart
      have hmem : part ∈ parts := by simpa using hpart
      simpa only [CString.length_object, Option.getD_some] using hspace part hmem)
  rw [Option.getD_some, hsep] at hresult
  have hflag : result.1 = true := hresult.flag.mpr ⟨by simp, hdest⟩
  obtain ⟨s, hs, -⟩ := Joins.string (hsep ▸ hresult) hflag hmax
  rw [hsep] at hs
  refine ⟨s, hs.trans (joined_map_some _ parts), ?_⟩
  have hsuccess := hresult.success hflag
  rw [List.nil_append, ← hs, List.append_cons] at hsuccess
  rw [hrun, ← hflag, CString.length_object, CString.object, ← hsuccess]

/-- Splitting that keeps empty fields reports the first fields that the array has room for and
leaves the slots behind them; with room for all of them, joining them with the delimiter writes the
string again. Parts without the delimiter that are joined with it are the fields that splitting the
result reports, but for a single empty part. -/
theorem strSplitKeepEmpty_roundTrip (haddr : addr ≠ 0) {out : List Nat}
    (hout : maxParts ≤ out.length) {sep : CString} (hsep : sep.bytes = [delim])
    (dest : List UInt8) :
    (∀ s : CString, ∃ count out',
      strSplitKeepEmpty addr s delim (some out) maxParts = .ok (count, out') ∧
      count = min maxParts (fields delim s.bytes).length ∧
      (out'.take count).map (fieldAt addr delim s.bytes) = (fields delim s.bytes).take maxParts ∧
      out'.drop count = out.drop count) ∧
    (∀ s : CString, (fields delim s.bytes).length ≤ maxParts →
      s.object.length ≤ dest.length →
      SeparateObjects [dest.length, s.object.length, sep.object.length] →
      ∃ (count : Nat) (out' : List Nat) (strings : List CString),
        strSplitKeepEmpty addr s delim (some out) maxParts = .ok (count, out') ∧
        (out'.take count).map (fieldAt addr delim s.bytes) = strings.map CString.bytes ∧
        strJoin (some dest) (strings.map some) (some sep) =
          .ok (true, s.object ++ dest.drop s.object.length)) ∧
    ∀ parts : List CString, (∀ part ∈ parts, delim ∉ part.bytes) →
      parts.map CString.bytes ≠ [[]] → parts.length ≤ maxParts →
      (joined sep.bytes (parts.map some)).length < dest.length → dest.length ≤ usizeMax →
      (∀ part ∈ parts, SeparateObjects [dest.length, part.object.length, sep.object.length]) →
      ∃ dest' s out', strJoin (some dest) (parts.map some) (some sep) = .ok (true, dest') ∧
        cStringAt dest' 0 = some s ∧
        strSplitKeepEmpty addr s delim (some out) maxParts = .ok (parts.length, out') ∧
        (out'.take parts.length).map (fieldAt addr delim s.bytes) =
          parts.map CString.bytes := by
  refine ⟨fun s => strSplitKeepEmpty_fields haddr s hout, ?_, ?_⟩
  · intro s hslots hdest hspace
    simp only [SeparateObjects, List.sum_cons, List.sum_nil] at hspace
    obtain ⟨count, out', hsplit, -, hfields, -⟩ :=
      @strSplitKeepEmpty_fields addr maxParts delim haddr s out hout
    obtain ⟨strings, hstrings⟩ := exists_fields s delim
    rw [List.take_of_length_le hslots, ← hstrings] at hfields
    have hjoined : joined [delim] (strings.map some) = s.bytes := by
      rw [joined_map_some, hstrings, intercalate_fields]
    have hparts : ∀ part ∈ strings,
        SeparateObjects [dest.length, part.object.length, sep.object.length] := by
      intro part hpart
      have hmem : part.bytes ∈ fields delim s.bytes := by
        rw [← hstrings]
        exact List.mem_map_of_mem hpart
      have hle := (sublist_of_mem_fields hmem).length_le
      simp only [SeparateObjects, List.sum_cons, List.sum_nil, CString.length_object] at hspace ⊢
      omega
    rw [CString.length_object] at hdest
    obtain ⟨r, hr, hjoin⟩ := strJoin_fits hsep (by rw [hjoined]; omega) hparts (by omega)
    have hsame : r.bytes = s.bytes := by rw [hr, hstrings, intercalate_fields]
    refine ⟨count, out', strings, hsplit, hfields, ?_⟩
    rw [hjoin, CString.object, CString.object, hsame]
  · intro parts hfree hparts hslots hdest hmax hspace
    rw [hsep] at hdest
    obtain ⟨s, hs, hjoin⟩ := strJoin_fits hsep hdest hspace hmax
    have hfields : fields delim s.bytes = parts.map CString.bytes := by
      rw [hs]
      exact fields_intercalate (List.forall_mem_map.mpr hfree) hparts
    obtain ⟨count, out', hsplit, hcount, hread, -⟩ :=
      @strSplitKeepEmpty_fields addr maxParts delim haddr s out hout
    rw [hfields, List.length_map, Nat.min_eq_right hslots] at hcount
    have hall : (parts.map CString.bytes).take maxParts = parts.map CString.bytes :=
      List.take_of_length_le (by rwa [List.length_map])
    rw [hfields, hall] at hread
    rw [← hcount]
    exact ⟨_, s, out', hjoin, cStringAt_object [] _ s, hsplit, hread⟩

/-- An empty field between two letters is kept, and so is one behind the last delimiter. -/
theorem strSplitKeepEmpty_roundTrip_letters :
    let comma : CString := ⟨[44], by simp, by decide⟩
    let letter : CString := ⟨[97], by simp, by decide⟩
    (∃ (count : Nat) (out' : List Nat) (strings : List CString),
      strSplitKeepEmpty 4096 ⟨[97, 44, 44, 98], by simp, by decide⟩ 44 (some [0, 0, 0]) 3 =
        .ok (count, out') ∧
      (out'.take count).map (fieldAt 4096 44 [97, 44, 44, 98]) = strings.map CString.bytes ∧
      strJoin (some [7, 7, 7, 7, 7]) (strings.map some) (some comma) =
        .ok (true, [97, 44, 44, 98, 0])) ∧
    ∃ dest' s out',
      strJoin (some [7, 7, 7, 7, 7]) ([letter, CString.empty].map some) (some comma) =
        .ok (true, dest') ∧
      cStringAt dest' 0 = some s ∧
      strSplitKeepEmpty 4096 s 44 (some [0, 0, 0]) 3 = .ok (2, out') ∧
      (out'.take 2).map (fieldAt 4096 44 s.bytes) = [[97], []] := by
  intro comma letter
  have h := @strSplitKeepEmpty_roundTrip 4096 3 44 (by decide) [0, 0, 0] (by decide) comma rfl
    [7, 7, 7, 7, 7]
  refine ⟨?_, ?_⟩
  · exact h.2.1 ⟨[97, 44, 44, 98], by simp, by decide⟩ (by decide) (by decide) (by decide)
  · exact h.2.2 [letter, CString.empty] (by decide) (by decide) (by decide) (by decide)
      (by decide) (by decide)

end CanonC
