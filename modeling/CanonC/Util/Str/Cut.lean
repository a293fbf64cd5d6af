import CanonC.Util.Str.Compare

/-!
# Cutting views

The parts of a view show the parts of its bytes, whatever the indices. So a view is the parts
in front of and behind any cut put together, it starts and ends with the parts taken from its
ends, and the first occurrence of a character cuts it into a part without the character and
the rest.
-/

namespace CanonC

open Toolkit

variable {mem : Memory} {literal : Nat} {v w : StrView} {c : UInt8}

namespace StrView.Valid

/-- A part of a view shows the part of the bytes. -/
theorem text_sub (hv : v.Valid) (mem : Memory) (literal start n : Nat) :
    (strViewSub literal v start n).text mem = ((v.text mem).drop start).take n := by
  rw [strViewSub]
  split
  · rename_i hge
    rw [List.drop_of_length_le (by rw [length_text]; exact hge), List.take_nil]
    rfl
  · rename_i hlt
    have hlt' : start < v.len := Nat.lt_of_not_ge hlt
    rw [usizeSub_of_le hlt'.le hv.len_lt, text, text, Cells.drop_read]
    dsimp only [strViewFromLen]
    split
    · rename_i hn
      exact (Cells.take_read hn.le).symm
    · rename_i hn
      exact (List.take_of_length_le (by rw [Cells.length_read]; exact Nat.le_of_not_lt hn)).symm

/-- A prefix has the first bytes of the view. -/
theorem text_take (hv : v.Valid) (mem : Memory) (literal n : Nat) :
    (strViewPrefix literal v n).text mem = (v.text mem).take n := by
  rw [strViewPrefix, hv.text_sub, List.drop_zero]

/-- A part of a valid view is valid. -/
theorem sub (hv : v.Valid) (literal start n : Nat) : (strViewSub literal v start n).Valid := by
  rw [strViewSub]
  split
  · exact ⟨fun _ => rfl, Nat.two_pow_pos 64⟩
  · rename_i hlt
    have hlt' : start < v.len := Nat.lt_of_not_ge hlt
    rw [usizeSub_of_le hlt'.le hv.len_lt]
    have hptr := hv.ne_zero (by omega)
    have hlen := hv.len_lt
    refine ⟨fun hzero => absurd hzero (by dsimp only [strViewFromLen]; omega), ?_⟩
    dsimp only [strViewFromLen]
    split <;> omega

/-- A part that is not empty lies inside the view. -/
theorem sub_within (hv : v.Valid) {start n : Nat} (h : 0 < (strViewSub literal v start n).len) :
    v.ptr ≤ (strViewSub literal v start n).ptr ∧
      (strViewSub literal v start n).ptr + (strViewSub literal v start n).len ≤ v.ptr + v.len := by
  rw [strViewSub] at h ⊢
  split
  · rename_i hge
    rw [if_pos hge] at h
    exact absurd h (Nat.lt_irrefl 0)
  · rename_i hlt
    have hlt' : start < v.len := Nat.lt_of_not_ge hlt
    rw [usizeSub_of_le hlt'.le hv.len_lt]
    dsimp only [strViewFromLen]
    split <;> omega

/-- A suffix of a valid view is valid. -/
theorem suffix (hv : v.Valid) (n : Nat) : (strViewSuffix v n).Valid := by
  rw [strViewSuffix]
  split
  · exact hv
  · rename_i hlt
    have hptr := hv.ne_zero (by omega)
    have hlen := hv.len_lt
    exact ⟨fun hzero => absurd hzero (by dsimp only [strViewFromLen]; omega),
      show n < usizeSize by omega⟩

end StrView.Valid

namespace StrView

/-- The end of a view lies at its end. -/
theorem suffix_within (v : StrView) (n : Nat) : v.ptr ≤ (strViewSuffix v n).ptr ∧
    (strViewSuffix v n).ptr + (strViewSuffix v n).len = v.ptr + v.len := by
  rw [strViewSuffix]
  split
  · exact ⟨le_rfl, rfl⟩
  · dsimp only [strViewFromLen]
    omega

/-- A suffix has the last bytes of the view. -/
theorem text_suffix (v : StrView) (mem : Memory) (n : Nat) :
    (strViewSuffix v n).text mem = (v.text mem).drop (v.len - n) := by
  rw [strViewSuffix]
  split
  · rename_i hge
    rw [Nat.sub_eq_zero_of_le hge, List.drop_zero]
  · rename_i hlt
    have hle : n ≤ v.len := by omega
    rw [text, text, Cells.drop_read, Nat.sub_sub_self hle, ← Nat.add_sub_assoc hle]
    rfl

/-- The loop finds the first occurrence among the bytes left, or the end of the view. -/
theorem strViewFindLoop_eq (v : StrView) (mem : Memory) (c : UInt8) (left : Nat) {i : Nat}
    (h : i + left = v.len) :
    strViewFindLoop mem v c left i = i + (Cells.read mem (v.ptr + i) left).idxOf c := by
  induction left generalizing i with
  | zero =>
    rw [strViewFindLoop, Cells.read_zero, List.idxOf_nil]
    exact h.symm
  | succ left ih =>
    rw [strViewFindLoop, Cells.read_succ, List.idxOf_cons]
    by_cases hc : mem (v.ptr + i) = c
    · rw [if_pos hc, beq_iff_eq.mpr hc]
      rfl
    · rw [if_neg hc, ih (by omega), beq_eq_false_iff_ne.mpr hc, Nat.add_assoc v.ptr, cond_false]
      omega

/-- `str_view_find_char` finds the first occurrence. -/
theorem findChar_eq (v : StrView) (mem : Memory) (c : UInt8) :
    strViewFindChar mem v c = (v.text mem).idxOf c := by
  rw [strViewFindChar, strViewFindLoop_eq v mem c v.len (Nat.zero_add _), Nat.zero_add,
    Nat.add_zero, text]

/-- A view contains the characters of its bytes. -/
theorem containsChar_eq (v : StrView) (mem : Memory) (c : UInt8) :
    strViewContainsChar mem v c = decide (c ∈ v.text mem) := by
  rw [strViewContainsChar, findChar_eq, decide_eq_decide, ← v.length_text mem,
    List.idxOf_lt_length_iff]

end StrView

/-- At every index the parts in front and behind make up the view, which starts with the one
and ends with the other; a part in the middle is the front of the part behind it. The tests
for a prefix and a suffix compare the parts of the length tested. A character is contained
exactly when it is among the bytes, and its first occurrence cuts the view into a part
without it, the character and the rest. -/
theorem str_view_cut (hv : v.Valid) (mem : Memory) (literal : Nat) :
    (∀ n, (strViewPrefix literal v n).text mem ++ (strViewSuffix v (v.len - n)).text mem =
        v.text mem ∧
      strViewStartsWith mem v (strViewPrefix literal v n) = true ∧
      strViewEndsWith mem v (strViewSuffix v n) = true ∧
      ∀ start, strViewEquals mem (strViewSub literal v start n)
        (strViewPrefix literal (strViewSuffix v (v.len - start)) n) = true) ∧
    (∀ w : StrView, w.Valid →
      strViewStartsWith mem v w = strViewEquals mem (strViewPrefix literal v w.len) w ∧
      strViewEndsWith mem v w = strViewEquals mem (strViewSuffix v w.len) w) ∧
    ∀ c, (strViewContainsChar mem v c = true ↔ c ∈ v.text mem) ∧
      strViewContainsChar mem (strViewPrefix literal v (strViewFindChar mem v c)) c = false ∧
      (strViewContainsChar mem v c = true →
        v.text mem = (strViewPrefix literal v (strViewFindChar mem v c)).text mem ++ c ::
          (strViewSub literal v (strViewFindChar mem v c + 1) v.len).text mem) := by
  have hlen := v.length_text mem
  refine ⟨fun n => ⟨?_, ?_, ?_, fun start => ?_⟩, fun w hw => ⟨?_, ?_⟩, fun c => ⟨?_, ?_, ?_⟩⟩
  · rw [hv.text_take, StrView.text_suffix]
    by_cases hn : n ≤ v.len
    · rw [Nat.sub_sub_self hn, List.take_append_drop]
    · rw [Nat.sub_eq_zero_of_le (Nat.le_of_not_le hn), Nat.sub_zero,
        List.take_of_length_le (by omega), List.drop_of_length_le (by omega), List.append_nil]
  · rw [strViewPrefix, hv.startsWith_eq (hv.sub literal 0 n), decide_eq_true_iff, hv.text_sub,
      List.drop_zero]
    exact List.take_prefix n _
  · rw [hv.endsWith_eq (hv.suffix n), decide_eq_true_iff, StrView.text_suffix]
    exact List.drop_suffix _ _
  · rw [strViewPrefix, (hv.sub literal start n).equals_eq ((hv.suffix _).sub literal 0 n),
      decide_eq_true_iff, hv.text_sub, (hv.suffix _).text_sub, List.drop_zero,
      StrView.text_suffix]
    by_cases hs : start ≤ v.len
    · rw [Nat.sub_sub_self hs]
    · rw [Nat.sub_eq_zero_of_le (Nat.le_of_not_le hs), Nat.sub_zero,
        List.drop_of_length_le (by omega), List.drop_of_length_le (by omega)]
  · rw [strViewPrefix, hv.startsWith_eq hw, (hv.sub literal 0 w.len).equals_eq hw,
      decide_eq_decide, List.prefix_iff_eq_take, w.length_text, hv.text_sub, List.drop_zero,
      eq_comm]
  · rw [hv.endsWith_eq hw, (hv.suffix w.len).equals_eq hw, decide_eq_decide,
      List.suffix_iff_eq_drop, w.length_text, hlen, StrView.text_suffix, eq_comm]
  · rw [StrView.containsChar_eq, decide_eq_true_iff]
  · rw [StrView.containsChar_eq, hv.text_take, StrView.findChar_eq, decide_eq_false_iff_not]
    by_cases hc : c ∈ v.text mem
    · rw [List.mem_take_iff_idxOf_lt hc]
      exact lt_irrefl _
    · exact fun htake => hc (List.mem_of_mem_take htake)
  · intro hc
    rw [StrView.containsChar_eq, decide_eq_true_iff] at hc
    have hlt := List.idxOf_lt_length_iff.mpr hc
    have hrest : ((v.text mem).drop ((v.text mem).idxOf c + 1)).length ≤ v.len := by
      rw [List.length_drop]
      omega
    have hcut := List.drop_eq_getElem_cons hlt
    rw [List.getElem_idxOf] at hcut
    rw [hv.text_take, hv.text_sub, StrView.findChar_eq, List.take_of_length_le hrest, ← hcut,
      List.take_append_drop]

/-- Two words and the space between them. -/
theorem str_view_cut_words :
    strViewFindChar (Cells.write (fun _ => 0) 16 [97, 32, 98]) ⟨16, 3⟩ 32 = 1 ∧
      StrView.text ⟨16, 3⟩ (Cells.write (fun _ => 0) 16 [97, 32, 98]) =
        (strViewPrefix 8 ⟨16, 3⟩ 1).text (Cells.write (fun _ => 0) 16 [97, 32, 98]) ++ 32 ::
          (strViewSub 8 ⟨16, 3⟩ 2 3).text (Cells.write (fun _ => 0) 16 [97, 32, 98]) := by
  have hfind : strViewFindChar (Cells.write (fun _ => 0) 16 [97, 32, 98]) ⟨16, 3⟩ 32 = 1 := by
    decide
  obtain ⟨-, -, hchar⟩ := str_view_cut (v := ⟨16, 3⟩) ⟨by decide, by decide⟩
    (Cells.write (fun _ => 0) 16 [97, 32, 98]) 8
  obtain ⟨-, -, hcut⟩ := hchar 32
  rw [hfind] at hcut
  exact ⟨hfind, hcut (by decide)⟩

end CanonC
