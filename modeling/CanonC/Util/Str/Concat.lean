import CanonC.Toolkit.Frame
import CanonC.Util.Str.Cut

/-!
# Cutting a string and putting it together again

The parts of a view of a string, written out as strings of their own and concatenated, give
the string, whatever the cut. No byte outside the buffers used is changed on the way, and a
destination without room for the terminator is left as it is.
-/

namespace CanonC

open Toolkit

variable {mem mem' : Memory} {p q n size : Nat} {s t : CString} {v : StrView} {rs : List Span}

/-- Regions apart do not overlap. -/
theorem memRegionsOverlap_of_apart {a b : Nat} (h : Span.Apart ⟨a, n⟩ ⟨b, n⟩) :
    memRegionsOverlap a b n = false :=
  memRegionsOverlap_eq_false.mpr h

/-- A copy between regions apart writes the bytes read. -/
theorem memCopyAt_of_apart {dest src : Nat} (hdest : dest ≠ 0) (hsrc : src ≠ 0)
    (h : Span.Apart ⟨dest, n⟩ ⟨src, n⟩) :
    memCopyAt mem dest src n = .ok (Cells.write mem dest (Cells.read mem src n)) := by
  rw [memCopyAt]
  by_cases hn : n = 0
  · rw [if_pos (.inr (.inr hn)), hn, Cells.read_zero, Cells.write_nil]
  · rw [if_neg (by omega), memRegionsOverlap_of_apart h]
    rfl

/-- A string apart from what has changed still lies there. -/
theorem LiesAt.frame (h : LiesAt mem p s) (hframe : Frame rs mem mem')
    (hapart : ∀ r ∈ rs, Span.Apart ⟨p, s.object.length⟩ r) : LiesAt mem' p s :=
  ⟨h.ne_zero, h.fits, (hframe.read hapart).trans h.read_eq⟩

/-- A string lies where its bytes have been written. -/
theorem liesAt_write (mem : Memory) (hq : q ≠ 0) (hfits : q + s.object.length ≤ usizeSize) :
    LiesAt (Cells.write mem q s.object) q s :=
  ⟨hq, hfits, Cells.read_write_self⟩

/-- Adding the terminator to a length does not wrap. -/
theorem usizeAdd_strlen (s : CString) : usizeAdd s.bytes.length 1 = s.object.length := by
  have hlen := s.length_lt
  have hmax := usizeMax_succ
  rw [usizeAdd_of_lt (by omega), CString.length_object]

/-- `str_copy_into` writes the string where there is room for it. -/
theorem LiesAt.strCopyInto_eq (h : LiesAt mem p s) (hq : q ≠ 0)
    (hapart : Span.Apart ⟨q, size⟩ ⟨p, s.object.length⟩) :
    strCopyInto mem q size p =
      .ok (if s.object.length ≤ size then (true, Cells.write mem q s.object)
        else (false, mem)) := by
  have hlen := s.length_object
  rw [strCopyInto, decide_eq_true hq, requireMsg_true, ok_bind, decide_eq_true h.ne_zero,
    requireMsg_true, ok_bind]
  split
  · rw [if_neg (by omega)]
  · rw [h.strLenAt_eq, ok_bind, usizeAdd_strlen]
    by_cases hfits : s.object.length ≤ size
    · rw [if_neg (Nat.not_lt.mpr hfits), if_pos hfits,
        memCopyAt_of_apart hq h.ne_zero (hapart.part le_rfl (Nat.add_le_add_left hfits q)),
        ok_bind, h.read_eq]
    · rw [if_pos (Nat.lt_of_not_le hfits), if_neg hfits]

/-- The bytes of two strings one behind the other. -/
def CString.append (s t : CString) (h : s.bytes.length + t.bytes.length < usizeMax) : CString where
  bytes := s.bytes ++ t.bytes
  noTerminator b hb := (List.mem_append.mp hb).elim (s.noTerminator b) (t.noTerminator b)
  length_lt := by rwa [List.length_append]

/-- `str_concat_into` writes the two strings where there is room for them. -/
theorem LiesAt.strConcatInto_eq {a b : Nat} (ha : LiesAt mem a s) (hb : LiesAt mem b t) (hq : q ≠ 0)
    (hlt : s.bytes.length + t.bytes.length < usizeMax)
    (haparta : Span.Apart ⟨q, size⟩ ⟨a, s.object.length⟩)
    (hapartb : Span.Apart ⟨q, size⟩ ⟨b, t.object.length⟩) :
    strConcatInto mem q size a b =
      .ok (if (s.append t hlt).object.length ≤ size then
        (true, Cells.write mem q (s.append t hlt).object) else (false, mem)) := by
  have hlen := s.length_object
  have hlen' := t.length_object
  have hmax := usizeMax_succ
  have hboth : (s.append t hlt).object.length = s.bytes.length + t.object.length := by
    rw [CString.object, CString.append, CString.object]
    simp only [List.length_append]
    omega
  have hsum : usizeAdd (usizeAdd s.bytes.length t.bytes.length) 1 =
      s.bytes.length + t.object.length := by
    rw [usizeAdd_of_lt (show s.bytes.length + t.bytes.length < usizeSize by omega),
      usizeAdd_of_lt (by omega)]
    omega
  rw [strConcatInto, decide_eq_true hq, requireMsg_true, ok_bind, decide_eq_true ha.ne_zero,
    requireMsg_true, ok_bind, decide_eq_true hb.ne_zero, requireMsg_true, ok_bind, hboth]
  split
  · rw [if_neg (by omega)]
  · rw [ha.strLenAt_eq, ok_bind, hb.strLenAt_eq, ok_bind, hsum, usizeAdd_strlen]
    by_cases hfits : s.bytes.length + t.object.length ≤ size
    · have hfirst : Span.Apart ⟨q, s.bytes.length⟩ ⟨a, s.bytes.length⟩ :=
        ((haparta.part le_rfl (by dsimp only; omega)).symm.part le_rfl (by dsimp only; omega)).symm
      have hsecond : Span.Apart ⟨q + s.bytes.length, t.object.length⟩ ⟨b, t.object.length⟩ :=
        hapartb.part (by dsimp only; omega) (by dsimp only; omega)
      have hkept : LiesAt (Cells.write mem q s.bytes) b t := by
        refine hb.frame (.write mem (r := ⟨q, size⟩) le_rfl (by dsimp only; omega)) ?_
        rintro r hr
        rw [List.mem_singleton.mp hr]
        exact hapartb.symm
      rw [if_neg (by omega), if_pos hfits, memCopyAt_of_apart hq ha.ne_zero hfirst, ok_bind,
        ha.read_bytes, memCopyAt_of_apart (by omega) hb.ne_zero hsecond, ok_bind, hkept.read_eq]
      have hwrite := @Cells.write_write_append _ mem q s.bytes t.object [] (Nat.zero_le _)
      rw [List.append_nil] at hwrite
      rw [hwrite, CString.object, CString.object, CString.append, List.append_assoc]
    · rw [if_pos (by omega), if_neg hfits]

/-- Behind a cut lies the end of the length left. -/
theorem drop_length_sub_sub (xs : List UInt8) (n : Nat) :
    xs.drop (xs.length - (xs.length - n)) = xs.drop n := by
  by_cases hn : n ≤ xs.length
  · rw [Nat.sub_sub_self hn]
  · rw [Nat.sub_eq_zero_of_le (Nat.le_of_not_le hn), Nat.sub_zero, List.drop_length,
      List.drop_of_length_le (Nat.le_of_not_le hn)]

/-- Some of the bytes of a string, in their order. -/
def CString.part (s : CString) (xs : List UInt8) (h : xs.Sublist s.bytes) : CString where
  bytes := xs
  noTerminator b hb := s.noTerminator b (h.subset hb)
  length_lt := h.length_le.trans_lt s.length_lt

/-- `str_view_to_cstr` writes the bytes of the view and a terminator where there is room. -/
theorem StrView.Valid.toCstr_eq (hv : v.Valid) (mem : Memory) (hq : q ≠ 0)
    (hapart : 0 < v.len → Span.Apart ⟨q, size⟩ ⟨v.ptr, v.len⟩) :
    strViewToCstr mem v q size =
      .ok (if v.len < size then (true, Cells.write mem q (v.text mem ++ [0]))
        else (false, mem)) := by
  rw [strViewToCstr, decide_eq_true hq, requireMsg_true, ok_bind]
  by_cases hroom : size ≤ v.len
  · rw [if_pos hroom, if_neg (Nat.not_lt.mpr hroom)]
  · have hlt : v.len < size := Nat.lt_of_not_le hroom
    have hmem : (if v.len > 0 then memCopyAt mem q v.ptr v.len else .ok mem) =
        .ok (Cells.write mem q (v.text mem)) := by
      by_cases hpos : v.len > 0
      · rw [if_pos hpos, memCopyAt_of_apart hq (hv.ne_zero hpos)
          ((hapart hpos).part le_rfl (Nat.add_le_add_left hlt.le q)), text]
      · rw [if_neg hpos, text, Nat.eq_zero_of_not_pos hpos, Cells.read_zero, Cells.write_nil]
    have hend := Cells.update_write mem q (v.text mem) 0
    rw [v.length_text] at hend
    rw [if_neg hroom, if_pos hlt, hmem, ok_bind, hend]

/-- A part of a string written out is a string of its own. -/
theorem StrView.Valid.toCstr_liesAt (hv : v.Valid) (hq : q ≠ 0) (hfits : q + size ≤ usizeSize)
    (hapart : 0 < v.len → Span.Apart ⟨q, size⟩ ⟨v.ptr, v.len⟩) (ht : v.text mem = t.bytes)
    (hlt : t.bytes.length < size) :
    ∃ mem', strViewToCstr mem v q size = .ok (true, mem') ∧ LiesAt mem' q t ∧
      Frame [⟨q, size⟩] mem mem' := by
  have hlen := t.length_object
  have hviewed := v.length_text mem
  rw [ht] at hviewed
  have heq := hv.toCstr_eq mem hq hapart
  rw [if_pos (by omega), ht] at heq
  refine ⟨_, heq, liesAt_write mem hq (by omega), .write mem le_rfl ?_⟩
  change q + t.object.length ≤ q + size
  omega

/-- What is written to a buffer leaves a string apart from it alone. -/
theorem LiesAt.kept (h : LiesAt mem p s) (hframe : Frame [⟨q, size⟩] mem mem')
    (hapart : Span.Apart ⟨p, s.object.length⟩ ⟨q, size⟩) : LiesAt mem' p s := by
  refine h.frame hframe fun r hr => ?_
  rw [List.mem_singleton.mp hr]
  exact hapart

/-- The characters in front of a cut written out. -/
theorem LiesAt.prefix_written (hs : LiesAt mem p s) (literal n : Nat)
    (hapart : Span.Apart ⟨p, s.object.length⟩ ⟨q, size⟩) (hq : q ≠ 0)
    (hfits : q + size ≤ usizeSize) (ht : t.bytes = s.bytes.take n)
    (hroom : t.bytes.length < size) :
    ∃ mem', strViewToCstr mem (strViewPrefix literal ⟨p, s.bytes.length⟩ n) q size =
        .ok (true, mem') ∧ LiesAt mem' q t ∧ Frame [⟨q, size⟩] mem mem' := by
  have hobject := s.length_object
  have htext : (strViewPrefix literal ⟨p, s.bytes.length⟩ n).text mem = t.bytes := by
    rw [ht, hs.valid.text_take, hs.text_eq]
  refine (hs.valid.sub literal 0 n).toCstr_liesAt hq hfits (fun hpos => ?_) htext hroom
  obtain ⟨hlo, hhi⟩ := hs.valid.sub_within hpos
  exact (hapart.part hlo (by dsimp only at hhi ⊢; omega)).symm

/-- The characters behind a cut written out. -/
theorem LiesAt.suffix_written (hs : LiesAt mem p s) (n : Nat)
    (hapart : Span.Apart ⟨p, s.object.length⟩ ⟨q, size⟩) (hq : q ≠ 0)
    (hfits : q + size ≤ usizeSize) (ht : t.bytes = s.bytes.drop n)
    (hroom : t.bytes.length < size) :
    ∃ mem', strViewToCstr mem (strViewSuffix ⟨p, s.bytes.length⟩ (s.bytes.length - n)) q size =
        .ok (true, mem') ∧ LiesAt mem' q t ∧ Frame [⟨q, size⟩] mem mem' := by
  have hobject := s.length_object
  obtain ⟨v, hview⟩ : ∃ v : StrView, v = ⟨p, s.bytes.length⟩ := ⟨_, rfl⟩
  have hv : v.Valid := hview ▸ hs.valid
  have htext : (strViewSuffix v (s.bytes.length - n)).text mem = t.bytes := by
    rw [ht, StrView.text_suffix, hview, hs.text_eq, drop_length_sub_sub]
  rw [← hview]
  refine (hv.suffix _).toCstr_liesAt hq hfits (fun _ => ?_) htext hroom
  obtain ⟨hlo, hhi⟩ := v.suffix_within (s.bytes.length - n)
  rw [hview] at hlo hhi ⊢
  exact (hapart.part hlo (by dsimp only at hhi ⊢; omega)).symm

/-- A string cut at any index, the parts written out and concatenated, gives the string in the
destination, just as copying it does, or leaves the destination alone when it has no room for
the string and its terminator. Nothing but the buffers written to is changed. -/
theorem str_cut_concat (hs : LiesAt mem p s) (n literal : Nat) {q₁ q₂ dest size₁ size₂ : Nat}
    (hapart : [⟨p, s.object.length⟩, ⟨q₁, size₁⟩, ⟨q₂, size₂⟩, ⟨dest, size⟩].Pairwise Span.Apart)
    (hq₁ : q₁ ≠ 0) (hq₂ : q₂ ≠ 0) (hdest : dest ≠ 0) (hfits₁ : q₁ + size₁ ≤ usizeSize)
    (hfits₂ : q₂ + size₂ ≤ usizeSize) (hfits : dest + size ≤ usizeSize)
    (hroom₁ : min n s.bytes.length < size₁) (hroom₂ : s.bytes.length - n < size₂) :
    ∃ v mem₁ mem₂ mem₃, strViewFrom mem p = some v ∧
      strViewToCstr mem (strViewPrefix literal v n) q₁ size₁ = .ok (true, mem₁) ∧
      strViewToCstr mem₁ (strViewSuffix v (v.len - n)) q₂ size₂ = .ok (true, mem₂) ∧
      strConcatInto mem₂ dest size q₁ q₂ = .ok (decide (s.object.length ≤ size), mem₃) ∧
      strCopyInto mem₂ dest size p = .ok (decide (s.object.length ≤ size), mem₃) ∧
      LiesAt mem₃ p s ∧ Frame [⟨q₁, size₁⟩, ⟨q₂, size₂⟩] mem mem₂ ∧
      Frame [⟨dest, size⟩] mem₂ mem₃ ∧
      (s.object.length ≤ size → LiesAt mem₃ dest s ∧ strEquals mem₃ p dest = .ok true) ∧
      (size < s.object.length → mem₃ = mem₂) := by
  simp only [List.pairwise_cons, List.mem_cons, List.not_mem_nil, or_false, forall_eq_or_imp,
    forall_eq, IsEmpty.forall_iff, implies_true, List.Pairwise.nil, and_true] at hapart
  obtain ⟨⟨hp₁, hp₂, hpd⟩, ⟨h₁₂, h₁d⟩, h₂d⟩ := hapart
  have hobject := s.length_object
  have hlt := s.length_lt
  obtain ⟨t₁, ht₁⟩ : ∃ t : CString, t.bytes = s.bytes.take n :=
    ⟨s.part _ (List.take_sublist n s.bytes), rfl⟩
  obtain ⟨t₂, ht₂⟩ : ∃ t : CString, t.bytes = s.bytes.drop n :=
    ⟨s.part _ (List.drop_sublist n s.bytes), rfl⟩
  have hlen₁ := t₁.length_object
  have hlen₂ := t₂.length_object
  rw [ht₁, List.length_take] at hlen₁
  rw [ht₂, List.length_drop] at hlen₂
  obtain ⟨mem₁, hcut₁, hlies₁, hframe₁⟩ := hs.prefix_written literal n hp₁ hq₁ hfits₁ ht₁
    (by rw [ht₁, List.length_take]; exact hroom₁)
  have hs₁ := hs.kept hframe₁ hp₁
  obtain ⟨mem₂, hcut₂, hlies₂, hframe₂⟩ := hs₁.suffix_written n hp₂ hq₂ hfits₂ ht₂
    (by rw [ht₂, List.length_drop]; exact hroom₂)
  have hs₂ := hs₁.kept hframe₂ hp₂
  have hlies₁' := hlies₁.kept hframe₂ (h₁₂.part le_rfl (by dsimp only; omega))
  have hjoined : t₁.bytes.length + t₂.bytes.length < usizeMax := by
    rw [ht₁, ht₂, List.length_take, List.length_drop]
    omega
  have hconcat := hlies₁'.strConcatInto_eq hlies₂ hdest hjoined
    (h₁d.part le_rfl (by dsimp only; omega)).symm (h₂d.part le_rfl (by dsimp only; omega)).symm
  have hcopy := hs₂.strCopyInto_eq hdest hpd.symm
  have hsame : (t₁.append t₂ hjoined).object = s.object := by
    change t₁.bytes ++ t₂.bytes ++ [0] = s.bytes ++ [0]
    rw [ht₁, ht₂, List.take_append_drop]
  rw [hsame] at hconcat
  have hframe : Frame [⟨q₁, size₁⟩, ⟨q₂, size₂⟩] mem mem₂ :=
    (hframe₁.mono (by simp)).trans (hframe₂.mono (by simp))
  by_cases hfit : s.object.length ≤ size
  · rw [if_pos hfit] at hconcat hcopy
    have hframe₃ : Frame [⟨dest, size⟩] mem₂ (Cells.write mem₂ dest s.object) :=
      .write mem₂ le_rfl (Nat.add_le_add_left hfit dest)
    have hs₃ := hs₂.kept hframe₃ hpd
    have hnew : LiesAt (Cells.write mem₂ dest s.object) dest s := liesAt_write mem₂ hdest (by omega)
    refine ⟨_, mem₁, mem₂, _, hs.strViewFrom_eq, hcut₁, hcut₂, ?_, ?_, hs₃, hframe, hframe₃,
      fun _ => ⟨hnew, ?_⟩, fun hshort => absurd hfit (Nat.not_le.mpr hshort)⟩
    · rw [hconcat, decide_eq_true hfit]
    · rw [hcopy, decide_eq_true hfit]
    · rw [hs₃.strEquals_eq hnew, decide_eq_true rfl]
  · rw [if_neg hfit] at hconcat hcopy
    refine ⟨_, mem₁, mem₂, mem₂, hs.strViewFrom_eq, hcut₁, hcut₂, ?_, ?_, hs₂, hframe,
      .refl _ mem₂, fun h => absurd h hfit, fun _ => rfl⟩
    · rw [hconcat, decide_eq_false hfit]
    · rw [hcopy, decide_eq_false hfit]

/-- A word cut behind its first letter. -/
theorem str_cut_concat_letter : ∃ mem' : Memory,
    LiesAt mem' 64 ⟨[97, 98, 99], by simp, by decide⟩ ∧
      strEquals mem' 16 64 = .ok true := by
  have hword : LiesAt (Cells.write (fun _ => 0) 16 [97, 98, 99]) 16
      ⟨[97, 98, 99], by simp, by decide⟩ := ⟨by decide, by decide, by decide⟩
  obtain ⟨-, -, -, mem', -, -, -, -, -, -, -, -, hfit, -⟩ := @str_cut_concat _ _ 4 _ hword 1 8
    32 48 64 4 4
    (by simp [Span.Apart, CString.object])
    (by decide) (by decide) (by decide) (by decide) (by decide) (by decide) (by decide) (by decide)
  exact ⟨mem', hfit (by decide)⟩

end CanonC
