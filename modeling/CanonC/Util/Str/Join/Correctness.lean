import CanonC.Util.Str.Join.Model
import Mathlib.Data.Set.List

/-!
# What joining writes

The test before each part looks at the part, the separator behind it and the terminator.
Over all parts this is the same as a test of the whole length, because what is written in
front of a part that fits leaves room for a terminator.
-/

namespace CanonC

variable {sp dest : List UInt8} {count : Nat}

/-- The bytes of a part, none for a NULL one. -/
def partBytes (part : Option CString) : List UInt8 := part.elim [] CString.bytes

/-- The parts with the separator between them. -/
def joined (sp : List UInt8) (parts : List (Option CString)) : List UInt8 :=
  sp.intercalate (parts.map partBytes)

/-- Separate objects of these sizes fit into the address space, whose first byte is NULL. -/
def SeparateObjects (sizes : List Nat) : Prop := sizes.sum ≤ usizeMax

instance (sizes : List Nat) : Decidable (SeparateObjects sizes) :=
  inferInstanceAs (Decidable (_ ≤ _))

/-- What is written behind a part: the separator, unless the part is the last one. -/
def gapBehind (sp : List UInt8) (parts : List (Option CString)) : List UInt8 :=
  if parts = [] then [] else sp

/-- A gap that is not empty is the separator. -/
theorem gapBehind_of_pos {parts : List (Option CString)} (h : 0 < (gapBehind sp parts).length) :
    gapBehind sp parts = sp := by
  rw [gapBehind] at h ⊢
  split_ifs at h ⊢ with hnil
  · exact absurd h (Nat.lt_irrefl 0)
  · rfl

/-- The first part, the gap behind it and the other parts. -/
theorem joined_cons (sp : List UInt8) (part : Option CString) (parts : List (Option CString)) :
    joined sp (part :: parts) = partBytes part ++ gapBehind sp parts ++ joined sp parts := by
  rw [joined, List.map_cons, gapBehind]
  by_cases h : parts = []
  · rw [if_pos h, h]
    simp [joined]
  · rw [if_neg h, List.intercalate_cons_of_ne_nil (by simpa using h)]
    rfl

/-- A gap is no longer than the separator. -/
theorem length_gapBehind_le (sp : List UInt8) (parts : List (Option CString)) :
    (gapBehind sp parts).length ≤ sp.length := by
  rw [gapBehind]
  split
  · exact Nat.zero_le _
  · exact Nat.le_refl _

/-- The loop asks whether there is something to write behind the part by its index. -/
theorem gapBehind_pos_iff {parts : List (Option CString)} {i : Nat}
    (hcount : i + parts.length + 1 = count) (hfits : count < usizeSize) :
    usizeAdd i 1 < count ∧ 0 < sp.length ↔ 0 < (gapBehind sp parts).length := by
  rw [usizeAdd_of_lt (by omega), gapBehind]
  cases parts with
  | nil =>
    rw [List.length_nil] at hcount
    rw [if_pos rfl]
    exact iff_of_false (by omega) (Nat.lt_irrefl 0)
  | cons part parts =>
    rw [List.length_cons] at hcount
    rw [if_neg (List.cons_ne_nil part parts)]
    exact and_iff_right (by omega)

/-- One round writes a part and what is behind it, or there is no room for them and a
terminator. -/
theorem strJoinLoop_some {part : CString} {parts : List (Option CString)} {i : Nat}
    {done slots : List UInt8} (hcount : i + parts.length + 1 = count) (hfits : count < usizeSize)
    (hspace : SeparateObjects [(done ++ slots).length, part.bytes.length + 1, sp.length + 1])
    (hslot : 0 < slots.length) :
    strJoinLoop sp count (some part :: parts) i done.length (done ++ slots) =
      if slots.length < part.bytes.length + (gapBehind sp parts).length + 1 then
        .ok (false, (done ++ slots).set 0 0)
      else strJoinLoop sp count parts (i + 1) (done ++ part.bytes ++ gapBehind sp parts).length
        (done ++ part.bytes ++ gapBehind sp parts ++
          slots.drop (part.bytes.length + (gapBehind sp parts).length)) := by
  have hmax := usizeMax_succ
  simp only [SeparateObjects, List.sum_cons, List.sum_nil, List.length_append] at hspace
  have hgap := length_gapBehind_le sp parts
  have hneeded : (if 0 < (gapBehind sp parts).length then
      usizeAdd (usizeAdd part.bytes.length 1) sp.length else usizeAdd part.bytes.length 1) =
        part.bytes.length + (gapBehind sp parts).length + 1 := by
    rw [usizeAdd_of_lt (show part.bytes.length + 1 < usizeSize by omega)]
    split
    · next hpos =>
      rw [gapBehind_of_pos hpos, usizeAdd_of_lt (by omega)]
      omega
    · omega
  have htotal : usizeAdd done.length (part.bytes.length + (gapBehind sp parts).length + 1) =
      done.length + (part.bytes.length + (gapBehind sp parts).length + 1) :=
    usizeAdd_of_lt (by omega)
  simp only [strJoinLoop, strLen, gapBehind_pos_iff hcount hfits, hneeded, htotal,
    List.length_append]
  by_cases hroom : slots.length < part.bytes.length + (gapBehind sp parts).length + 1
  · have hwrite : writeElem (done ++ slots) 0 0 = .ok ((done ++ slots).set 0 0) := by
      rw [writeElem, if_pos (by rw [List.length_append]; omega)]
    rw [if_pos (by omega), if_pos hroom, hwrite, ok_bind]
  · have hpart := @copyElems_free _ done slots _ _ (List.prefix_refl part.bytes) (by omega)
    have hi : usizeAdd i 1 = i + 1 := usizeAdd_of_lt (by omega)
    have hpos : usizeAdd done.length part.bytes.length = (done ++ part.bytes).length := by
      rw [usizeAdd_of_lt (by omega), List.length_append]
    rw [if_neg (by omega), if_neg hroom, hpart, ok_bind, hi, hpos, ← List.drop_drop]
    by_cases hw : 0 < (gapBehind sp parts).length
    · rw [if_pos hw, gapBehind_of_pos hw]
      rw [gapBehind_of_pos hw] at hroom
      have hsep := @copyElems_free _ (done ++ part.bytes) (slots.drop part.bytes.length) _ _
        (List.prefix_refl sp) (by rw [List.length_drop]; omega)
      have hnext : usizeAdd (done ++ part.bytes).length sp.length =
          (done ++ part.bytes ++ sp).length := by
        rw [@List.length_append _ _ sp, usizeAdd_of_lt (by rw [List.length_append]; omega)]
      rw [hsep, ok_bind, hnext]
      simp only [List.length_append]
    · have hnil : gapBehind sp parts = [] := List.eq_nil_of_length_eq_zero (by omega)
      rw [if_neg hw, hnil, List.append_nil, List.length_nil, List.drop_zero]
      simp only [List.length_append, Nat.add_zero]

/-- The result of joining the parts that are left into the slots that are left. -/
structure Joins (sp : List UInt8) (parts : List (Option CString)) (done slots : List UInt8)
    (result : Bool × List UInt8) : Prop where
  /-- The flag tells whether there is no NULL part and there is room for a terminator. -/
  flag : result.1 = true ↔ none ∉ parts ∧ (joined sp parts).length < slots.length
  /-- A success writes the parts and the terminator. -/
  success : result.1 = true → result.2 = done ++ joined sp parts ++ 0 ::
    slots.drop ((joined sp parts).length + 1)
  /-- A failure writes the terminator in front. -/
  failure : result.1 = false → result.2.head? = some 0

/-- The loop joins the parts that are left. -/
theorem strJoinLoop_spec (hfits : count < usizeSize) (parts : List (Option CString)) :
    ∀ (i : Nat) (done slots : List UInt8), i + parts.length = count → 0 < slots.length →
      (∀ part, some part ∈ parts →
        SeparateObjects [(done ++ slots).length, part.bytes.length + 1, sp.length + 1]) →
      ∃ result, strJoinLoop sp count parts i done.length (done ++ slots) = .ok result ∧
        Joins sp parts done slots result := by
  induction parts with
  | nil =>
    intro i done slots _ hslot _
    obtain ⟨slot, slots, rfl⟩ := List.exists_cons_of_length_pos hslot
    refine ⟨(true, done ++ 0 :: slots), ?_, by simp [joined], ?_, nofun⟩
    · rw [strJoinLoop, writeElem_append rfl, ok_bind]
    · simp [joined]
  | cons part parts ih =>
    intro i done slots hcount hslot hspace
    have hpos : 0 < (done ++ slots).length := by
      rw [List.length_append]
      omega
    have hhead : ((done ++ slots).set 0 0).head? = some 0 := by
      rw [List.head?_eq_getElem?, List.getElem?_set_self hpos]
    cases part with
    | none =>
      refine ⟨(false, (done ++ slots).set 0 0), ?_, by simp, nofun, fun _ => hhead⟩
      rw [strJoinLoop, writeElem, if_pos hpos, ok_bind]
    | some part =>
      have hpart := hspace part List.mem_cons_self
      have hlen : (joined sp (some part :: parts)).length =
          part.bytes.length + (gapBehind sp parts).length + (joined sp parts).length := by
        rw [joined_cons, List.length_append, List.length_append]
        rfl
      rw [List.length_cons] at hcount
      rw [strJoinLoop_some (by omega) hfits hpart hslot]
      by_cases hroom : slots.length < part.bytes.length + (gapBehind sp parts).length + 1
      · rw [if_pos hroom]
        exact ⟨_, rfl, iff_of_false nofun (by rw [hlen]; omega), nofun, fun _ => hhead⟩
      · rw [if_neg hroom]
        have hsize : (done ++ part.bytes ++ gapBehind sp parts ++
            slots.drop (part.bytes.length + (gapBehind sp parts).length)).length =
            (done ++ slots).length := by
          simp only [List.length_append, List.length_drop]
          omega
        obtain ⟨result, hrun, hresult⟩ := ih (i + 1) (done ++ part.bytes ++ gapBehind sp parts)
          (slots.drop (part.bytes.length + (gapBehind sp parts).length)) (by omega)
          (by rw [List.length_drop]; omega)
          (by rw [hsize]; exact fun part' h => hspace part' (List.mem_cons_of_mem _ h))
        refine ⟨result, hrun, ?_, fun hflag => ?_, hresult.failure⟩
        · rw [hresult.flag, hlen, List.length_drop, List.mem_cons]
          refine and_congr (not_congr (by simp)) ?_
          omega
        · rw [hresult.success hflag, hlen, joined_cons, List.drop_drop]
          simp only [partBytes, Option.elim_some, List.append_assoc, Nat.add_assoc]

/-- `str_join` joins all parts from the front of the buffer. -/
theorem strJoin_spec {parts : List (Option CString)} {sep : Option CString}
    (hfits : parts.length < usizeSize) (hdest : 0 < dest.length)
    (hspace : ∀ part, some part ∈ parts → SeparateObjects
      [dest.length, part.bytes.length + 1, (sep.getD .empty).bytes.length + 1]) :
    ∃ result, strJoin (some dest) parts sep = .ok result ∧
      Joins (sep.getD .empty).bytes parts [] dest result := by
  obtain ⟨result, hrun, hresult⟩ :=
    strJoinLoop_spec hfits parts 0 [] dest (Nat.zero_add _) hdest hspace
  refine ⟨result, ?_, hresult⟩
  rw [strJoin, requireMsg_eq_ok.mpr (decide_eq_true hdest), ok_bind]
  cases parts with
  | nil => rw [if_pos List.length_nil, ← hrun, strJoinLoop]; rfl
  | cons part parts => rw [if_neg (show ¬ (part :: parts).length = 0 from nofun)]; exact hrun

/-- The length of the joined string is that of the parts and of the separators between them. -/
theorem length_joined (sp : List UInt8) (parts : List (Option CString)) :
    (joined sp parts).length =
      (parts.map fun part => (partBytes part).length).sum + (parts.length - 1) * sp.length := by
  induction parts with
  | nil => simp [joined]
  | cons part parts ih =>
    rw [joined_cons, List.length_append, List.length_append, ih, List.map_cons, List.sum_cons,
      List.length_cons, Nat.add_sub_cancel, gapBehind]
    cases parts with
    | nil => simp
    | cons part' parts =>
      rw [if_neg (List.cons_ne_nil _ _), List.length_cons, Nat.add_sub_cancel, Nat.succ_mul]
      omega

/-- Byte lists that are short and have no terminator are strings. -/
theorem exists_strings {ws : List (List UInt8)}
    (h : ∀ w ∈ ws, (∀ b ∈ w, b ≠ 0) ∧ w.length < usizeMax) :
    ∃ strings : List CString, strings.map CString.bytes = ws := by
  have hrange : ws ∈ Set.range (List.map CString.bytes) := by
    rw [Set.range_list_map]
    exact fun w hw => ⟨⟨w, (h w hw).1, (h w hw).2⟩, rfl⟩
  exact hrange

/-- A string is read where it starts in a buffer. -/
theorem cStringAt_object (pre post : List UInt8) (s : CString) :
    cStringAt (pre ++ s.object ++ post) pre.length = some s := by
  have hbytes : ((pre ++ s.object ++ post).drop pre.length).takeWhile (· ≠ 0) = s.bytes := by
    rw [List.append_assoc, List.drop_left, CString.object, List.append_assoc,
      List.takeWhile_append_of_pos fun b hb => decide_eq_true (s.noTerminator b hb)]
    simp
  have hmem : 0 ∈ (pre ++ s.object ++ post).drop pre.length := by
    simp [CString.object, List.append_assoc]
  simp only [cStringAt, hbytes]
  rw [dif_pos ⟨hmem, s.length_lt⟩]

/-- Where no part is NULL the joined string is the bytes of the parts with the separator between. -/
theorem joined_map_some (sp : List UInt8) (ws : List CString) :
    joined sp (ws.map some) = sp.intercalate (ws.map CString.bytes) := by
  rw [joined, List.map_map]
  rfl

/-- There is no terminator in the joined string. -/
theorem ne_zero_of_mem_joined (sep : CString) (parts : List (Option CString)) :
    ∀ b ∈ joined sep.bytes parts, b ≠ 0 := by
  induction parts with
  | nil => exact fun b hb => absurd hb List.not_mem_nil
  | cons part parts ih =>
    intro b hb
    rw [joined_cons, List.mem_append, List.mem_append] at hb
    rcases hb with (hpart | hgap) | hrest
    · cases part with
      | none => exact absurd hpart List.not_mem_nil
      | some part => exact part.noTerminator b hpart
    · rw [gapBehind] at hgap
      split at hgap
      · exact absurd hgap List.not_mem_nil
      · exact sep.noTerminator b hgap
    · exact ih b hrest

/-- A successful join leaves the joined string at the front of the buffer. -/
theorem Joins.string {sep : CString} {parts : List (Option CString)} {dest : List UInt8}
    {result : Bool × List UInt8} (h : Joins sep.bytes parts [] dest result)
    (hflag : result.1 = true) (hdest : dest.length ≤ usizeMax) :
    ∃ s : CString, s.bytes = joined sep.bytes parts ∧ cStringAt result.2 0 = some s := by
  have hroom := (h.flag.mp hflag).2
  refine ⟨⟨joined sep.bytes parts, ne_zero_of_mem_joined sep parts, by omega⟩, rfl, ?_⟩
  rw [h.success hflag, List.nil_append, List.append_cons]
  exact cStringAt_object [] _ ⟨joined sep.bytes parts, _, _⟩

end CanonC
