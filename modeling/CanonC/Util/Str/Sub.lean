import CanonC.Core.Memory
import CanonC.Core.Slice
import CanonC.Util.Str.View

/-!
# Three ways to take a part of a string

An owned part compares the sum of its indices with the length, and this sum may wrap; a
view compares its length with what is left, and a slice its end with the length. So they
have the same characters exactly when the sum does not wrap.
-/

namespace CanonC

open Toolkit

/-- `mem_alloc` with the answers of `malloc`, an object for a size or NULL. -/
def memAlloc (malloc : Nat → Option (List UInt8)) (size : Nat) : Option (List UInt8) :=
  if size = 0 then none else malloc size

/-- `str_alloc_sub`: the object allocated, if there is one. -/
def strAllocSub (malloc : Nat → Option (List UInt8)) (s : Option CString) (start len : Nat) :
    Except String (Option (List UInt8)) :=
  match s with
  | none => .error "str_alloc_sub: s is NULL"
  | some s =>
    let sLen := strLen s
    if start ≥ sLen then .ok none
    else
      let l := if usizeAdd start len > sLen then usizeSub sLen start else len
      match memAlloc malloc (usizeAdd l 1) with
      | none => .ok none
      | some result => do
        let result ← copyElems result 0 (s.object.drop start) l
        let result ← writeElem result l 0
        .ok (some result)

/-- The characters of a string from `start` on, at most `len` of them. -/
def subChars (s : CString) (start len : Nat) : List UInt8 :=
  (s.bytes.take (min (start + len) s.bytes.length)).drop start

/-- What `malloc` returns is an object of the size asked for. -/
def GivesObjects (malloc : Nat → Option (List UInt8)) : Prop :=
  ∀ size object, malloc size = some object → object.length = size

/-- The string lies in memory at an address. -/
structure LiesAt (mem : Memory) (p : Nat) (s : CString) : Prop where
  /-- The address is not NULL. -/
  ne_zero : p ≠ 0
  /-- The terminator has an address. -/
  fits : p + s.object.length ≤ usizeSize
  /-- The bytes and the terminator. -/
  read_eq : Cells.read mem p s.object.length = s.object

variable {malloc : Nat → Option (List UInt8)} {mem : Memory} {s : CString} {p start len : Nat}

/-- The length of the characters that are left in range. -/
theorem length_subChars (s : CString) (start len : Nat) :
    (subChars s start len).length = min (start + len) s.bytes.length - start := by
  rw [subChars, List.length_drop, List.length_take]
  omega

/-- A part of a string at an address is at the address of its first character. -/
theorem LiesAt.read_sub (h : LiesAt mem p s) {n : Nat}
    (hn : n = min (start + len) s.bytes.length - start) :
    Cells.read mem (p + start) n = subChars s start len := by
  have hle : min (start + len) s.bytes.length ≤ s.object.length := by
    rw [CString.length_object]
    omega
  have hfront : Cells.read mem p (min (start + len) s.bytes.length) =
      s.bytes.take (min (start + len) s.bytes.length) := by
    rw [← Cells.take_read hle, h.read_eq, CString.object,
      List.take_append_of_le_length (Nat.min_le_right _ _)]
  rw [hn, ← Cells.drop_read, hfront, subChars]

/-- The length of a string in memory is found. -/
theorem LiesAt.strlen_eq (h : LiesAt mem p s) : strlen mem p = some s.bytes.length := by
  have hpos := Nat.pos_of_ne_zero h.ne_zero
  have hprefix : s.object <+: Cells.read mem p (usizeSize - p) := by
    rw [← h.read_eq, ← Cells.take_read (show s.object.length ≤ usizeSize - p by
      have := h.fits
      omega)]
    exact List.take_prefix _ _
  obtain ⟨rest, hrest⟩ := hprefix
  have hmem : 0 ∈ Cells.read mem p (usizeSize - p) := by
    rw [← hrest, CString.object]
    simp
  rw [CanonC.strlen_eq mem hpos, cString, if_pos hmem, ← hrest, CString.object, List.append_assoc,
    List.takeWhile_append_of_pos fun b hb => decide_eq_true (s.noTerminator b hb)]
  simp

/-- A part taken as a view or as a slice has the characters. -/
theorem LiesAt.views (h : LiesAt mem p s) (literal : Nat) (hstart : start < strLen s) :
    ∃ v, strViewFrom mem p = some v ∧
      Cells.read mem (strViewSub literal v start len).ptr (strViewSub literal v start len).len =
        subChars s start len ∧
      Cells.read mem (strSlice ⟨p, strLen s⟩ start (min (start + len) usizeMax)).ptr
        (strSlice ⟨p, strLen s⟩ start (min (start + len) usizeMax)).len = subChars s start len := by
  have hmax := usizeMax_succ
  have hlength := s.length_lt
  have hbytes : s.bytes.length = strLen s := rfl
  refine ⟨⟨p, strLen s⟩, ?_, ?_, ?_⟩
  · rw [strViewFrom, if_neg h.ne_zero, h.strlen_eq, Option.map_some, hbytes]
  · rw [strViewSub, if_neg (Nat.not_le.mpr hstart), strViewFromLen]
    dsimp only
    rw [usizeSub_of_le hstart.le (by omega)]
    apply h.read_sub
    split <;> omega
  · have hne : ¬ (p = 0 ∨ start ≥ strLen s) := by
      have := h.ne_zero
      omega
    have hend : (if min (start + len) usizeMax > strLen s then strLen s
        else min (start + len) usizeMax) = min (start + len) s.bytes.length := by
      split <;> omega
    have hslice : strSlice ⟨p, strLen s⟩ start (min (start + len) usizeMax) =
        if start ≥ min (start + len) s.bytes.length then ⟨0, 0⟩
        else ⟨p + start, min (start + len) s.bytes.length - start⟩ := by
      rw [strSlice, viewSlice, if_neg hne]
      simp only [hend, Nat.mul_one]
    rw [hslice]
    by_cases hlen : start ≥ min (start + len) s.bytes.length
    · rw [if_pos hlen, subChars, List.drop_of_length_le]
      · rfl
      · rw [List.length_take]
        omega
    · rw [if_neg hlen]
      exact h.read_sub rfl

/-- Without a wrapped sum an owned part has the characters and a terminator. -/
theorem strAllocSub_of_lt (hobjects : GivesObjects malloc) (hstart : start < strLen s)
    (hsum : start + len < usizeSize) {object : List UInt8}
    (hsupply : malloc ((subChars s start len).length + 1) = some object) :
    strAllocSub malloc (some s) start len = .ok (some (subChars s start len ++ [0])) := by
  have hmax := usizeMax_succ
  have hlength := s.length_lt
  have hchars := length_subChars s start len
  have hbytes : s.bytes.length = strLen s := rfl
  have hl : (if usizeAdd start len > strLen s then usizeSub (strLen s) start else len) =
      (subChars s start len).length := by
    rw [usizeAdd_of_lt hsum, usizeSub_of_le hstart.le (by omega), hchars]
    split <;> omega
  have hsize : usizeAdd (subChars s start len).length 1 = (subChars s start len).length + 1 :=
    usizeAdd_of_lt (by omega)
  have halloc : memAlloc malloc ((subChars s start len).length + 1) = some object := by
    rw [memAlloc, if_neg (Nat.succ_ne_zero _), hsupply]
  have hobject := hobjects _ _ hsupply
  have hprefix : subChars s start len <+: s.object.drop start := by
    refine ⟨s.bytes.drop (min (start + len) s.bytes.length) ++ [0], ?_⟩
    have hlen : start ≤ (s.bytes.take (min (start + len) s.bytes.length)).length := by
      rw [List.length_take]
      omega
    rw [CString.object, List.drop_append_of_le_length hstart.le, subChars, ← List.append_assoc,
      ← List.drop_append_of_le_length hlen, List.take_append_drop]
  have hcopy : copyElems object 0 (s.object.drop start) (subChars s start len).length =
      .ok (subChars s start len ++ object.drop (subChars s start len).length) :=
    @copyElems_free _ [] object _ _ hprefix (by omega)
  have hlast : (object.drop (subChars s start len).length).length = 1 := by
    rw [List.length_drop, hobject, Nat.add_sub_cancel_left]
  have hwrite := @writeElem_free _ (subChars s start len) _ (hlast ▸ Nat.one_pos) 0
  rw [List.drop_of_length_le hlast.le, List.append_nil] at hwrite
  rw [strAllocSub]
  simp only [if_neg (Nat.not_le.mpr hstart), hl, hsize, halloc, hcopy, ok_bind, hwrite]

/-- With a wrapped sum the length is not clamped, and no part is returned. -/
theorem strAllocSub_of_le (hstart : start < strLen s) (hlen : len < usizeSize)
    (hsum : usizeSize ≤ start + len) (object : List UInt8) :
    strAllocSub malloc (some s) start len ≠ .ok (some object) := by
  have hmax := usizeMax_succ
  have hlength := s.length_lt
  have hbytes : s.bytes.length = strLen s := rfl
  have hwrap : usizeAdd start len = start + len - usizeSize := by
    rw [usizeAdd, Nat.mod_eq_sub_mod hsum, Nat.mod_eq_of_lt (by omega)]
  have hl : (if usizeAdd start len > strLen s then usizeSub (strLen s) start else len) = len := by
    rw [hwrap, if_neg (by omega)]
  rw [strAllocSub]
  simp only [if_neg (Nat.not_le.mpr hstart), hl]
  cases memAlloc malloc (usizeAdd len 1) with
  | none => simp
  | some result =>
    have hlong : ¬ (0 + len ≤ result.length ∧ len ≤ (s.object.drop start).length) := by
      rw [List.length_drop, CString.length_object]
      omega
    have hcopy : copyElems result 0 (s.object.drop start) len = .error outOfBounds := if_neg hlong
    simp [hcopy]

/-- The view and the slice always have the characters from `start` on. Where the allocator has
the bytes for them, the owned part has them exactly when the sum of its indices does not wrap. -/
theorem strAllocSub_clamped (malloc : Nat → Option (List UInt8)) (hobjects : GivesObjects malloc)
    (s : CString) (start len : Nat) (hstart : start < strLen s) (hlen : len < usizeSize)
    (hsupply : malloc ((subChars s start len).length + 1) ≠ none) :
    (∀ mem p literal, LiesAt mem p s → ∃ v, strViewFrom mem p = some v ∧
      Cells.read mem (strViewSub literal v start len).ptr (strViewSub literal v start len).len =
        subChars s start len ∧
      Cells.read mem (strSlice ⟨p, strLen s⟩ start (min (start + len) usizeMax)).ptr
        (strSlice ⟨p, strLen s⟩ start (min (start + len) usizeMax)).len = subChars s start len) ∧
    (strAllocSub malloc (some s) start len = .ok (some (subChars s start len ++ [0])) ↔
      start + len < usizeSize) := by
  refine ⟨fun mem p literal h => h.views literal hstart, fun h => ?_, fun hsum => ?_⟩
  · by_contra hwrap
    exact strAllocSub_of_le hstart hlen (Nat.le_of_not_lt hwrap) _ h
  · obtain ⟨object, hobject⟩ := Option.ne_none_iff_exists'.mp hsupply
    exact strAllocSub_of_lt hobjects hstart hsum hobject

/-- Two letters of a word. -/
theorem strAllocSub_clamped_word :
    strAllocSub (fun size => some (List.replicate size 7))
      (some ⟨[104, 101, 108, 108, 111], by simp, by decide⟩) 3 9 =
        .ok (some [108, 111, 0]) :=
  (strAllocSub_clamped (fun size => some (List.replicate size 7))
    (fun size object h => by rw [← Option.some.inj h, List.length_replicate])
    ⟨[104, 101, 108, 108, 111], by simp, by decide⟩ 3 9 (by decide) (by decide)
    (Option.some_ne_none _)).2.mpr (by decide)

/-- The rest of a word, asked for with the greatest length, is not returned. -/
theorem strAllocSub_rest :
    strAllocSub (fun size => some (List.replicate size 7))
      (some ⟨[104, 101, 108, 108, 111], by simp, by decide⟩) 1 usizeMax = .ok none ∧
    subChars ⟨[104, 101, 108, 108, 111], by simp, by decide⟩ 1 usizeMax = [101, 108, 108, 111] :=
  ⟨rfl, by decide⟩

end CanonC
