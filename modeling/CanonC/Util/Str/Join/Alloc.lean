import CanonC.Util.Str.Join.Correctness
import CanonC.Util.Str.Sub

/-!
# Joining into new memory

The lengths are added up first, and the parts are written into a block of that size. So the
block is filled to its last byte. A sum that wraps gives a block that is too small, which
joining refuses to fill; it is freed again. Copying a string and concatenating two are joins
of one and of two parts.
-/

namespace CanonC

/-- What an allocating function leaves behind: the object returned, absent for NULL, and the
number of blocks allocated and not freed. -/
structure Allocated where
  object : Option (List UInt8)
  blocks : Nat
  deriving DecidableEq

/-- `str_alloc_copy`. -/
def strAllocCopy (malloc : Nat → Option (List UInt8)) (s : Option CString) :
    Except String Allocated :=
  match s with
  | none => .ok ⟨none, 0⟩
  | some s =>
    let len := strLen s
    match memAlloc malloc (usizeAdd len 1) with
    | none => .ok ⟨none, 0⟩
    | some copy => do
      let copy ← copyElems copy 0 s.object (usizeAdd len 1)
      .ok ⟨some copy, 1⟩

/-- `str_alloc_concat`. -/
def strAllocConcat (malloc : Nat → Option (List UInt8)) (a b : Option CString) :
    Except String Allocated :=
  match a, b with
  | none, _ => .error "str_alloc_concat: a is NULL"
  | _, none => .error "str_alloc_concat: b is NULL"
  | some a, some b =>
    let lenA := strLen a
    let lenB := strLen b
    match memAlloc malloc (usizeAdd (usizeAdd lenA lenB) 1) with
    | none => .ok ⟨none, 0⟩
    | some result => do
      let result ← copyElems result 0 a.object lenA
      let result ← copyElems result lenA b.object (usizeAdd lenB 1)
      .ok ⟨some result, 1⟩

/-- The loop of `str_alloc_join` that adds the lengths of the parts from `i` on to the total,
absent where it meets a NULL part. -/
def totalLenLoop (sp : List UInt8) (count : Nat) : List (Option CString) → Nat → Nat → Option Nat
  | [], _, totalLen => some totalLen
  | none :: _, _, _ => none
  | some part :: parts, i, totalLen =>
    let totalLen := usizeAdd totalLen (strLen part)
    let totalLen :=
      if usizeAdd i 1 < count ∧ 0 < sp.length then usizeAdd totalLen sp.length else totalLen
    totalLenLoop sp count parts (usizeAdd i 1) totalLen

/-- `str_alloc_join` of an array of `parts.length` strings. -/
def strAllocJoin (malloc : Nat → Option (List UInt8)) (parts : List (Option CString))
    (sep : Option CString) : Except String Allocated :=
  if parts.length = 0 then strAllocCopy malloc (some .empty)
  else
    let sp := sep.getD .empty
    match totalLenLoop sp.bytes parts.length parts 0 1 with
    | none => .ok ⟨none, 0⟩
    | some totalLen =>
      match memAlloc malloc totalLen with
      | none => .ok ⟨none, 0⟩
      | some buffer => do
        let (ok, buffer) ← strJoin (some buffer) parts (some sp)
        -- A buffer that could not be filled is freed.
        .ok (if ok then ⟨some buffer, 1⟩ else ⟨none, 0⟩)

/-- The bytes and a terminator in a block of their size, if there is one. -/
def allocated (malloc : Nat → Option (List UInt8)) (bytes : List UInt8) : Allocated :=
  if malloc (bytes.length + 1) = none then ⟨none, 0⟩ else ⟨some (bytes ++ [0]), 1⟩

/-- Every block fits into the address space beside each of the parts and the separator. -/
def BlocksBeside (malloc : Nat → Option (List UInt8)) (parts : List (Option CString))
    (sep : Option CString) : Prop :=
  ∀ size object part, malloc size = some object → some part ∈ parts →
    SeparateObjects [size, part.bytes.length + 1, (sep.getD .empty).bytes.length + 1]

variable {malloc : Nat → Option (List UInt8)} {parts : List (Option CString)} {sp : List UInt8}
  {sep : Option CString} {count : Nat}

/-- A NULL part is found. -/
theorem totalLenLoop_of_mem (hnull : none ∈ parts) (i totalLen : Nat) :
    totalLenLoop sp count parts i totalLen = none := by
  induction parts generalizing i totalLen with
  | nil => exact absurd hnull List.not_mem_nil
  | cons part parts ih =>
    cases part with
    | none => rfl
    | some part =>
      rw [totalLenLoop]
      exact ih ((List.mem_cons.mp hnull).resolve_left nofun) _ _

/-- The loop adds up what joining writes, modulo the size of the address space. -/
theorem totalLenLoop_of_notMem (hfits : count < usizeSize) (hnull : none ∉ parts) (i : Nat)
    {totalLen : Nat} (hcount : i + parts.length = count) (htotal : totalLen < usizeSize) :
    totalLenLoop sp count parts i totalLen =
      some ((totalLen + (joined sp parts).length) % usizeSize) := by
  induction parts generalizing i totalLen with
  | nil =>
    rw [totalLenLoop, joined, List.map_nil, List.intercalate_nil, List.length_nil, Nat.add_zero,
      Nat.mod_eq_of_lt htotal]
  | cons part parts ih =>
    rw [List.length_cons] at hcount
    cases part with
    | none => exact absurd List.mem_cons_self hnull
    | some part =>
      have hgap := @gapBehind_pos_iff sp count parts i (by omega) hfits
      have hi : usizeAdd i 1 = i + 1 := usizeAdd_of_lt (by omega)
      rw [totalLenLoop]
      simp only [hgap]
      rw [hi, ih (fun h => hnull (List.mem_cons_of_mem _ h)) (i + 1) (by omega)
        (by split <;> exact Nat.mod_lt _ (Nat.two_pow_pos 64))]
      congr 1
      rw [joined_cons, List.length_append, List.length_append, partBytes, Option.elim_some, strLen]
      by_cases hpos : 0 < (gapBehind sp parts).length
      · rw [if_pos hpos, gapBehind_of_pos hpos]
        simp only [usizeAdd, Nat.mod_add_mod, Nat.add_assoc]
      · rw [if_neg hpos, Nat.eq_zero_of_not_pos hpos]
        simp only [usizeAdd, Nat.mod_add_mod, Nat.add_assoc, Nat.zero_add]

/-- The bytes are written into a block of their size. -/
theorem memAlloc_eq (malloc : Nat → Option (List UInt8)) {size : Nat} (hpos : 0 < size) :
    memAlloc malloc size = malloc size :=
  if_neg hpos.ne'

/-- A join whose length is that of the block fills it. -/
theorem strAllocJoin_fits (hobjects : GivesObjects malloc) (hfits : parts.length < usizeSize)
    (hspace : BlocksBeside malloc parts sep) (hne : parts.length ≠ 0) (hnull : none ∉ parts)
    (hlen : (joined (sep.getD .empty).bytes parts).length + 1 < usizeSize) :
    strAllocJoin malloc parts sep =
      .ok (allocated malloc (joined (sep.getD .empty).bytes parts)) := by
  have htotal := @totalLenLoop_of_notMem parts (sep.getD .empty).bytes _ hfits hnull 0 1
    (Nat.zero_add _) (by decide)
  rw [Nat.add_comm 1, Nat.mod_eq_of_lt hlen] at htotal
  rw [strAllocJoin, if_neg hne, allocated]
  simp only [htotal, memAlloc_eq malloc (Nat.succ_pos _)]
  cases hmalloc : malloc ((joined (sep.getD .empty).bytes parts).length + 1) with
  | none => rfl
  | some buffer =>
    have hbuffer := hobjects _ _ hmalloc
    obtain ⟨result, hjoin, hresult⟩ := @strJoin_spec buffer parts (some (sep.getD .empty)) hfits
      (by omega) fun part hpart => hbuffer ▸ hspace _ _ part hmalloc hpart
    have hflag : result.1 = true := hresult.flag.mpr ⟨hnull, by rw [Option.getD_some]; omega⟩
    have hfull := hresult.success hflag
    rw [Option.getD_some, List.nil_append, List.drop_of_length_le (by omega)] at hfull
    rw [if_neg (Option.some_ne_none _)]
    dsimp only
    rw [hjoin, ok_bind, hfull, if_pos hflag]

/-- A join whose length wraps is refused, and nothing is left allocated. -/
theorem strAllocJoin_wraps (hobjects : GivesObjects malloc) (hfits : parts.length < usizeSize)
    (hspace : BlocksBeside malloc parts sep) (hne : parts.length ≠ 0) (hnull : none ∉ parts)
    (hlen : usizeSize ≤ (joined (sep.getD .empty).bytes parts).length + 1) :
    strAllocJoin malloc parts sep = .ok ⟨none, 0⟩ := by
  have htotal := @totalLenLoop_of_notMem parts (sep.getD .empty).bytes _ hfits hnull 0 1
    (Nat.zero_add _) (by decide)
  obtain ⟨size, hsize⟩ : ∃ size, (1 + (joined (sep.getD .empty).bytes parts).length) % usizeSize =
    size := ⟨_, rfl⟩
  have hsmall : size < usizeSize := hsize ▸ Nat.mod_lt _ (Nat.two_pow_pos 64)
  rw [strAllocJoin, if_neg hne]
  simp only [htotal, hsize]
  cases hmalloc : memAlloc malloc size with
  | none => rfl
  | some buffer =>
    have hpos : 0 < size := by
      refine Nat.pos_of_ne_zero fun hzero => ?_
      rw [memAlloc, if_pos hzero] at hmalloc
      cases hmalloc
    rw [memAlloc_eq malloc hpos] at hmalloc
    have hbuffer := hobjects _ _ hmalloc
    obtain ⟨result, hjoin, hresult⟩ := @strJoin_spec buffer parts (some (sep.getD .empty)) hfits
      (by omega) fun part hpart => hbuffer ▸ hspace _ _ part hmalloc hpart
    have hflag : ¬result.1 = true := fun h => by
      have hroom := (hresult.flag.mp h).2
      rw [Option.getD_some] at hroom
      omega
    dsimp only
    rw [hjoin, ok_bind, if_neg hflag]

/-- `str_alloc_copy` gives the string in a block of its size. -/
theorem strAllocCopy_eq (hobjects : GivesObjects malloc) (s : CString) :
    strAllocCopy malloc (some s) = .ok (allocated malloc s.bytes) := by
  have hlt := s.length_lt
  have hmax := usizeMax_succ
  have hlen : usizeAdd (strLen s) 1 = s.bytes.length + 1 := usizeAdd_of_lt (by rw [strLen]; omega)
  rw [strAllocCopy, allocated]
  simp only [hlen, memAlloc_eq malloc (Nat.succ_pos _)]
  cases hmalloc : malloc (s.bytes.length + 1) with
  | none => rfl
  | some copy =>
    have hcopy := @copyElems_free _ [] copy _ _ (List.prefix_refl s.object)
      (by rw [hobjects _ _ hmalloc, CString.length_object])
    rw [List.nil_append, List.length_nil, CString.length_object] at hcopy
    rw [if_neg (Option.some_ne_none _)]
    dsimp only
    rw [hcopy, ok_bind, List.drop_of_length_le (hobjects _ _ hmalloc).le, List.nil_append,
      List.append_nil]
    rfl

/-- `str_alloc_concat` gives the strings in a block of their size. -/
theorem strAllocConcat_eq (hobjects : GivesObjects malloc) (a b : CString)
    (hlt : a.bytes.length + b.bytes.length + 1 < usizeSize) :
    strAllocConcat malloc (some a) (some b) = .ok (allocated malloc (a.bytes ++ b.bytes)) := by
  have hboth : usizeAdd (usizeAdd (strLen a) (strLen b)) 1 =
      a.bytes.length + b.bytes.length + 1 := by
    rw [strLen, strLen, usizeAdd_of_lt (show a.bytes.length + b.bytes.length < usizeSize by omega),
      usizeAdd_of_lt hlt]
  have hlen : usizeAdd (strLen b) 1 = b.object.length := by
    rw [CString.length_object, strLen, usizeAdd_of_lt (by omega)]
  rw [strAllocConcat, allocated, List.length_append]
  simp only [hboth, hlen, memAlloc_eq malloc (Nat.succ_pos _)]
  cases hmalloc : malloc (a.bytes.length + b.bytes.length + 1) with
  | none => rfl
  | some block =>
    have hblock := hobjects _ _ hmalloc
    have hfirst := @copyElems_free _ [] block _ _ (List.prefix_append a.bytes [0]) (by omega)
    have hsecond := @copyElems_free _ a.bytes (block.drop a.bytes.length) _ _
      (List.prefix_refl b.object) (by rw [CString.length_object, List.length_drop]; omega)
    rw [List.nil_append, List.length_nil] at hfirst
    rw [if_neg (Option.some_ne_none _)]
    dsimp only [strLen, CString.object] at hsecond ⊢
    rw [hfirst, ok_bind, List.nil_append, hsecond, ok_bind, List.drop_drop,
      List.drop_of_length_le (by simp only [List.length_append, List.length_singleton]; omega),
      List.append_nil, List.append_assoc]

/-- For all parts `str_alloc_join` gives the parts with the separator between them and a
terminator, in a block of exactly their size, or NULL with nothing left allocated: where there
is a NULL part, where no block is given, and where the sum of the lengths wraps, which never
makes it write outside its block. A copy is the join of one part and a concatenation that of
two with nothing between them. -/
theorem strAllocJoin_exact (hobjects : GivesObjects malloc) (hfits : parts.length < usizeSize)
    (hspace : BlocksBeside malloc parts sep) :
    (none ∈ parts → strAllocJoin malloc parts sep = .ok ⟨none, 0⟩) ∧
    (none ∉ parts → (joined (sep.getD .empty).bytes parts).length + 1 < usizeSize →
      strAllocJoin malloc parts sep =
        .ok (allocated malloc (joined (sep.getD .empty).bytes parts))) ∧
    (none ∉ parts → usizeSize ≤ (joined (sep.getD .empty).bytes parts).length + 1 →
      strAllocJoin malloc parts sep = .ok ⟨none, 0⟩) ∧
    (∀ s, parts = [some s] → strAllocCopy malloc (some s) = strAllocJoin malloc parts sep) ∧
    ∀ a b, parts = [some a, some b] → sep = none →
      a.bytes.length + b.bytes.length + 1 < usizeSize →
      strAllocConcat malloc (some a) (some b) = strAllocJoin malloc parts sep := by
  have hfull : none ∉ parts → (joined (sep.getD .empty).bytes parts).length + 1 < usizeSize →
      strAllocJoin malloc parts sep =
        .ok (allocated malloc (joined (sep.getD .empty).bytes parts)) := by
    intro hnull hlen
    by_cases hne : parts.length = 0
    · rw [strAllocJoin, if_pos hne, strAllocCopy_eq hobjects, List.length_eq_zero_iff.mp hne]
      rfl
    · exact strAllocJoin_fits hobjects hfits hspace hne hnull hlen
  refine ⟨fun hnull => ?_, hfull, fun hnull hlen => ?_, ?_, ?_⟩
  · rw [strAllocJoin, if_neg (List.length_pos_of_mem hnull).ne']
    simp only [totalLenLoop_of_mem hnull]
  · by_cases hne : parts.length = 0
    · rw [List.length_eq_zero_iff.mp hne, joined, List.map_nil, List.intercalate_nil] at hlen
      exact absurd hlen (by decide)
    · exact strAllocJoin_wraps hobjects hfits hspace hne hnull hlen
  · rintro s rfl
    have hlt := s.length_lt
    have hmax := usizeMax_succ
    have hjoined : joined (sep.getD .empty).bytes [some s] = s.bytes := by
      rw [joined_cons]
      simp [partBytes, gapBehind, joined]
    rw [hfull (by simp) (by rw [hjoined]; omega), strAllocCopy_eq hobjects, hjoined]
  · rintro a b rfl rfl hlt
    have hjoined : joined ((none : Option CString).getD .empty).bytes [some a, some b] =
        a.bytes ++ b.bytes := by
      rw [joined_cons, joined_cons]
      simp [partBytes, gapBehind, joined, CString.empty]
    rw [hfull (by simp) (by rw [hjoined, List.length_append]; exact hlt),
      strAllocConcat_eq hobjects a b hlt, hjoined]

/-- Two letters and a comma in a block of four bytes. -/
theorem strAllocJoin_exact_letters :
    strAllocJoin (fun size => if size ≤ 4 then some (List.replicate size 7) else none)
      [some ⟨[97], by simp, by decide⟩, some ⟨[98], by simp, by decide⟩]
      (some ⟨[44], by simp, by decide⟩) = .ok ⟨some [97, 44, 98, 0], 1⟩ := by
  have hobjects : GivesObjects fun size =>
      if size ≤ 4 then some (List.replicate size 7) else none := by
    intro size object h
    dsimp only at h
    split at h
    · rw [← Option.some.inj h, List.length_replicate]
    · cases h
  refine ((strAllocJoin_exact hobjects (by decide) fun size object part hmalloc hpart => ?_).2.1
    (by simp) (by decide)).trans (by rfl)
  have hsize : size ≤ 4 := by
    by_contra hlarge
    simp only [if_neg hlarge, reduceCtorEq] at hmalloc
  simp only [List.mem_cons, Option.some.injEq, List.not_mem_nil, or_false] at hpart
  have hmax := usizeMax_succ
  have hsizeSize : usizeSize = 2 ^ 64 := rfl
  rcases hpart with rfl | rfl
  · simp only [SeparateObjects, List.sum_cons, List.sum_nil, Option.getD_some, List.length_cons,
      List.length_nil]
    omega
  · simp only [SeparateObjects, List.sum_cons, List.sum_nil, Option.getD_some, List.length_cons,
      List.length_nil]
    omega

end CanonC
