import CanonC.Data.Dynstring.Model

/-!
# The string keeps its bytes and its terminator when it grows

The scan for a terminator finds the first NUL of the source. Both ways to grow leave
everything as it was or give the string room; the detached one leaves the old object there,
so that a source in it stays.
-/

namespace CanonC

open Toolkit

variable {mem mem' : ByteMemory} {s s' : Dynstring} {bytes ys : List UInt8} {p : Pointer}
  {a : Object UInt8} {n d : Nat}

/-- The bytes from a pointer to the end of its object. -/
def objectBytes (a : Object UInt8) (i : Nat) : List UInt8 :=
  Cells.read a.cells i (a.range.size - i)

/-- The bytes of the C string at a pointer: those before the first NUL of its object. -/
def sourceBytes (mem : ByteMemory) (p : Pointer) : List UInt8 :=
  match mem.objects p.object with
  | none => []
  | some a => (objectBytes a p.index).takeWhile (· ≠ 0)

/-- The scan counts the bytes before the first NUL as far as it goes, and it is a fault where the
object ends first. -/
theorem scanNul_eq (ha : mem.objects p.object = some a) (left : Nat) : ∀ i : Nat,
    scanNul mem p left i =
      if left ≤ ((objectBytes a (p.index + i)).takeWhile (· ≠ 0)).length ∨
        0 ∈ objectBytes a (p.index + i) then
        .ok (i + min left ((objectBytes a (p.index + i)).takeWhile (· ≠ 0)).length)
      else .error Store.outside := by
  induction left with
  | zero => exact fun i => by simp [scanNul]
  | succ left ih =>
    intro i
    by_cases hin : p.index + i + 1 ≤ a.range.size
    · have hsize : a.range.size - (p.index + i) = a.range.size - (p.index + i + 1) + 1 := by omega
      have hbytes : objectBytes a (p.index + i) =
          a.cells (p.index + i) :: objectBytes a (p.index + i + 1) := by
        rw [objectBytes, hsize, Cells.read_succ, objectBytes]
      have hread : mem.read 1 ⟨p.object, p.index + i⟩ 1 = .ok [a.cells (p.index + i)] :=
        Store.read_of_le (p := ⟨p.object, p.index + i⟩) ha (by simpa using hin)
      rw [scanNul, hread, ok_bind, hbytes]
      by_cases hzero : a.cells (p.index + i) = 0
      · simp [hzero]
      · have hne : ¬ [a.cells (p.index + i)] = [0] := fun h => hzero (List.head_eq_of_cons_eq h)
        rw [if_neg hne, ih (i + 1), List.takeWhile_cons_of_pos (by simpa using hzero),
          ← Nat.add_assoc]
        simp only [List.length_cons, Nat.add_le_add_iff_right, List.mem_cons, Ne.symm hzero,
          false_or, Nat.add_min_add_right]
        congr 2
        omega
    · have hbytes : objectBytes a (p.index + i) = [] := by
        rw [objectBytes, Nat.sub_eq_zero_of_le (by omega), Cells.read_zero]
      have hread : mem.read 1 ⟨p.object, p.index + i⟩ 1 = .error Store.outside := by
        simp only [Store.read, ha, Nat.mul_one, if_neg hin]
      rw [scanNul, hread, hbytes]
      simp

/-- What a scan of at most `n` bytes has found can be read. -/
theorem scanNul_ok {k : Nat} (hn : 0 < n) (h : scanNul mem p n 0 = .ok k) :
    k = ((sourceBytes mem p).take n).length ∧ mem.read 1 p k = .ok ((sourceBytes mem p).take n) ∧
      mem.covers 1 p k = true := by
  cases ha : mem.objects p.object with
  | none =>
    obtain ⟨left, rfl⟩ := Nat.exists_eq_succ_of_ne_zero (Nat.ne_of_gt hn)
    simp only [scanNul, Store.read, ha, error_bind] at h
    cases h
  | some a =>
    rw [scanNul_eq ha, Nat.add_zero, Nat.zero_add] at h
    split at h
    · rename_i hend
      have hsource : sourceBytes mem p = (objectBytes a p.index).takeWhile (· ≠ 0) := by
        simp only [sourceBytes, ha]
      rw [← hsource, ← List.length_take] at h
      obtain rfl := (Except.ok.inj h).symm
      have hprefix : (sourceBytes mem p).take n <+: objectBytes a p.index := by
        rw [hsource]
        exact (List.take_prefix _ _).trans (List.takeWhile_prefix _)
      have hle := hprefix.length_le
      have hpos : 0 < a.range.size - p.index := by
        by_contra hzero
        have hnil : objectBytes a p.index = [] := by
          rw [objectBytes, Nat.le_zero.mp (Nat.le_of_not_lt hzero), Cells.read_zero]
        simp only [hnil, List.takeWhile_nil, List.length_nil, Nat.le_zero, List.not_mem_nil,
          or_false] at hend
        omega
      have hroom : (p.index + ((sourceBytes mem p).take n).length) * 1 ≤ a.range.size := by
        rw [objectBytes, Cells.length_read] at hle
        omega
      refine ⟨rfl, ?_, Store.covers_iff.mpr ⟨a, ha, hroom⟩⟩
      rw [Store.read_of_le ha hroom]
      exact congrArg Except.ok (Cells.read_of_prefix hprefix)
    · cases h

/-- No C string is longer than an object may be. -/
theorem take_sourceBytes (mem : ByteMemory) (p : Pointer) :
    (sourceBytes mem p).take (ptrdiffMax + 1) = sourceBytes mem p := by
  apply List.take_of_length_le
  unfold sourceBytes
  cases ha : mem.objects p.object with
  | none => exact Nat.zero_le _
  | some a =>
    have hle : ((objectBytes a p.index).takeWhile (· ≠ 0)).length ≤ a.range.size - p.index :=
      Nat.le_trans (List.takeWhile_prefix _).length_le (Nat.le_of_eq Cells.length_read)
    have hsize := mem.size_le _ a ha
    simp only
    omega

/-- The length of a C string. -/
theorem strlenAt_ok {k : Nat} (h : strlenAt mem p = .ok k) :
    k = (sourceBytes mem p).length ∧ mem.read 1 p k = .ok (sourceBytes mem p) ∧
      mem.covers 1 p k = true := by
  have hscan := scanNul_ok (Nat.succ_pos _) h
  rwa [take_sourceBytes] at hscan

private theorem takeWhile_terminator_prefix {bs : List UInt8} (h : 0 ∈ bs) :
    bs.takeWhile (· ≠ 0) ++ [0] <+: bs := by
  obtain ⟨as, cs, rfl, has⟩ := List.eq_append_cons_of_mem h
  have hall : ∀ b ∈ as, decide (b ≠ 0) = true := by
    intro b hb
    apply decide_eq_true
    rintro rfl
    exact has hb
  rw [List.takeWhile_append_of_pos hall, List.takeWhile_cons_of_neg (by simp), List.append_nil]
  exact ⟨cs, by simp⟩

/-- Behind the bytes of a C string lies its terminator. -/
theorem strlenAt_terminator {k : Nat} (h : strlenAt mem p = .ok k) :
    mem.read 1 p (k + 1) = .ok (sourceBytes mem p ++ [0]) ∧ mem.covers 1 p (k + 1) = true := by
  obtain ⟨rfl, -, hcovers⟩ := strlenAt_ok h
  obtain ⟨a, ha, hle⟩ := Store.covers_iff.mp hcovers
  have hsource : sourceBytes mem p = (objectBytes a p.index).takeWhile (· ≠ 0) := by
    simp only [sourceBytes, ha]
  have hsize := mem.size_le _ a ha
  rw [strlenAt, scanNul_eq ha] at h
  simp only [Nat.add_zero, ← hsource] at h
  split at h
  · rename_i hend
    have hnul : 0 ∈ objectBytes a p.index := by
      rcases hend with hend | hend
      · omega
      · exact hend
    have hprefix : sourceBytes mem p ++ [0] <+: objectBytes a p.index := by
      rw [hsource]
      exact takeWhile_terminator_prefix hnul
    have hread := Cells.read_of_prefix hprefix
    rw [List.length_append, List.length_singleton] at hread
    have hle' := hprefix.length_le
    rw [List.length_append, List.length_singleton, objectBytes, Cells.length_read] at hle'
    have hroom : (p.index + ((sourceBytes mem p).length + 1)) * 1 ≤ a.range.size := by omega
    exact ⟨by rw [Store.read_of_le ha hroom, hread], Store.covers_iff.mpr ⟨a, ha, hroom⟩⟩
  · cases h

/-- The string holds the bytes, with a terminator behind them where it has an object. -/
structure Dynstring.Holds (mem : ByteMemory) (s : Dynstring) (bytes : List UInt8) : Prop where
  /-- Without an object there is no room and there are no bytes. -/
  null : s.data = none → s.cap = 0 ∧ bytes = []
  /-- The object has exactly the capacity and holds the bytes and the terminator. -/
  buffer : ∀ d, s.data = some d → mem.Buffer 1 (some d) s.cap (bytes ++ [0])
  /-- The number of bytes. -/
  len_eq : s.len = bytes.length

/-- The string has room for `n` bytes. -/
structure Dynstring.Grown (s : Dynstring) (bytes : List UInt8) (n : Nat) (mem' : ByteMemory)
    (s' : Dynstring) (d : Nat) : Prop where
  /-- The object of the bytes. -/
  data_eq : s'.data = some d
  /-- It holds them and the terminator. -/
  buffer : mem'.Buffer 1 (some d) s'.cap (bytes ++ [0])
  /-- The number of bytes is the same. -/
  len_eq : s'.len = s.len
  /-- There is room. -/
  le_cap : n ≤ s'.cap

namespace Dynstring.Holds

/-- There are fewer bytes than the object may have. -/
theorem len_lt (h : s.Holds mem bytes) : s.len < ptrdiffMax := by
  rw [h.len_eq]
  cases hd : s.data with
  | none =>
    rw [(h.null hd).2]
    decide
  | some d =>
    have hle := (h.buffer d hd).length_le
    have hbytes := (h.buffer d hd).bytes_le
    rw [List.length_append, List.length_singleton] at hle
    omega

/-- A string that has room is its own growth. -/
theorem grown_self (h : s.Holds mem bytes) (hn : n ≤ s.cap) (hpos : 0 < n) :
    ∃ d, s.Grown bytes n mem s d := by
  cases hd : s.data with
  | none =>
    have hcap := (h.null hd).1
    omega
  | some d => exact ⟨d, hd, h.buffer d hd, rfl, hn⟩

/-- A scan in the string ends at the terminator at the latest. -/
theorem scanNul_own (h : s.Holds mem bytes) (hin : some p.object = s.data)
    (hle : p.index ≤ s.len) (n : Nat) : (scanNul mem p n 0).isOk = true ∧
      p.index + (sourceBytes mem p).length ≤ s.len := by
  obtain ⟨a, ha, hsize, hread⟩ := (h.buffer p.object hin.symm).object p.object rfl
  have hcap := (h.buffer p.object hin.symm).length_le
  rw [List.length_append, List.length_singleton] at hread hcap
  have hlen := h.len_eq
  have hnul : a.cells s.len = 0 := by
    rw [Cells.read_add, Cells.read_one, Nat.zero_add] at hread
    have hlast := List.append_inj_right hread (by simp)
    rw [hlen]
    exact List.head_eq_of_cons_eq hlast
  have hsplit : a.range.size - p.index = (s.len - p.index) + (a.range.size - s.len - 1 + 1) := by
    omega
  have hbytes : objectBytes a p.index = Cells.read a.cells p.index (s.len - p.index) ++
      0 :: Cells.read a.cells (s.len + 1) (a.range.size - s.len - 1) := by
    rw [objectBytes, hsplit, Cells.read_add, Nat.add_sub_of_le hle, Cells.read_succ, hnul]
  constructor
  · rw [scanNul_eq ha, Nat.add_zero, if_pos (Or.inr (by rw [hbytes]; simp))]
    rfl
  · have hsource : (sourceBytes mem p).length ≤ s.len - p.index := by
      simp only [sourceBytes, ha, hbytes]
      rw [List.takeWhile_append]
      split
      · simp
      · exact Nat.le_trans (List.takeWhile_prefix _).length_le (Nat.le_of_eq Cells.length_read)
    omega

/-- The bytes and the terminator are copied to a new object. -/
theorem copy {mem' : ByteMemory} {old cap : Nat} (h : s.Holds mem bytes) (hd : s.data = some old)
    (hbuffer : mem'.Buffer 1 (some d) cap []) (hkeeps : mem.Keeps mem' none)
    (hfresh : mem.objects d = none) (hcap : s.len + 1 ≤ cap) :
    ∃ mem'', memCopyElems 1 mem' ⟨d, 0⟩ ⟨old, 0⟩ (usizeAdd s.len 1) = .ok mem'' ∧
      mem''.Buffer 1 (some d) cap (bytes ++ [0]) ∧ mem.Keeps mem'' none := by
  have hlength : (bytes ++ [0]).length = s.len + 1 := by
    rw [h.len_eq, List.length_append, List.length_singleton]
  have hsource := @ElemSource.of_buffer _ _ _ _ _ (s.len + 1) _ ⟨old, 0⟩ (h.buffer old hd) rfl
    (by simp [hlength])
  rw [List.drop_zero, List.take_of_length_le (Nat.le_of_eq hlength)] at hsource
  have hcount : usizeMul (bytes ++ [0]).length 1 = usizeAdd s.len 1 := by
    rw [usizeMul, Nat.mul_one, usizeAdd, hlength]
  have hcopy := hsource.copy_fresh hbuffer hkeeps hfresh Nat.one_pos (by rwa [hlength])
  rwa [hcount] at hcopy

end Dynstring.Holds

/-- The computed capacity is at least the one asked for. -/
theorem dynstringNextCap_ge (s : Dynstring) (minCap : Nat) :
    minCap ≤ dynstringNextCap s minCap := by
  unfold dynstringNextCap
  extract_lets newCap
  split <;> omega

/-- A reallocation is refused and changes nothing, or gives room. -/
theorem dynstringEnsureCapacity_spec (h : s.Holds mem bytes) (hpos : 0 < n)
    (answer : Option (Grant UInt8)) :
    (dynstringEnsureCapacity mem s n answer = .ok (mem, s, false) ∧ s.cap < n) ∨
    ∃ mem' s' d, dynstringEnsureCapacity mem s n answer = .ok (mem', s', true) ∧
      s.Grown bytes n mem' s' d ∧ mem.Keeps mem' s.data ∧
      (s.data = some d ∨ mem.objects d = none) := by
  unfold dynstringEnsureCapacity
  by_cases hroom : s.cap ≥ n
  · obtain ⟨d, hd⟩ := h.grown_self hroom hpos
    right
    rw [if_pos hroom]
    exact ⟨mem, s, d, rfl, hd, Store.Keeps.refl _ _, Or.inl hd.data_eq⟩
  · rw [if_neg hroom]
    have hge := dynstringNextCap_ge s n
    cases hd : s.data with
    | none =>
      obtain ⟨hcap, rfl⟩ := h.null hd
      have hempty : mem.Buffer 1 none 0 ([] : List UInt8) := ⟨fun _ => rfl, nofun, Nat.le_refl 0⟩
      rcases hempty.realloc (dynstringNextCap s n) (Nat.zero_le _) answer with
        hno | ⟨mem₁, d, hyes, hbuffer, hkeeps, hfresh⟩
      · left
        rw [Nat.mul_one] at hno
        simp only [hno, ok_bind]
        exact ⟨trivial, by omega⟩
      · right
        obtain ⟨mem₂, hwrite, hnew, hkeeps₂⟩ := hbuffer.write [0] (Nat.le_refl _)
          (show 0 + 1 ≤ dynstringNextCap s n by omega)
        rw [Nat.mul_one] at hyes
        change mem₁.write 1 ⟨d, 0⟩ [0] = .ok mem₂ at hwrite
        simp only [hyes, ok_bind, hwrite]
        refine ⟨mem₂, _, d, rfl, ⟨rfl, hnew, rfl, hge⟩, hkeeps.trans hkeeps₂ fun d' hd' => ?_,
          Or.inr hfresh⟩
        obtain rfl := Option.some.inj hd'
        exact Or.inr hfresh
    | some old =>
      have hlength := (h.buffer old hd).length_le
      rcases (h.buffer old hd).realloc (dynstringNextCap s n) (by omega) answer with
        hno | ⟨mem₁, d, hyes, hbuffer, hkeeps, hfresh⟩
      · left
        rw [Nat.mul_one] at hno
        simp only [hno, ok_bind]
        exact ⟨trivial, by omega⟩
      · right
        rw [Nat.mul_one] at hyes
        simp only [hyes, ok_bind]
        exact ⟨mem₁, _, d, rfl, ⟨rfl, hbuffer, rfl, hge⟩, hkeeps, Or.inr hfresh⟩

/-- A detached growth is refused and changes nothing, or gives room and leaves every object
there. -/
theorem dynstringGrowDetached_spec (h : s.Holds mem bytes) (hpos : 0 < n)
    (answer : Option (Grant UInt8)) :
    (dynstringGrowDetached mem s n answer = .ok (mem, s, none, false) ∧ s.cap < n) ∨
    ∃ mem' s' d old, dynstringGrowDetached mem s n answer = .ok (mem', s', old, true) ∧
      s.Grown bytes n mem' s' d ∧ mem.Keeps mem' none ∧
      (s.data = some d ∧ old = none ∨ mem.objects d = none ∧ old = s.data) := by
  unfold dynstringGrowDetached
  by_cases hroom : s.cap ≥ n
  · obtain ⟨d, hd⟩ := h.grown_self hroom hpos
    right
    rw [if_pos hroom]
    exact ⟨mem, s, d, none, rfl, hd, Store.Keeps.refl _ _, Or.inl ⟨hd.data_eq, rfl⟩⟩
  · rw [if_neg hroom]
    have hge := dynstringNextCap_ge s n
    rcases Store.Buffer.malloc mem 1 (dynstringNextCap s n) answer with
      hno | ⟨mem₁, d, hyes, hbuffer, hkeeps, hfresh⟩
    · left
      rw [Nat.mul_one] at hno
      simp only [hno]
      exact ⟨trivial, by omega⟩
    · right
      rw [Nat.mul_one] at hyes
      cases hd : s.data with
      | none =>
        obtain ⟨hcap, rfl⟩ := h.null hd
        obtain ⟨mem₂, hwrite, hnew, hkeeps₂⟩ := hbuffer.write [0] (Nat.le_refl _)
          (show 0 + 1 ≤ dynstringNextCap s n by omega)
        change mem₁.write 1 ⟨d, 0⟩ [0] = .ok mem₂ at hwrite
        simp only [hyes, hwrite, ok_bind]
        refine ⟨mem₂, _, d, none, rfl, ⟨rfl, hnew, rfl, hge⟩, hkeeps.trans hkeeps₂ fun d' hd' => ?_,
          Or.inr ⟨hfresh, rfl⟩⟩
        rw [← Option.some.inj hd']
        exact Or.inr hfresh
      | some old =>
        have hlength := (h.buffer old hd).length_le
        rw [List.length_append, List.length_singleton, ← h.len_eq] at hlength
        obtain ⟨mem₂, hcopy, hnew, hkept⟩ := h.copy hd hbuffer hkeeps hfresh (by omega)
        simp only [hyes, hcopy, ok_bind]
        exact ⟨mem₂, _, d, some old, rfl, ⟨rfl, hnew, rfl, hge⟩, hkept, Or.inr ⟨hfresh, rfl⟩⟩

end CanonC
