import CanonC.Core.Memory
import CanonC.Toolkit.Buffer

/-!
# The objects of a program and their elements

No object is larger than `PTRDIFF_MAX` bytes, so a larger request fails. The sizes that the
copies take are in bytes, as the code computes them.
-/

namespace CanonC

open Toolkit

/-- `PTRDIFF_MAX`. -/
def ptrdiffMax : Nat := 2 ^ 63 - 1

/-- Twice the size of an object can be counted. -/
theorem two_mul_ptrdiffMax_lt : 2 * ptrdiffMax < usizeSize := by decide

/-- The objects of a program that hold elements of one type. -/
abbrev TypedMemory (α : Type) : Type := Store ptrdiffMax α

/-- The fault of a copy that would split an element. -/
def partialElement : String := "copy of a part of an element"

/-- The fault of a call that breaks its contract. -/
def notAllowed : String := "call breaks its contract"

/-- The fault of an access through NULL. -/
def nullPointer : String := "access through NULL"

variable {α : Type} {size : Nat}

/-- The element at an index of an array, which is NULL or an object. -/
def elemAt (data : Option Nat) (i : Nat) : Except String Pointer :=
  match data with
  | none => .error nullPointer
  | some d => .ok ⟨d, i⟩

/-- `mem_move` of elements to an object, with pointers that are not NULL. -/
def memMoveElems (size : Nat) (mem : TypedMemory α) (dest src : Pointer) (bytes : Nat) :
    Except String (TypedMemory α) :=
  if bytes = 0 then .ok mem
  else if size ∣ bytes then mem.move size dest src (bytes / size)
  else .error partialElement

/-- `mem_copy` of elements to an object, with pointers that are not NULL. -/
def memCopyElems (size : Nat) (mem : TypedMemory α) (dest src : Pointer) (bytes : Nat) :
    Except String (TypedMemory α) :=
  if bytes = 0 then .ok mem
  else do
    let a ← mem.address size dest
    let b ← mem.address size src
    requireMsg (!memRegionsOverlap a b bytes) "mem_copy: regions overlap — use mem_move"
    memMoveElems size mem dest src bytes

/-- A move of whole elements. -/
theorem memMoveElems_eq (mem : TypedMemory α) (dest src : Pointer) {n : Nat} (hsize : 0 < size)
    (hn : 0 < n) (hlt : n * size < usizeSize) :
    memMoveElems size mem dest src (usizeMul n size) = mem.move size dest src n := by
  rw [usizeMul_of_lt hlt, memMoveElems, if_neg (Nat.ne_of_gt (Nat.mul_pos hn hsize)),
    if_pos (Nat.dvd_mul_left size n), Nat.mul_div_cancel _ hsize]

/-- A copy of whole elements between runs that do not overlap. -/
theorem memCopyElems_eq {mem : TypedMemory α} {dest src : Pointer} {n a b : Nat}
    (hsize : 0 < size) (hn : 0 < n) (hlt : n * size < usizeSize)
    (hdest : mem.address size dest = .ok a) (hsrc : mem.address size src = .ok b)
    (hapart : a + n * size ≤ b ∨ b + n * size ≤ a) :
    memCopyElems size mem dest src (usizeMul n size) = mem.move size dest src n := by
  have hoverlap : memRegionsOverlap a b (usizeMul n size) = false := by
    rw [usizeMul_of_lt hlt]
    exact memRegionsOverlap_eq_false.mpr hapart
  have hbytes : usizeMul n size ≠ 0 := by
    rw [usizeMul_of_lt hlt]
    exact (Nat.ne_of_gt (Nat.mul_pos hn hsize))
  rw [memCopyElems, if_neg hbytes, hdest, ok_bind, hsrc, ok_bind, hoverlap, Bool.not_false,
    requireMsg_true, ok_bind, memMoveElems_eq mem dest src hsize hn hlt]

/-- A source of elements for an array: where it lies in the object of the array it ends at an index
at the latest. -/
structure ElemSource (size : Nat) (mem : TypedMemory α) (data : Option Nat) (len : Nat)
    (src : Pointer) (ys : List α) : Prop where
  read_eq : mem.read size src ys.length = .ok ys
  /-- There are as many. -/
  covers : mem.covers size src ys.length = true
  /-- In the object of the array they lie in front of the index. -/
  live : some src.object = data → src.index + ys.length ≤ len

namespace ElemSource

variable {mem mem' : TypedMemory α} {d cap n i : Nat} {xs ys : List α} {src : Pointer}

/-- A source stays where its object is kept. -/
theorem of_keeps {data data' data'' : Option Nat} {len len' : Nat}
    (h : ElemSource size mem data len src ys) (hkeeps : mem.Keeps mem' data'')
    (hne : some src.object ≠ data'')
    (hlive : some src.object = data' → src.index + ys.length ≤ len') :
    ElemSource size mem' data' len' src ys := by
  obtain ⟨a, ha, hle⟩ := Store.covers_iff.mp h.covers
  have ha' := hkeeps _ a hne ha
  have hread := h.read_eq
  rw [Store.read_of_le ha hle] at hread
  refine ⟨?_, Store.covers_iff.mpr ⟨a, ha', hle⟩, hlive⟩
  rw [Store.read_of_le ha' hle, hread]

/-- Elements of a buffer are a source. -/
theorem of_buffer (h : mem.Buffer size (some d) cap xs) (hsrc : src.object = d)
    (hle : src.index + n ≤ xs.length) :
    ElemSource size mem (some d) xs.length src ((xs.drop src.index).take n) := by
  have hlen : ((xs.drop src.index).take n).length = n := by
    rw [List.length_take, List.length_drop]
    omega
  obtain ⟨a, ha, hsize, -⟩ := h.object d rfl
  obtain ⟨object, index⟩ := src
  obtain rfl : object = d := hsrc
  refine ⟨?_, Store.covers_iff.mpr ⟨a, ha, ?_⟩, fun _ => ?_⟩
  · rw [hlen]
    exact h.read hle
  · rw [hlen, hsize]
    exact Nat.mul_le_mul_right _ (Nat.le_trans hle h.length_le)
  · rw [hlen]
    exact hle

/-- What a caller may read, in the elements of a buffer or elsewhere, is a source. -/
theorem of_readable {data : Option Nat} (h : mem.Buffer size data cap xs)
    (hread : (if some src.object = data then decide (src.index + n ≤ xs.length)
      else mem.covers size src n) = true) :
    ∃ ys, ys.length = n ∧ ElemSource size mem data xs.length src ys := by
  by_cases hin : some src.object = data
  · rw [if_pos hin, decide_eq_true_iff] at hread
    rw [← hin] at h ⊢
    refine ⟨(xs.drop src.index).take n, ?_, of_buffer h rfl hread⟩
    rw [List.length_take, List.length_drop]
    omega
  · rw [if_neg hin] at hread
    obtain ⟨a, ha, hle⟩ := Store.covers_iff.mp hread
    refine ⟨Cells.read a.cells src.index n, Cells.length_read, ?_, ?_, fun h => absurd h hin⟩
    · rw [Cells.length_read]
      exact Store.read_of_le ha hle
    · rw [Cells.length_read]
      exact hread

/-- A source is copied to the index where it ends at the latest. -/
theorem copy (hsrc : ElemSource size mem (some d) i src ys) (h : mem.Buffer size (some d) cap xs)
    (hsize : 0 < size) (hys : 0 < ys.length) (hi : i ≤ xs.length) (hroom : i + ys.length ≤ cap) :
    ∃ mem', memCopyElems size mem ⟨d, i⟩ src (usizeMul ys.length size) = .ok mem' ∧
      mem'.Buffer size (some d) cap (splice xs i ys) ∧ mem.Keeps mem' (some d) := by
  obtain ⟨mem', hwrite, hbuffer, hkeeps⟩ := h.write ys hi hroom
  obtain ⟨a, ha, hle⟩ := Store.covers_iff.mp hsrc.covers
  obtain ⟨b, hb, hbsize, -⟩ := h.object d rfl
  have hbytes := h.bytes_le
  have hcap : (i + ys.length) * size ≤ cap * size := Nat.mul_le_mul_right _ hroom
  have hlt : ys.length * size < usizeSize := by
    rw [Nat.add_mul] at hcap
    unfold ptrdiffMax at hbytes
    unfold usizeSize
    omega
  have hapart : b.range.start + i * size + ys.length * size ≤ a.range.start + src.index * size ∨
      a.range.start + src.index * size + ys.length * size ≤ b.range.start + i * size := by
    by_cases hin : src.object = d
    · rw [hin, hb] at ha
      obtain rfl := Option.some.inj ha
      have hlive := Nat.mul_le_mul_right size (hsrc.live (congrArg some hin))
      rw [Nat.add_mul] at hlive
      omega
    · exact Store.address_apart (p := ⟨d, i⟩) hb ha (fun heq => hin heq.symm)
        (by rw [hbsize]; exact hcap) hle
  refine ⟨mem', ?_, hbuffer, hkeeps⟩
  rw [memCopyElems_eq hsize hys hlt (by rw [Store.address, hb]) (by rw [Store.address, ha]) hapart,
    Store.move, hsrc.read_eq, ok_bind, hwrite]

/-- A source is copied to the start of a new object. -/
theorem copy_fresh {data : Option Nat} {len : Nat} (hsrc : ElemSource size mem data len src ys)
    (h : mem'.Buffer size (some d) cap []) (hkeeps : mem.Keeps mem' none)
    (hfresh : mem.objects d = none) (hsize : 0 < size) (hroom : ys.length ≤ cap) :
    ∃ mem'', memCopyElems size mem' ⟨d, 0⟩ src (usizeMul ys.length size) = .ok mem'' ∧
      mem''.Buffer size (some d) cap ys ∧ mem.Keeps mem'' none := by
  by_cases hys : ys.length = 0
  · obtain rfl := List.length_eq_zero_iff.mp hys
    refine ⟨mem', ?_, h, hkeeps⟩
    rw [List.length_nil, usizeMul, Nat.zero_mul, Nat.zero_mod, memCopyElems, if_pos rfl]
  · have hsrc' : ElemSource size mem' (some d) 0 src ys := by
      apply hsrc.of_keeps hkeeps (Option.some_ne_none _)
      intro heq
      obtain ⟨a, ha, -⟩ := Store.covers_iff.mp hsrc.covers
      rw [Option.some.inj heq, hfresh] at ha
      cases ha
    obtain ⟨mem'', hcopy, hbuffer, hkeeps'⟩ := hsrc'.copy h hsize (Nat.pos_of_ne_zero hys)
      (Nat.le_refl _) (by rwa [Nat.zero_add])
    refine ⟨mem'', hcopy, ?_, hkeeps.trans hkeeps' fun d' hd' => ?_⟩
    · have hsplice := splice_length [] ys
      rw [List.length_nil, List.nil_append] at hsplice
      rwa [hsplice] at hbuffer
    · rw [← Option.some.inj hd']
      exact Or.inr hfresh

end ElemSource

/-- The move before an insertion into an array of `len` elements: those from an index on go one
on. -/
def shiftElems (size : Nat) (mem : TypedMemory α) (data : Option Nat) (len i : Nat) :
    Except String (TypedMemory α) :=
  if i < len then do
    let dest ← elemAt data (i + 1)
    let src ← elemAt data i
    memMoveElems size mem dest src (usizeMul (len - i) size)
  else .ok mem

/-- The move of a removal from an array of `len` elements: those behind an index go one back. -/
def closeElems (size : Nat) (mem : TypedMemory α) (data : Option Nat) (len i : Nat) :
    Except String (TypedMemory α) :=
  if i < len - 1 then do
    let dest ← elemAt data i
    let src ← elemAt data (i + 1)
    memMoveElems size mem dest src (usizeMul (len - i - 1) size)
  else .ok mem

end CanonC

namespace Toolkit.Store.Buffer

open CanonC

variable {α : Type} {size d cap i n : Nat} {mem : TypedMemory α} {xs : List α}

/-- Elements in the capacity have fewer bytes than a `usize` can count. -/
theorem bytes_lt {data : Option Nat} (h : mem.Buffer size data cap xs) (hn : n ≤ cap) :
    n * size < usizeSize := by
  have hbytes := h.bytes_le
  have hle : n * size ≤ cap * size := Nat.mul_le_mul_right _ hn
  unfold ptrdiffMax at hbytes
  unfold usizeSize
  omega

private theorem move_tail (h : mem.Buffer size (some d) cap xs) (hsize : 0 < size) {dest src : Nat}
    (hdest : dest ≤ xs.length) (hn : 0 < xs.length - src) (hle : dest + (xs.length - src) ≤ cap) :
    ∃ mem', memMoveElems size mem ⟨d, dest⟩ ⟨d, src⟩ (usizeMul (xs.length - src) size) = .ok mem' ∧
      mem'.Buffer size (some d) cap (splice xs dest (xs.drop src)) ∧ mem.Keeps mem' (some d) := by
  have hread := @Store.Buffer.read _ _ _ _ _ _ _ h src (xs.length - src) (by omega)
  rw [List.take_of_length_le (by simp)] at hread
  obtain ⟨mem', hwrite, hnew, hkeeps⟩ := h.write (xs.drop src) hdest
    (by simp only [List.length_drop]; omega)
  refine ⟨mem', ?_, hnew, hkeeps⟩
  have hlength := h.length_le
  rw [memMoveElems_eq _ _ _ hsize hn (h.bytes_lt (by omega)), Store.move, hread, ok_bind, hwrite]

/-- An element is inserted: the tail is moved one on and the gap filled. -/
theorem insert (h : mem.Buffer size (some d) cap xs) (hsize : 0 < size)
    (hroom : xs.length + 1 ≤ cap) (hi : i ≤ xs.length) (value : α) :
    ∃ mem' mem'', shiftElems size mem (some d) xs.length i = .ok mem' ∧
      mem'.write size ⟨d, i⟩ [value] = .ok mem'' ∧
      mem''.Buffer size (some d) cap (xs.insertIdx i value) ∧ mem.Keeps mem'' (some d) := by
  obtain ⟨mem', hshift, hbuffer, hkeeps⟩ : ∃ mem',
      shiftElems size mem (some d) xs.length i = .ok mem' ∧
      mem'.Buffer size (some d) cap (splice xs (i + 1) (xs.drop i)) ∧
      mem.Keeps mem' (some d) := by
    unfold shiftElems
    by_cases hlast : i < xs.length
    · rw [if_pos hlast]
      exact h.move_tail hsize (show i + 1 ≤ xs.length from hlast) (by omega) (by omega)
    · obtain rfl : i = xs.length := by omega
      rw [if_neg hlast]
      refine ⟨mem, rfl, ?_, Keeps.refl _ _⟩
      rw [List.drop_length, splice, List.take_of_length_le (Nat.le_succ _),
        List.drop_eq_nil_of_le (by simp), List.append_nil, List.append_nil]
      exact h
  have hlen : (splice xs (i + 1) (xs.drop i)).length =
      xs.length + (if i < xs.length then 1 else 0) := by
    simp only [splice, List.length_append, List.length_take, List.length_drop]
    split <;> omega
  obtain ⟨mem'', hwrite, hnew, hkeeps'⟩ := hbuffer.write [value]
    (show i ≤ (splice xs (i + 1) (xs.drop i)).length by omega)
    (show i + 1 ≤ cap by omega)
  rw [splice_insert hi] at hnew
  exact ⟨mem', mem'', hshift, hwrite, hnew, hkeeps.trans hkeeps' fun _ h => Or.inl h⟩

/-- An element is removed: the tail behind it is moved onto it. -/
theorem close (h : mem.Buffer size (some d) cap xs) (hsize : 0 < size) (hi : i < xs.length) :
    ∃ mem', closeElems size mem (some d) xs.length i = .ok mem' ∧
      mem'.Buffer size (some d) cap (xs.eraseIdx i) ∧ mem.Keeps mem' (some d) := by
  have hlength := h.length_le
  unfold closeElems
  by_cases hlast : i < xs.length - 1
  · rw [if_pos hlast]
    obtain ⟨mem', hmove, hnew, hkeeps⟩ := h.move_tail hsize (Nat.le_of_lt hi)
      (show 0 < xs.length - (i + 1) by omega) (by omega)
    have htake := hnew.take (xs.length - 1)
    rw [splice_erase hi] at htake
    exact ⟨mem', hmove, htake, hkeeps⟩
  · rw [if_neg hlast]
    have htake := h.take (xs.length - 1)
    have herase : xs.take (xs.length - 1) = xs.eraseIdx i := by
      obtain rfl : i = xs.length - 1 := by omega
      rw [List.eraseIdx_eq_take_drop_succ, List.drop_eq_nil_of_le (by omega), List.append_nil]
    rw [herase] at htake
    exact ⟨mem, rfl, htake, Keeps.refl _ _⟩

end Toolkit.Store.Buffer
