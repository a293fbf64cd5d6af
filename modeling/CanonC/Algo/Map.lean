import CanonC.Core.Pool.Stale
import CanonC.Core.Slice

/-!
# Mapping over arrays in memory

The callback gets the addresses of the elements, so that arrays that overlap are allowed where no
element is written over before it is read. A callback that reads its element and then writes its
output acts there on each element as it was before the call.
-/

namespace CanonC

open Toolkit

/-- `algo_map_fn`: what becomes of memory, given the addresses of the output and of the input. -/
abbrev AlgoMapFn : Type := Nat → Nat → Memory → Memory

/-- `algo_map_inplace_fn`. -/
abbrev AlgoMapInplaceFn : Type := Nat → Memory → Memory

/-- The loop of `algo_map` over the elements left from index `i` on. -/
def algoMapLoop (out base outElemSize inElemSize : Nat) (fn : AlgoMapFn) :
    Nat → Nat → Memory → Except String Memory
  | 0, _, mem => .ok mem
  | left + 1, i, mem => do
    let o ← ptrElem out i outElemSize
    let p ← ptrElemConst base i inElemSize
    algoMapLoop out base outElemSize inElemSize fn left (i + 1) (fn o p mem)

/-- `algo_map`. -/
def algoMap (out base len outElemSize inElemSize : Nat) (fn : Option AlgoMapFn) (mem : Memory) :
    Except String Memory := do
  requireMsg (out ≠ 0) "algo_map: out cannot be NULL"
  requireMsg (base ≠ 0) "algo_map: in cannot be NULL"
  match fn with
  | none => .error "algo_map: fn cannot be NULL"
  | some fn => do
    requireMsg (0 < outElemSize) "algo_map: out_elem_size must be > 0"
    requireMsg (0 < inElemSize) "algo_map: in_elem_size must be > 0"
    algoMapLoop out base outElemSize inElemSize fn len 0 mem

/-- The loop of `algo_map_inplace`. -/
def algoMapInplaceLoop (base elemSize : Nat) (fn : AlgoMapInplaceFn) :
    Nat → Nat → Memory → Except String Memory
  | 0, _, mem => .ok mem
  | left + 1, i, mem => do
    let p ← ptrElem base i elemSize
    algoMapInplaceLoop base elemSize fn left (i + 1) (fn p mem)

/-- `algo_map_inplace`. -/
def algoMapInplace (base len elemSize : Nat) (fn : Option AlgoMapInplaceFn) (mem : Memory) :
    Except String Memory := do
  requireMsg (base ≠ 0) "algo_map_inplace: base cannot be NULL"
  match fn with
  | none => .error "algo_map_inplace: fn cannot be NULL"
  | some fn => do
    requireMsg (0 < elemSize) "algo_map_inplace: elem_size must be > 0"
    algoMapInplaceLoop base elemSize fn len 0 mem

/-- The loop of `algo_map_slice`. -/
def algoMapSliceLoop (out base outElemSize inElemSize : Nat) (fn : AlgoMapFn) :
    Nat → Nat → Memory → Memory
  | 0, _, mem => mem
  | left + 1, i, mem =>
    algoMapSliceLoop out base outElemSize inElemSize fn left (i + 1)
      (fn (out + i * outElemSize) (base + i * inElemSize) mem)

/-- `algo_map_slice`, for elements of the given sizes. -/
def algoMapSlice (outElemSize inElemSize : Nat) (svOut svIn : SliceT) (fn : Option AlgoMapFn)
    (mem : Memory) : Except String Memory :=
  match fn with
  | none => .error "algo_map_slice: fn cannot be NULL"
  | some fn =>
    let len := if svOut.len < svIn.len then svOut.len else svIn.len
    .ok (algoMapSliceLoop svOut.ptr svIn.ptr outElemSize inElemSize fn len 0 mem)

/-- The loop of `algo_map_inplace_slice`. -/
def algoMapInplaceSliceLoop (base elemSize : Nat) (fn : AlgoMapInplaceFn) :
    Nat → Nat → Memory → Memory
  | 0, _, mem => mem
  | left + 1, i, mem =>
    algoMapInplaceSliceLoop base elemSize fn left (i + 1) (fn (base + i * elemSize) mem)

/-- `algo_map_inplace_slice`, for elements of the given size. -/
def algoMapInplaceSlice (elemSize : Nat) (sv : SliceT) (fn : Option AlgoMapInplaceFn)
    (mem : Memory) : Except String Memory :=
  match fn with
  | none => .error "algo_map_inplace_slice: fn cannot be NULL"
  | some fn => .ok (algoMapInplaceSliceLoop sv.ptr elemSize fn sv.len 0 mem)

/-- A callback that reads its element and then writes its output. -/
def elemFn (f : List UInt8 → List UInt8) (inElemSize : Nat) : AlgoMapFn := fun o p mem =>
  Cells.write mem o (f (Cells.read mem p inElemSize))

/-- The first elements of an array in memory. -/
def elementsAt (mem : Memory) (base elemSize n : Nat) : List (List UInt8) :=
  (List.range n).map fun i => Cells.read mem (base + i * elemSize) elemSize

/-- The outputs of the first elements, one behind the other. -/
def outputs (f : List UInt8 → List UInt8) (mem : Memory) (base inElemSize n : Nat) : List UInt8 :=
  (elementsAt mem base inElemSize n).flatMap f

/-- No element is written over, by the outputs of the ones before it, when it is read. -/
def ReadInTime (out base len outElemSize inElemSize : Nat) : Prop :=
  ∀ i, 0 < i → i < len →
    base + i * inElemSize + inElemSize ≤ out ∨ out + i * outElemSize ≤ base + i * inElemSize

/-- An array of elements in the address space. -/
structure ArrayAt (base len elemSize : Nat) : Prop where
  /-- The address is not NULL. -/
  pos : 0 < base
  /-- Elements are not empty. -/
  size_pos : 0 < elemSize
  /-- It ends in the address space. -/
  fits : base + len * elemSize ≤ usizeSize

/-- The function keeps the sizes of elements. -/
def ElemSized (inElemSize outElemSize : Nat) (f : List UInt8 → List UInt8) : Prop :=
  ∀ xs, xs.length = inElemSize → (f xs).length = outElemSize

section Loops

variable {out base len outElemSize inElemSize elemSize i left : Nat} {fn : AlgoMapFn}
  {f g : List UInt8 → List UInt8} {mem : Memory}

/-- An element of an array has an address. -/
theorem ArrayAt.elem_le (h : ArrayAt base len elemSize) (hi : i < len) :
    base + i * elemSize ≤ usizeMax := by
  have hmax := usizeMax_succ
  have hfits := h.fits
  have hsize := h.size_pos
  have hend : i * elemSize + elemSize ≤ len * elemSize := by
    rw [← Nat.succ_mul]
    exact Nat.mul_le_mul_right elemSize hi
  omega

/-- With the arrays in the address space the checks of the addresses pass. -/
theorem algoMapLoop_eq (hout : ArrayAt out len outElemSize) (hbase : ArrayAt base len inElemSize)
    (fn : AlgoMapFn) (mem : Memory) (hleft : i + left ≤ len) :
    algoMapLoop out base outElemSize inElemSize fn left i mem =
      .ok (algoMapSliceLoop out base outElemSize inElemSize fn left i mem) := by
  induction left generalizing i mem with
  | zero => rfl
  | succ left ih =>
    rw [algoMapLoop, algoMapSliceLoop, ptrElem_of_le hout.pos hout.size_pos
      (hout.elem_le (by omega)), ok_bind, ptrElemConst_of_le hbase.pos hbase.size_pos
      (hbase.elem_le (by omega)), ok_bind, ih _ (by omega)]

/-- Mapping in place is mapping an array onto itself. -/
theorem algoMapInplaceLoop_eq (hbase : ArrayAt base len elemSize) (fn : AlgoMapFn)
    (mem : Memory) (hleft : i + left ≤ len) :
    algoMapInplaceLoop base elemSize (fun p => fn p p) left i mem =
      .ok (algoMapSliceLoop base base elemSize elemSize fn left i mem) := by
  induction left generalizing i mem with
  | zero => rfl
  | succ left ih =>
    rw [algoMapInplaceLoop, algoMapSliceLoop, ptrElem_of_le hbase.pos hbase.size_pos
      (hbase.elem_le (by omega)), ok_bind, ih _ (by omega)]

/-- The loop in place is the loop from the array to itself. -/
theorem algoMapInplaceSliceLoop_eq (fn : AlgoMapFn) (left i : Nat) (mem : Memory) :
    algoMapInplaceSliceLoop base elemSize (fun p => fn p p) left i mem =
      algoMapSliceLoop base base elemSize elemSize fn left i mem := by
  induction left generalizing i mem with
  | zero => rfl
  | succ left ih => rw [algoMapInplaceSliceLoop, algoMapSliceLoop, ih]

/-- One more result behind the others. -/
theorem outputs_succ (f : List UInt8 → List UInt8) (mem : Memory) (base inElemSize n : Nat) :
    outputs f mem base inElemSize (n + 1) = outputs f mem base inElemSize n ++
      f (Cells.read mem (base + n * inElemSize) inElemSize) := by
  rw [outputs, elementsAt, List.range_succ, List.map_append, List.flatMap_append]
  exact congrArg _ (List.append_nil _)

/-- The results are as long as their elements together. -/
theorem ElemSized.length_outputs (hf : ElemSized inElemSize outElemSize f) (mem : Memory)
    (base n : Nat) : (outputs f mem base inElemSize n).length = n * outElemSize := by
  induction n with
  | zero => rw [Nat.zero_mul]; rfl
  | succ n ih => rw [outputs_succ, List.length_append, ih, hf _ Cells.length_read, Nat.succ_mul]

/-- In the round of an element that is read in time, its output goes behind the ones before. -/
theorem elemFn_round (hf : ElemSized inElemSize outElemSize f) (mem : Memory) (n : Nat)
    (hread : 0 < n → base + n * inElemSize + inElemSize ≤ out ∨
      out + n * outElemSize ≤ base + n * inElemSize) :
    elemFn f inElemSize (out + n * outElemSize) (base + n * inElemSize)
        (Cells.write mem out (outputs f mem base inElemSize n)) =
      Cells.write mem out (outputs f mem base inElemSize (n + 1)) := by
  have hlen := hf.length_outputs mem base n
  have hsame : Cells.read (Cells.write mem out (outputs f mem base inElemSize n))
      (base + n * inElemSize) inElemSize =
        Cells.read mem (base + n * inElemSize) inElemSize := by
    rcases Nat.eq_zero_or_pos n with rfl | hn
    · exact congrArg (Cells.read · _ _) Cells.write_nil
    · exact Cells.read_write_of_disjoint (by rw [hlen]; exact hread hn)
  have hjoin := @Cells.write_write_append _ mem out (outputs f mem base inElemSize n)
    (f (Cells.read mem (base + n * inElemSize) inElemSize)) [] (Nat.zero_le _)
  rw [List.append_nil, hlen] at hjoin
  rw [elemFn, hsame, outputs_succ, hjoin]

/-- Elements that are read in time are mapped as they were before the call. -/
theorem algoMapSliceLoop_spec (hf : ElemSized inElemSize outElemSize f)
    (hread : ReadInTime out base len outElemSize inElemSize) (mem : Memory)
    (hleft : i + left ≤ len) :
    algoMapSliceLoop out base outElemSize inElemSize (elemFn f inElemSize) left i
        (Cells.write mem out (outputs f mem base inElemSize i)) =
      Cells.write mem out (outputs f mem base inElemSize (i + left)) := by
  induction left generalizing i with
  | zero => rfl
  | succ left ih =>
    rw [algoMapSliceLoop, elemFn_round hf mem i fun hi => hread i hi (by omega), ih (by omega),
      Nat.add_assoc, Nat.add_comm 1]

/-- More rounds go on where the first ones stopped. -/
theorem algoMapSliceLoop_add (fn : AlgoMapFn) (m n i : Nat) (mem : Memory) :
    algoMapSliceLoop out base outElemSize inElemSize fn (m + n) i mem =
      algoMapSliceLoop out base outElemSize inElemSize fn n (i + m)
        (algoMapSliceLoop out base outElemSize inElemSize fn m i mem) := by
  induction m generalizing i mem with
  | zero => rw [Nat.zero_add]; rfl
  | succ m ih =>
    rw [Nat.succ_add, algoMapSliceLoop, ih, algoMapSliceLoop, Nat.add_assoc i, Nat.add_comm 1]

/-- The rounds left write behind the outputs of the ones before. -/
theorem algoMapSliceLoop_front (f : List UInt8 → List UInt8) (left i : Nat) (mem : Memory)
    {a : Nat} (ha : a < out + i * outElemSize) :
    algoMapSliceLoop out base outElemSize inElemSize (elemFn f inElemSize) left i mem a =
      mem a := by
  induction left generalizing i mem with
  | zero => rfl
  | succ left ih =>
    rw [algoMapSliceLoop, ih _ _ (by rw [Nat.succ_mul]; omega), elemFn]
    exact Cells.write_of_outside (.inl ha)

/-- The output of an element, found again. -/
theorem read_outputs (hf : ElemSized inElemSize outElemSize f) (mem : Memory) (hi : i < len) :
    Cells.read (Cells.write mem out (outputs f mem base inElemSize len)) (out + i * outElemSize)
      outElemSize = f (Cells.read mem (base + i * inElemSize) inElemSize) := by
  have hpre : ∀ {m n}, m ≤ n →
      outputs f mem base inElemSize m <+: outputs f mem base inElemSize n := by
    intro m n hmn
    induction hmn with
    | refl => exact List.prefix_rfl
    | step _ ih =>
      rw [outputs_succ]
      exact ih.trans (List.prefix_append _ _)
  have hall := @Cells.read_write_self _ mem out (outputs f mem base inElemSize len)
  have hthis := Cells.read_of_prefix (hall.symm ▸ hpre (Nat.succ_le_of_lt hi))
  rw [outputs_succ, List.length_append, Cells.read_add, hf.length_outputs,
    hf _ Cells.length_read] at hthis
  exact (List.append_inj hthis (by rw [Cells.length_read, hf.length_outputs])).2

/-- A callback that tells zeroes from anything else. -/
def zeroTest (outElemSize inElemSize : Nat) (xs : List UInt8) : List UInt8 :=
  List.replicate outElemSize (if xs = List.replicate inElemSize 0 then 1 else 2)

/-- The zero test gives elements of the size it is told. -/
theorem elemSized_zeroTest : ElemSized inElemSize outElemSize (zeroTest outElemSize inElemSize) :=
  fun _ _ => List.length_replicate

/-- What it writes for elements of zeroes. -/
theorem write_outputs_zeroTest (out base n : Nat) {k : Nat} (hk : k < n * outElemSize) :
    Cells.write (fun _ => 0) out
      (outputs (zeroTest outElemSize inElemSize) (fun _ => 0) base inElemSize n) (out + k) = 1 := by
  rw [← elemSized_zeroTest.length_outputs (fun _ => 0) base n] at hk
  rw [Cells.write_apply hk]
  obtain ⟨xs, hxs, hb⟩ := List.mem_flatMap.mp (List.getElem_mem hk)
  obtain ⟨j, -, rfl⟩ := List.mem_map.mp hxs
  have hzeros : Cells.read (fun _ => (0 : UInt8)) (base + j * inElemSize) inElemSize =
      List.replicate inElemSize 0 := by
    rw [Cells.read, List.map_const', List.length_range]
  rw [hzeros] at hb
  exact (List.mem_replicate.mp hb).2.trans (if_pos rfl)

/-- An element that meets these outputs does not read as zeroes. -/
theorem read_ne_zeroes {n i : Nat} (hout : 0 < outElemSize) (hin : 0 < inElemSize) (hn : 0 < n)
    (hstart : out < base + i * inElemSize + inElemSize)
    (hstop : base + i * inElemSize < out + n * outElemSize) :
    Cells.read (Cells.write (fun _ => 0) out
      (outputs (zeroTest outElemSize inElemSize) (fun _ => 0) base inElemSize n))
        (base + i * inElemSize) inElemSize ≠ List.replicate inElemSize 0 := by
  intro hread
  obtain ⟨k, l, hk, hl, hboth⟩ : ∃ k l, k < inElemSize ∧ l < n * outElemSize ∧
      base + i * inElemSize + k = out + l := by
    rcases Nat.le_total out (base + i * inElemSize) with hle | hle
    · exact ⟨0, base + i * inElemSize - out, hin, by omega, by omega⟩
    · exact ⟨out - (base + i * inElemSize), 0, by omega, Nat.mul_pos hn hout, by omega⟩
  have hzero := @Cells.getElem?_read _ (Cells.write (fun _ => 0) out
    (outputs (zeroTest outElemSize inElemSize) (fun _ => 0) base inElemSize n))
    (base + i * inElemSize) inElemSize k hk
  rw [hread, List.getElem?_replicate_of_lt hk, hboth, write_outputs_zeroTest out base n hl] at hzero
  cases hzero

/-- Where some element is not read in time there is a callback that sees an output. -/
theorem ReadInTime.of_spec (hout : 0 < outElemSize) (hin : 0 < inElemSize)
    (hspec : ∀ f, ElemSized inElemSize outElemSize f →
      ∀ mem, algoMapSliceLoop out base outElemSize inElemSize (elemFn f inElemSize) len 0 mem =
        Cells.write mem out (outputs f mem base inElemSize len)) :
    ReadInTime out base len outElemSize inElemSize := by
  by_contra hnot
  classical
  -- The first element that is written over too early.
  obtain ⟨i, hi, hmin⟩ : ∃ i, ¬ (0 < i → i < len → base + i * inElemSize + inElemSize ≤ out ∨
      out + i * outElemSize ≤ base + i * inElemSize) ∧ ∀ j < i, 0 < j → j < len →
        base + j * inElemSize + inElemSize ≤ out ∨
          out + j * outElemSize ≤ base + j * inElemSize := by
    have hex := not_forall.mp hnot
    exact ⟨Nat.find hex, Nat.find_spec hex, fun j hj => not_not.mp (Nat.find_min hex hj)⟩
  push Not at hi
  obtain ⟨hpos, hlt, hstart, hstop⟩ := hi
  obtain ⟨f, hf⟩ : ∃ f, f = zeroTest outElemSize inElemSize := ⟨_, rfl⟩
  have hsized : ElemSized inElemSize outElemSize f := hf ▸ elemSized_zeroTest
  obtain ⟨M, hM⟩ : ∃ M,
      M = Cells.write (fun _ => 0) out (outputs f (fun _ => 0) base inElemSize i) := ⟨_, rfl⟩
  have hfirst : algoMapSliceLoop out base outElemSize inElemSize (elemFn f inElemSize) i 0
      (fun _ => 0) = M := by
    have hspec' := algoMapSliceLoop_spec hsized (fun j hj hji => hmin j hji hj (hji.trans hlt))
      (fun _ => 0) (Nat.le_of_eq (Nat.zero_add i))
    rw [Nat.zero_add, ← hM] at hspec'
    exact (congrArg _ Cells.write_nil.symm).trans hspec'
  -- Its output should be ones and is twos.
  have htwo : f (Cells.read M (base + i * inElemSize) inElemSize) =
      List.replicate outElemSize 2 := by
    rw [hM, hf]
    exact congrArg _ (if_neg (read_ne_zeroes hout hin hpos hstart hstop))
  obtain ⟨left, rfl⟩ : ∃ left, len = i + (left + 1) := ⟨len - i - 1, by omega⟩
  have hone := @write_outputs_zeroTest outElemSize inElemSize out base (i + (left + 1)) _
    (Nat.mul_lt_mul_of_pos_right hlt hout)
  rw [← hf, ← hspec f hsized fun _ => 0, algoMapSliceLoop_add, Nat.zero_add, hfirst,
    algoMapSliceLoop, algoMapSliceLoop_front f _ _ _ (by rw [Nat.succ_mul]; omega), elemFn,
    htwo] at hone
  have hat := @Cells.write_apply _ M (out + i * outElemSize) (List.replicate outElemSize 2) 0
    (by rwa [List.length_replicate])
  rw [Nat.add_zero, List.getElem_replicate, hone] at hat
  cases hat

/-- In place every element is read in time. -/
theorem readInTime_self (base len elemSize : Nat) : ReadInTime base base len elemSize elemSize :=
  fun _ _ _ => .inr (Nat.le_refl _)

/-- All rounds over elements that are read in time. -/
theorem algoMapSliceLoop_all (hf : ElemSized inElemSize outElemSize f)
    (hread : ReadInTime out base len outElemSize inElemSize) (mem : Memory) :
    algoMapSliceLoop out base outElemSize inElemSize (elemFn f inElemSize) len 0 mem =
      Cells.write mem out (outputs f mem base inElemSize len) := by
  have hspec := algoMapSliceLoop_spec hf hread mem (Nat.le_of_eq (Nat.zero_add len))
  rw [Nat.zero_add] at hspec
  exact (congrArg _ Cells.write_nil.symm).trans hspec

/-- The checks of `algo_map` pass. -/
theorem algoMap_eq (hout : ArrayAt out len outElemSize) (hbase : ArrayAt base len inElemSize)
    (fn : AlgoMapFn) (mem : Memory) :
    algoMap out base len outElemSize inElemSize (some fn) mem =
      .ok (algoMapSliceLoop out base outElemSize inElemSize fn len 0 mem) := by
  rw [algoMap, decide_eq_true hout.pos.ne', requireMsg_true, ok_bind, decide_eq_true hbase.pos.ne',
    requireMsg_true, ok_bind]
  simp only [hout.size_pos, hbase.size_pos, decide_true, requireMsg_true, ok_bind]
  exact algoMapLoop_eq hout hbase fn mem (Nat.le_of_eq (Nat.zero_add len))

/-- Mapping in place replaces the elements by their outputs. -/
theorem algoMapInplace_eq (hbase : ArrayAt base len elemSize) (hf : ElemSized elemSize elemSize f)
    (mem : Memory) : algoMapInplace base len elemSize (some fun p => elemFn f elemSize p p) mem =
      .ok (Cells.write mem base (outputs f mem base elemSize len)) := by
  rw [algoMapInplace, decide_eq_true hbase.pos.ne', requireMsg_true, ok_bind]
  simp only [hbase.size_pos, decide_true, requireMsg_true, ok_bind]
  rw [algoMapInplaceLoop_eq hbase _ mem (Nat.le_of_eq (Nat.zero_add len)),
    algoMapSliceLoop_all hf (readInTime_self base len elemSize)]

/-- The outputs of outputs are those of the composed function. -/
theorem outputs_outputs (hf : ElemSized inElemSize outElemSize f) (g : List UInt8 → List UInt8)
    (mem : Memory) {n : Nat} (hn : n ≤ len) :
    outputs g (Cells.write mem out (outputs f mem base inElemSize len)) out outElemSize n =
      outputs (g ∘ f) mem base inElemSize n := by
  induction n with
  | zero => rfl
  | succ n ih => rw [outputs_succ, outputs_succ, ih (by omega), read_outputs hf mem (by omega)]; rfl

/-- A run written over one of the same length. -/
theorem write_write_same {xs ys : List UInt8} {p : Nat} (h : xs.length = ys.length) :
    Cells.write (Cells.write mem p xs) p ys = Cells.write mem p ys :=
  @Cells.write_write_append _ mem p [] ys xs (Nat.le_of_eq h)

end Loops

/-- For every two arrays, also ones that overlap: `algo_map` maps all elements as they were before
the call, under every callback that reads its element and then writes its output, and leaves the
rest of memory as it was, exactly when no element but the first is written over, by the outputs of
the ones before it, when its turn comes. The slice variant does the same for as many elements as
both slices have. In place this is always so: mapping in place and with the array as its own output
agree, and mapping with one function and then with another is mapping once with both. -/
theorem algoMap_in_time {out base len outElemSize inElemSize : Nat}
    (hout : ArrayAt out len outElemSize) (hbase : ArrayAt base len inElemSize) :
    ((∀ f, ElemSized inElemSize outElemSize f → ∀ mem,
        algoMap out base len outElemSize inElemSize (some (elemFn f inElemSize)) mem =
          .ok (Cells.write mem out (outputs f mem base inElemSize len))) ↔
      ReadInTime out base len outElemSize inElemSize) ∧
    (∀ fn mem m n, min m n = len → algoMapSlice outElemSize inElemSize ⟨out, m⟩ ⟨base, n⟩
        (some fn) mem = algoMap out base len outElemSize inElemSize (some fn) mem) ∧
    ∀ f g, ElemSized inElemSize inElemSize f → ElemSized inElemSize inElemSize g → ∀ mem,
      algoMapInplace base len inElemSize (some fun p => elemFn f inElemSize p p) mem =
          algoMap base base len inElemSize inElemSize (some (elemFn f inElemSize)) mem ∧
        algoMapInplaceSlice inElemSize ⟨base, len⟩ (some fun p => elemFn f inElemSize p p) mem =
          algoMap base base len inElemSize inElemSize (some (elemFn f inElemSize)) mem ∧
        (algoMapInplace base len inElemSize (some fun p => elemFn f inElemSize p p) mem >>=
            algoMapInplace base len inElemSize (some fun p => elemFn g inElemSize p p)) =
          algoMapInplace base len inElemSize (some fun p => elemFn (g ∘ f) inElemSize p p) mem := by
  have hin := readInTime_self base len inElemSize
  refine ⟨⟨fun h => ?_, fun hread f hf mem => ?_⟩, fun fn mem m n hmin => ?_,
    fun f g hf hg mem => ⟨?_, ?_, ?_⟩⟩
  · refine ReadInTime.of_spec hout.size_pos hbase.size_pos fun f hf mem => ?_
    have hall := h f hf mem
    rw [algoMap_eq hout hbase] at hall
    exact Except.ok.inj hall
  · rw [algoMap_eq hout hbase, algoMapSliceLoop_all hf hread]
  · have hlen : (if m < n then m else n) = len := by
      rw [← hmin]
      split <;> omega
    rw [algoMap_eq hout hbase, algoMapSlice, hlen]
  · rw [algoMapInplace_eq hbase hf, algoMap_eq hbase hbase, algoMapSliceLoop_all hf hin]
  · rw [algoMap_eq hbase hbase, algoMapInplaceSlice, algoMapInplaceSliceLoop_eq]
  · have hboth : ElemSized inElemSize inElemSize (g ∘ f) := fun xs hxs => hg _ (hf xs hxs)
    rw [algoMapInplace_eq hbase hf, ok_bind, algoMapInplace_eq hbase hg,
      algoMapInplace_eq hbase hboth, outputs_outputs hf g mem le_rfl, write_write_same]
    rw [hf.length_outputs, hboth.length_outputs]

/-- Two-byte elements onto one-byte ones at the same address are read in time, and the other way
round they are not. -/
theorem algoMap_in_time_sizes :
    (∀ f, ElemSized 2 1 f → ∀ mem, algoMap 4096 4096 3 1 2 (some (elemFn f 2)) mem =
      .ok (Cells.write mem 4096 (outputs f mem 4096 2 3))) ∧
    ¬ ∀ f, ElemSized 1 2 f → ∀ mem, algoMap 4096 4096 3 2 1 (some (elemFn f 1)) mem =
      .ok (Cells.write mem 4096 (outputs f mem 4096 1 3)) := by
  have hone : ArrayAt 4096 3 1 := ⟨by decide, by decide, by decide⟩
  have htwo : ArrayAt 4096 3 2 := ⟨by decide, by decide, by decide⟩
  refine ⟨(algoMap_in_time hone htwo).1.mpr fun i _ _ => .inr (by omega), fun h => ?_⟩
  rcases (algoMap_in_time htwo hone).1.mp h 1 (by decide) (by decide) with hlo | hhi
  · exact absurd hlo (by decide)
  · exact absurd hhi (by decide)

end CanonC
