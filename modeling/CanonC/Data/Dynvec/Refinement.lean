import CanonC.Data.Dynvec.Growth

/-!
# The growing vector is an unbounded list

Whatever the allocator answers, a call that succeeds acts on the list of the elements as it
should, and a call that fails changes nothing. No call reads or writes an object that is not
there, for each of them succeeds where its contract is kept.
-/

namespace CanonC

open Toolkit

variable {α : Type} {size : Nat} {s s' : DynvecState α} {xs : List α}

/-- The elements of the vector. -/
def DynvecState.elements (s : DynvecState α) : List α :=
  match s.vec.data with
  | none => []
  | some d =>
    match s.mem.objects d with
    | none => []
    | some a => Cells.read a.cells 0 s.vec.len

/-- The elements that the source of a call holds before it. -/
def DynvecOp.source (size : Nat) (s : DynvecState α) : DynvecOp α → List α
  | .extend (some p) count _ =>
    match s.mem.read size p count with
    | .ok ys => ys
    | .error _ => []
  | _ => []

/-- The arguments of the call make sense for the list. -/
def DynvecOp.accepts (xs : List α) : DynvecOp α → Prop
  | .pop out => out = true ∧ xs ≠ []
  | .set i _ => i.val < xs.length
  | .insert i _ _ => i.val ≤ xs.length
  | .remove i out => out = true ∧ i.val < xs.length
  | .extend src count _ => src.isSome = true ∧ xs.length + count ≤ usizeMax
  | _ => True

/-- The call needs no allocation. -/
def DynvecOp.Fits (cap : Nat) (xs : List α) : DynvecOp α → Prop
  | .push _ _ | .insert _ _ _ => xs.length < cap
  | .extend _ count _ => xs.length + count ≤ cap
  | .reserve minCap _ => minCap.val ≤ cap
  | .shrinkToFit _ => xs.length = cap ∨ xs = []
  | _ => True

/-- What a call that succeeds writes through `out` and makes of the list. -/
def DynvecOp.effect (xs ys : List α) : DynvecOp α → Option α × List α
  | .push value _ => (none, xs ++ [value])
  | .pop _ => (xs.getLast?, xs.dropLast)
  | .set i value => (none, xs.set i value)
  | .insert i value _ => (none, xs.insertIdx i value)
  | .remove i _ => (xs[i.val]?, xs.eraseIdx i)
  | .extend _ _ _ => (none, xs ++ ys)
  | .clear => (none, [])
  | .reserve _ _ | .shrinkToFit _ | .other _ => (none, xs)

/-- What a call answers and leaves. -/
structure DynvecOp.Outcome (size : Nat) (s : DynvecState α) (op : DynvecOp α) (o : DynvecOut α)
    (s' : DynvecState α) : Prop where
  /-- The vector holds its elements in an object of exactly its capacity. -/
  holds : s'.vec.Holds size s'.mem s'.elements
  /-- A call that succeeds acts on the list. -/
  done : o.ok = true → op.accepts s.elements ∧
    (o.out, s'.elements) = op.effect s.elements (op.source size s)
  /-- A call that fails changes nothing. -/
  refused : o.ok = false → o.out = none ∧ s' = s
  /-- A call that needs no allocation succeeds. -/
  fits : op.accepts s.elements → op.Fits s.vec.cap s.elements → o.ok = true
  /-- The vector leaves other objects alone. -/
  keeps : (∀ c, op ≠ .other c) → s.mem.Keeps s'.mem s.vec.data

/-- A vector holds no list but its elements. -/
theorem Dynvec.Holds.elements_eq (h : s.vec.Holds size s.mem xs) : s.elements = xs := by
  unfold DynvecState.elements
  cases hd : s.vec.data with
  | none =>
    have hle := h.buffer.length_le
    rw [h.buffer.null hd] at hle
    exact (List.length_eq_zero_iff.mp (Nat.le_zero.mp hle)).symm
  | some d =>
    obtain ⟨a, ha, -, hread⟩ := h.buffer.object d hd
    simp only [ha, h.len_eq, hread]

namespace DynvecOp.Outcome

variable {op : DynvecOp α}

/-- A refusal. -/
theorem of_refused (h : s.vec.Holds size s.mem xs)
    (hcall : dynvecCall size s op = .ok (⟨false, none⟩, s))
    (hfits : op.accepts xs → ¬ op.Fits s.vec.cap xs) :
    ∃ o s', dynvecCall size s op = .ok (o, s') ∧ op.Outcome size s o s' := by
  have hxs := h.elements_eq
  refine ⟨_, _, hcall, ⟨hxs.symm ▸ h, nofun, fun _ => ⟨rfl, rfl⟩, fun hacc hf => ?_,
    fun _ => Store.Keeps.refl _ _⟩⟩
  rw [hxs] at hacc hf
  exact absurd hf (hfits hacc)

/-- A success. -/
theorem of_done {out : Option α} {zs : List α} (h : s.vec.Holds size s.mem xs)
    (hcall : dynvecCall size s op = .ok (⟨true, out⟩, s')) (hacc : op.accepts xs)
    (holds : s'.vec.Holds size s'.mem zs) (heffect : (out, zs) = op.effect xs (op.source size s))
    (hkeeps : (∀ c, op ≠ .other c) → s.mem.Keeps s'.mem s.vec.data) :
    ∃ o s', dynvecCall size s op = .ok (o, s') ∧ op.Outcome size s o s' := by
  have hxs := h.elements_eq
  have hzs := holds.elements_eq
  refine ⟨_, _, hcall, ⟨hzs.symm ▸ holds, fun _ => ?_, nofun, fun _ _ => rfl, hkeeps⟩⟩
  rw [hxs, hzs]
  exact ⟨hacc, heffect⟩

end DynvecOp.Outcome

section Calls

private theorem dynvec_usizeAdd_len (h : s.vec.Holds size s.mem xs) (hsize : 0 < size) {n : Nat}
    (hn : n < usizeSize / 2) : usizeAdd s.vec.len n = s.vec.len + n := by
  have hcap := h.cap_lt hsize
  have hle := h.len_le
  unfold usizeSize at hn
  exact usizeAdd_of_lt (by unfold usizeSize; omega)

private theorem dynvecPush_outcome (h : s.vec.Holds size s.mem xs) (hsize : 0 < size) (value : α)
    (answer : Option (Grant α)) : ∃ o s', dynvecCall size s (.push value answer) = .ok (o, s') ∧
      (DynvecOp.push value answer).Outcome size s o s' := by
  have hlen := h.len_eq
  rcases dynvecGrowFull_spec h hsize answer with ⟨hno, hfull⟩ | ⟨mem', v', d, hyes, hgrown⟩
  · have hcall : dynvecCall size s (.push value answer) = .ok (⟨false, none⟩, s) := by
      simp only [dynvecCall, dynvecPush, hno, ok_bind]
      rfl
    refine DynvecOp.Outcome.of_refused h hcall fun _ hfits => ?_
    change xs.length < s.vec.cap at hfits
    omega
  · obtain ⟨mem'', hwrite, hbuffer, hkeeps⟩ :=
      hgrown.buffer.write [value] (Nat.le_refl _) hgrown.le_cap
    rw [splice_length] at hbuffer
    have hlen' : s.vec.len + 1 = (xs ++ [value]).length := by rw [hlen, List.length_append]; rfl
    obtain ⟨hholds, hkept⟩ := hgrown.holds hbuffer hkeeps hlen'
    have hcall : dynvecCall size s (.push value answer) =
        .ok (⟨true, none⟩, ⟨mem'', { v' with len := s.vec.len + 1 }⟩) := by
      simp only [dynvecCall, dynvecPush, hyes, ok_bind, Bool.not_true, Bool.false_eq_true, if_false,
        elemAt, hgrown.data_eq, hgrown.len_eq,
        dynvec_usizeAdd_len h hsize (show 1 < usizeSize / 2 by decide)]
      rw [hlen, hwrite]
      rfl
    exact DynvecOp.Outcome.of_done h hcall trivial hholds rfl fun _ => hkept

private theorem dynvecPop_outcome (h : s.vec.Holds size s.mem xs) (out : Bool) :
    ∃ o s', dynvecCall size s (.pop out) = .ok (o, s') ∧
      (DynvecOp.pop out).Outcome size s o s' := by
  have hlen := h.len_eq
  by_cases hno : (!out) = true ∨ s.vec.len = 0
  · have hcall : dynvecCall size s (.pop out) = .ok (⟨false, none⟩, s) := by
      simp only [dynvecCall, dynvecPop, if_pos hno]
      rfl
    refine DynvecOp.Outcome.of_refused h hcall ?_
    rintro ⟨rfl, hne⟩ -
    have hpos := List.length_pos_of_ne_nil hne
    rcases hno with hno | hno
    · cases hno
    · omega
  · rw [not_or] at hno
    obtain ⟨ys, x, rfl⟩ : ∃ ys x, xs = ys ++ [x] := by
      rcases List.eq_nil_or_concat' xs with rfl | ⟨ys, x, rfl⟩
      · exact absurd hlen hno.2
      · exact ⟨ys, x, rfl⟩
    have hlast : s.vec.len - 1 = ys.length := by rw [hlen, List.length_append]; rfl
    obtain ⟨d, hd, hbuffer⟩ := h.buffer.exists_object (by simp)
    have hread := @Store.Buffer.read _ _ _ _ _ _ _ hbuffer ys.length 1 (by simp)
    rw [List.drop_left] at hread
    have hcall : dynvecCall size s (.pop out) =
        .ok (⟨true, some x⟩, ⟨s.mem, { s.vec with len := s.vec.len - 1 }⟩) := by
      simp only [dynvecCall, dynvecPop, if_neg (not_or.mpr hno), elemAt, hd, ok_bind, hlast, hread]
      rfl
    have htake := h.buffer.take ys.length
    rw [List.take_left] at htake
    exact DynvecOp.Outcome.of_done h hcall ⟨by simpa using hno.1, by simp⟩
      (Dynvec.Holds.of_len htake hlast) (by simp [DynvecOp.effect]) fun _ => Store.Keeps.refl _ _

private theorem dynvecSet_outcome (h : s.vec.Holds size s.mem xs) (i : Usize) (value : α) :
    ∃ o s', dynvecCall size s (.set i value) = .ok (o, s') ∧
      (DynvecOp.set i value).Outcome size s o s' := by
  have hlen := h.len_eq
  by_cases hno : i.val ≥ s.vec.len
  · have hcall : dynvecCall size s (.set i value) = .ok (⟨false, none⟩, s) := by
      simp only [dynvecCall, dynvecSet, if_pos hno]
      rfl
    refine DynvecOp.Outcome.of_refused h hcall fun hacc => ?_
    change i.val < xs.length at hacc
    omega
  · have hi : i.val < xs.length := by omega
    obtain ⟨d, hd, hbuffer⟩ := h.buffer.exists_object (Nat.zero_lt_of_lt hi)
    obtain ⟨mem', hwrite, hnew, hkeeps⟩ := hbuffer.write [value] (Nat.le_of_lt hi)
      (Nat.le_trans hi h.buffer.length_le)
    rw [splice_singleton hi] at hnew
    have hcall : dynvecCall size s (.set i value) = .ok (⟨true, none⟩, ⟨mem', s.vec⟩) := by
      simp only [dynvecCall, dynvecSet, if_neg hno, elemAt, hd, ok_bind, hwrite]
    rw [← hd] at hnew hkeeps
    exact DynvecOp.Outcome.of_done h hcall hi ⟨hnew, hlen.trans List.length_set.symm⟩ rfl
      fun _ => hkeeps

private theorem dynvecInsert_outcome (h : s.vec.Holds size s.mem xs) (hsize : 0 < size) (i : Usize)
    (value : α) (answer : Option (Grant α)) :
    ∃ o s', dynvecCall size s (.insert i value answer) = .ok (o, s') ∧
      (DynvecOp.insert i value answer).Outcome size s o s' := by
  have hlen := h.len_eq
  by_cases hout : i.val > s.vec.len
  · have hcall : dynvecCall size s (.insert i value answer) = .ok (⟨false, none⟩, s) := by
      simp only [dynvecCall, dynvecInsert, if_pos hout]
      rfl
    refine DynvecOp.Outcome.of_refused h hcall fun hacc => ?_
    change i.val ≤ xs.length at hacc
    omega
  · have hi : i.val ≤ xs.length := by omega
    rcases dynvecGrowFull_spec h hsize answer with ⟨hno, hfull⟩ | ⟨mem₁, v', d, hyes, hgrown⟩
    · have hcall : dynvecCall size s (.insert i value answer) = .ok (⟨false, none⟩, s) := by
        simp only [dynvecCall, dynvecInsert, if_neg hout, hno, ok_bind]
        rfl
      refine DynvecOp.Outcome.of_refused h hcall fun _ hfits => ?_
      change xs.length < s.vec.cap at hfits
      omega
    · obtain ⟨mem₂, mem₃, hshift, hwrite, hbuffer, hkeeps⟩ := hgrown.buffer.insert hsize
        hgrown.le_cap hi value
      have hlen' : s.vec.len + 1 = (xs.insertIdx i value).length := by
        rw [hlen, List.length_insertIdx_of_le_length hi]
      obtain ⟨hholds, hkept⟩ := hgrown.holds hbuffer hkeeps hlen'
      have hcall : dynvecCall size s (.insert i value answer) =
          .ok (⟨true, none⟩, ⟨mem₃, { v' with len := s.vec.len + 1 }⟩) := by
        rw [hlen] at hout
        simp only [dynvecCall, dynvecInsert, if_neg hout, hyes, ok_bind, Bool.not_true,
          Bool.false_eq_true, if_false, hgrown.data_eq, hgrown.len_eq, hlen, hshift, elemAt, hwrite]
        rw [← hlen, dynvec_usizeAdd_len h hsize (show 1 < usizeSize / 2 by decide)]
      exact DynvecOp.Outcome.of_done h hcall hi hholds rfl fun _ => hkept

private theorem dynvecRemove_outcome (h : s.vec.Holds size s.mem xs) (hsize : 0 < size) (i : Usize)
    (out : Bool) : ∃ o s', dynvecCall size s (.remove i out) = .ok (o, s') ∧
      (DynvecOp.remove i out).Outcome size s o s' := by
  have hlen := h.len_eq
  by_cases hno : (!out) = true ∨ i.val ≥ s.vec.len
  · have hcall : dynvecCall size s (.remove i out) = .ok (⟨false, none⟩, s) := by
      simp only [dynvecCall, dynvecRemove, if_pos hno]
      rfl
    refine DynvecOp.Outcome.of_refused h hcall ?_
    rintro ⟨rfl, hi⟩ -
    rcases hno with hno | hno
    · cases hno
    · omega
  · rw [not_or] at hno
    have hi : i.val < xs.length := by omega
    obtain ⟨d, hd, hbuffer⟩ := h.buffer.exists_object (Nat.zero_lt_of_lt hi)
    have hread := @Store.Buffer.read _ _ _ _ _ _ _ hbuffer i 1 hi
    have hget : xs[i.val]? = some xs[i.val] := List.getElem?_eq_getElem hi
    rw [List.drop_eq_getElem_cons hi] at hread
    obtain ⟨mem', hclose, hnew, hkeeps⟩ := hbuffer.close hsize hi
    have hlen' : s.vec.len - 1 = (xs.eraseIdx i).length := by
      rw [hlen, List.length_eraseIdx_of_lt hi]
    have hcall : dynvecCall size s (.remove i out) =
        .ok (⟨true, xs[i.val]?⟩, ⟨mem', { s.vec with len := s.vec.len - 1 }⟩) := by
      rw [hlen] at hno
      simp only [dynvecCall, dynvecRemove, if_neg (not_or.mpr hno), elemAt, hd, ok_bind, hread,
        hlen, hclose, hget]
      rfl
    rw [← hd] at hnew hkeeps
    exact DynvecOp.Outcome.of_done h hcall ⟨by simpa using hno.1, hi⟩
      (Dynvec.Holds.of_len hnew hlen') rfl fun _ => hkeeps

private theorem DynvecOp.source_zero {p : Pointer} {count : Usize} {answer : Option (Grant α)}
    (hzero : count.val = 0) : (DynvecOp.extend (some p) count answer).source size s = [] := by
  simp only [DynvecOp.source, hzero]
  cases hr : s.mem.read size p 0 with
  | error e => rfl
  | ok ys => exact Store.read_zero hr

/-- The elements of a source are appended, unless the growth that they take is refused. -/
private theorem dynvecExtend_spec {mem : TypedMemory α} {v : Dynvec} {p : Pointer} {ys : List α}
    (h : v.Holds size mem xs) (hsize : 0 < size)
    (hsrc : ElemSource size mem v.data v.len p ys) (hpos : 0 < ys.length)
    (hword : ys.length < usizeSize) (answer : Option (Grant α)) :
    (dynvecExtend size mem v (some p) ys.length answer = .ok (mem, v, false) ∧
      v.cap < xs.length + ys.length) ∨
    ∃ mem' v', dynvecExtend size mem v (some p) ys.length answer = .ok (mem', v', true) ∧
      xs.length + ys.length ≤ usizeMax ∧ v'.Holds size mem' (xs ++ ys) ∧ mem.Keeps mem' v.data := by
  have hmax := usizeMax_succ
  have hadd := checkedAdd_eq (h.length_lt hsize) hword
  rw [dynvecExtend, if_neg (Nat.ne_of_gt hpos), h.len_eq, hadd]
  by_cases hover : xs.length + ys.length < usizeSize
  · rw [if_pos hover]
    rcases dynvecGrowFor_spec h hsize hsrc hpos answer with
      ⟨hno, hfull⟩ | ⟨mem₁, v', d, src, hyes, hgrown, hsrc'⟩
    · refine Or.inl ⟨?_, hfull⟩
      simp only [hno, ok_bind]
      rfl
    · rw [h.len_eq] at hsrc'
      obtain ⟨mem₂, hcopy, hbuffer, hkeeps⟩ :=
        hsrc'.copy hgrown.buffer hsize hpos (Nat.le_refl _) hgrown.le_cap
      rw [splice_length] at hbuffer
      obtain ⟨hholds, hkept⟩ := hgrown.holds hbuffer hkeeps List.length_append.symm
      refine Or.inr ⟨mem₂, { v' with len := xs.length + ys.length }, ?_, by omega, hholds, hkept⟩
      simp only [hyes, ok_bind, Bool.not_true, Bool.false_eq_true, if_false, elemAt,
        hgrown.data_eq, hgrown.len_eq, h.len_eq, hcopy, usizeAdd_of_lt hover]
  · rw [if_neg hover]
    have hcap : v.cap < usizeSize := Nat.lt_trans (h.cap_lt hsize) (by decide)
    exact Or.inl ⟨rfl, by omega⟩

private theorem dynvecExtend_outcome (h : s.vec.Holds size s.mem xs) (hsize : 0 < size)
    (src : Option Pointer) (count : Usize) (answer : Option (Grant α))
    (hallows : s.allows size (.extend src count answer) = true) :
    ∃ o s', dynvecCall size s (.extend src count answer) = .ok (o, s') ∧
      (DynvecOp.extend src count answer).Outcome size s o s' := by
  cases src with
  | none => exact DynvecOp.Outcome.of_refused h rfl fun hacc => by cases hacc.1
  | some p =>
    by_cases hzero : count.val = 0
    · have hcall : dynvecCall size s (.extend (some p) count answer) = .ok (⟨true, none⟩, s) := by
        simp only [dynvecCall, dynvecExtend, if_pos hzero]
        rfl
      have hlen := h.length_lt hsize
      have hmax := usizeMax_succ
      refine DynvecOp.Outcome.of_done h hcall ⟨rfl, ?_⟩ h ?_ fun _ => Store.Keeps.refl _ _
      · rw [hzero]
        omega
      · rw [DynvecOp.effect, DynvecOp.source_zero hzero, List.append_nil]
    · obtain ⟨ys, hys, hsrc⟩ := h.source (p := p) (n := count) (by simpa [DynvecState.allows, hzero]
        using hallows)
      have hread : (DynvecOp.extend (some p) count answer).source size s = ys := by
        simp only [DynvecOp.source, ← hys, hsrc.read_eq]
      rcases dynvecExtend_spec h hsize hsrc (by omega) (hys ▸ count.isLt) answer with
        ⟨hno, hfull⟩ | ⟨mem', v', hyes, hword, hholds, hkeeps⟩
      · rw [hys] at hno hfull
        have hcall : dynvecCall size s (.extend (some p) count answer) =
            .ok (⟨false, none⟩, s) := by
          simp only [dynvecCall, hno, ok_bind]
        refine DynvecOp.Outcome.of_refused h hcall fun _ hfits => ?_
        exact absurd hfits (Nat.not_le.mpr hfull)
      · rw [hys] at hyes hword
        have hcall : dynvecCall size s (.extend (some p) count answer) =
            .ok (⟨true, none⟩, ⟨mem', v'⟩) := by
          simp only [dynvecCall, hyes, ok_bind]
        refine DynvecOp.Outcome.of_done h hcall ⟨rfl, hword⟩ hholds ?_ fun _ => hkeeps
        rw [DynvecOp.effect, hread]

private theorem dynvecReserve_outcome (h : s.vec.Holds size s.mem xs) (minCap : Usize)
    (answer : Option (Grant α)) : ∃ o s', dynvecCall size s (.reserve minCap answer) = .ok (o, s') ∧
      (DynvecOp.reserve minCap answer).Outcome size s o s' := by
  by_cases hroom : s.vec.cap ≥ minCap.val
  · have hcall : dynvecCall size s (.reserve minCap answer) = .ok (⟨true, none⟩, s) := by
      simp only [dynvecCall, dynvecReserve, if_pos hroom]
      rfl
    exact DynvecOp.Outcome.of_done h hcall trivial h rfl fun _ => Store.Keeps.refl _ _
  · have hle := h.buffer.length_le
    rcases dynvecGrow_spec (n := minCap) h (by omega) answer with hno | ⟨mem', v', d, hyes, hgrown⟩
    · have hcall : dynvecCall size s (.reserve minCap answer) = .ok (⟨false, none⟩, s) := by
        simp only [dynvecCall, dynvecReserve, if_neg hroom, hno, ok_bind]
      exact DynvecOp.Outcome.of_refused h hcall fun _ hfits => hroom hfits
    · have hcall : dynvecCall size s (.reserve minCap answer) = .ok (⟨true, none⟩, ⟨mem', v'⟩) := by
        simp only [dynvecCall, dynvecReserve, if_neg hroom, hyes, ok_bind]
      obtain ⟨hholds, hkept⟩ := hgrown.holds hgrown.buffer (Store.Keeps.refl _ _)
        (hgrown.len_eq.trans h.len_eq)
      exact DynvecOp.Outcome.of_done h hcall trivial hholds rfl fun _ => hkept

private theorem dynvecShrink_outcome (h : s.vec.Holds size s.mem xs) (answer : Option (Grant α)) :
    ∃ o s', dynvecCall size s (.shrinkToFit answer) = .ok (o, s') ∧
      (DynvecOp.shrinkToFit answer).Outcome size s o s' := by
  have hlen := h.len_eq
  by_cases hfull : s.vec.len = s.vec.cap
  · have hcall : dynvecCall size s (.shrinkToFit answer) = .ok (⟨true, none⟩, s) := by
      simp only [dynvecCall, dynvecShrinkToFit, if_pos hfull]
      rfl
    exact DynvecOp.Outcome.of_done h hcall trivial h rfl fun _ => Store.Keeps.refl _ _
  · by_cases hempty : s.vec.len = 0
    · obtain ⟨mem', hfree, hkeeps⟩ := h.buffer.free
      obtain rfl : xs = [] := List.length_eq_zero_iff.mp (by omega)
      have hcall : dynvecCall size s (.shrinkToFit answer) =
          .ok (⟨true, none⟩, ⟨mem', { s.vec with data := none, cap := 0 }⟩) := by
        simp only [dynvecCall, dynvecShrinkToFit, if_neg hfull, if_pos hempty, hfree, ok_bind]
      have hholds : Dynvec.Holds size mem' { s.vec with data := none, cap := 0 } ([] : List α) :=
        ⟨⟨fun _ => rfl, nofun, Nat.le_refl 0⟩, hempty⟩
      exact DynvecOp.Outcome.of_done h hcall trivial hholds rfl fun _ => hkeeps
    · have hbytes := h.buffer.bytes_lt h.len_le
      rcases h.buffer.realloc xs.length (Nat.le_refl _) answer with
        hno | ⟨mem', d, hyes, hbuffer, hkeeps, -⟩
      · have hcall : dynvecCall size s (.shrinkToFit answer) = .ok (⟨false, none⟩, s) := by
          simp only [dynvecCall, dynvecShrinkToFit, if_neg hfull, if_neg hempty,
            usizeMul_of_lt hbytes]
          rw [hlen, hno]
          rfl
        refine DynvecOp.Outcome.of_refused h hcall fun _ hfits => ?_
        rcases hfits with hfits | rfl
        · omega
        · exact hempty hlen
      · have hcall : dynvecCall size s (.shrinkToFit answer) =
            .ok (⟨true, none⟩, ⟨mem', { s.vec with data := some d, cap := s.vec.len }⟩) := by
          simp only [dynvecCall, dynvecShrinkToFit, if_neg hfull, if_neg hempty,
            usizeMul_of_lt hbytes]
          rw [hlen, hyes]
          rfl
        refine DynvecOp.Outcome.of_done h hcall trivial ⟨?_, hlen⟩ rfl fun _ => hkeeps
        rw [← hlen] at hbuffer
        exact hbuffer

private theorem dynvecOther_outcome (h : s.vec.Holds size s.mem xs) (c : Store.Call α)
    (hallows : s.allows size (.other c) = true) :
    ∃ o s', dynvecCall size s (.other c) = .ok (o, s') ∧
      (DynvecOp.other c).Outcome size s o s' := by
  simp only [DynvecState.allows, Bool.and_eq_true, Bool.or_eq_true, decide_eq_true_eq, bne_iff_ne]
    at hallows
  obtain ⟨htarget, hok⟩ := hallows
  cases hmem : s.mem.call size c with
  | error e =>
    rw [hmem] at hok
    cases hok
  | ok mem' =>
    have hcall : dynvecCall size s (.other c) = .ok (⟨true, none⟩, ⟨mem', s.vec⟩) := by
      simp only [dynvecCall, hmem, ok_bind]
    have hkeeps : s.mem.Keeps mem' c.target := fun i a hi ha =>
      Store.objects_call hmem ha (Ne.symm hi)
    have hbuffer : mem'.Buffer size s.vec.data s.vec.cap xs := by
      refine h.buffer.of_keeps hkeeps fun d hd heq => ?_
      rcases htarget with hnone | hne
      · rw [hnone] at heq
        cases heq
      · exact hne (heq.symm.trans hd.symm)
    exact DynvecOp.Outcome.of_done h hcall trivial ⟨hbuffer, h.len_eq⟩ rfl
      fun hother => absurd rfl (hother c)

/-- Every call that keeps to its contract is answered, with an outcome as specified. -/
theorem dynvecStep_outcome (h : s.vec.Holds size s.mem xs) (hsize : 0 < size) (op : DynvecOp α)
    (hallows : s.allows size op = true) :
    ∃ o s', dynvecStep size s op = .ok (o, s') ∧ op.Outcome size s o s' := by
  rw [dynvecStep, if_pos hallows]
  cases op with
  | push value answer => exact dynvecPush_outcome h hsize value answer
  | pop out => exact dynvecPop_outcome h out
  | set i value => exact dynvecSet_outcome h i value
  | insert i value answer => exact dynvecInsert_outcome h hsize i value answer
  | remove i out => exact dynvecRemove_outcome h hsize i out
  | extend src count answer => exact dynvecExtend_outcome h hsize src count answer hallows
  | reserve minCap answer => exact dynvecReserve_outcome h minCap answer
  | shrinkToFit answer => exact dynvecShrink_outcome h answer
  | clear =>
    refine DynvecOp.Outcome.of_done h rfl trivial ⟨?_, rfl⟩ rfl fun _ => Store.Keeps.refl _ _
    exact h.buffer.take 0
  | other c => exact dynvecOther_outcome h c hallows

end Calls

/-- A new vector is empty and its object has exactly its capacity. -/
theorem dynvecWithCapacity_holds (size : Nat) (mem : TypedMemory α) (capacity : Nat)
    (answer : Option (Grant α)) :
    (dynvecWithCapacity size mem capacity answer).2.Holds size
      (dynvecWithCapacity size mem capacity answer).1 [] := by
  have hinit (mem : TypedMemory α) : dynvecInit.Holds size mem [] :=
    ⟨⟨fun _ => rfl, nofun, Nat.le_refl 0⟩, rfl⟩
  unfold dynvecWithCapacity
  split
  · exact hinit mem
  · cases hmul : checkedMul capacity size with
    | none => exact hinit mem
    | some bytes =>
      obtain ⟨-, rfl⟩ := checkedMul_eq_some.mp hmul
      rcases Store.Buffer.malloc mem size capacity answer with hno | ⟨mem', d, hyes, hbuffer, -⟩
      · simp only [hno]
        exact hinit mem
      · simp only [hyes]
        exact ⟨hbuffer, rfl⟩

/-- What the vector holds in the states of a run. -/
theorem dynvecStep_holds {op : DynvecOp α} {o : DynvecOut α} (hsize : 0 < size)
    (h : ∃ xs, s.vec.Holds size s.mem xs) (hstep : dynvecStep size s op = .ok (o, s')) :
    ∃ xs, s'.vec.Holds size s'.mem xs := by
  obtain ⟨xs, hxs⟩ := h
  have hallows : s.allows size op = true := by
    unfold dynvecStep at hstep
    split at hstep
    · assumption
    · cases hstep
  obtain ⟨o', t, hstep', houtcome⟩ := dynvecStep_outcome hxs hsize op hallows
  rw [hstep'] at hstep
  obtain ⟨rfl, rfl⟩ := Prod.mk.inj (Except.ok.inj hstep)
  exact ⟨_, houtcome.holds⟩

/-- In every state that a run from an empty vector reaches, whatever the allocator answers, the
object of the elements has exactly the bytes of the capacity, and every call that keeps to its
contract is answered without a fault and acts on the elements as on an unbounded list. -/
theorem dynvec_refines_list {mem : TypedMemory α} {capacity : Usize} {answer : Option (Grant α)}
    {ops : List (DynvecOp α)} {os : List (DynvecOut α)} (hsize : 0 < size)
    (hrun : run (dynvecStep size) (dynvecStart size mem capacity answer) ops = .ok (os, s)) :
    (dynvecStart size mem capacity answer).elements = [] ∧
    s.vec.len ≤ s.vec.cap ∧ (s.vec.data = none → s.vec.cap = 0) ∧
    (∀ d, s.vec.data = some d → ∃ a, s.mem.objects d = some a ∧
      a.range.size = s.vec.cap * size) ∧
    ∀ op, s.allows size op = true →
      ∃ o s', dynvecStep size s op = .ok (o, s') ∧ op.Outcome size s o s' := by
  have hnew := dynvecWithCapacity_holds size mem capacity answer
  obtain ⟨xs, hxs⟩ := run_invariant (fun t op o t' ht hstep => dynvecStep_holds hsize ht hstep)
    (show ∃ xs, (dynvecStart size mem capacity answer).vec.Holds size
      (dynvecStart size mem capacity answer).mem xs from ⟨[], hnew⟩) hrun
  refine ⟨Dynvec.Holds.elements_eq hnew, hxs.len_le, hxs.buffer.null, fun d hd => ?_,
    dynvecStep_outcome hxs hsize⟩
  obtain ⟨a, ha, hbytes, -⟩ := hxs.buffer.object d hd
  exact ⟨a, ha, hbytes⟩

/-- A vector of two elements is extended by itself while the allocator moves it; a refused push then
changes nothing, and the shrunk vector moves onto its old place. -/
theorem dynvec_refines_list_self : ∃ (os : List (DynvecOut Nat)) (s : DynvecState Nat),
    run (dynvecStep 4) (dynvecStart 4 (Store.empty _ _) (2 : Usize) (some ⟨1000, fun _ => 0⟩))
      [.push 5 none, .push 6 none, .extend (some ⟨0, 0⟩) 2 (some ⟨2000, fun _ => 9⟩),
        .push 7 none, .insert 1 8 (some ⟨3000, fun _ => 9⟩), .remove 0 true,
        .shrinkToFit (some ⟨1000, fun _ => 9⟩)] = .ok (os, s) ∧
      s.elements = [8, 6, 5, 6] ∧ s.vec.len ≤ s.vec.cap := by
  obtain ⟨os, s, hrun, helements⟩ : ∃ os s,
      run (dynvecStep 4) (dynvecStart 4 (Store.empty _ _) (2 : Usize) (some ⟨1000, fun _ => 0⟩))
        [.push 5 none, .push 6 none, .extend (some ⟨0, 0⟩) 2 (some ⟨2000, fun _ => 9⟩),
          .push 7 none, .insert 1 8 (some ⟨3000, fun _ => 9⟩), .remove 0 true,
          .shrinkToFit (some ⟨1000, fun _ => 9⟩)] = .ok (os, s) ∧
        s.elements = [8, 6, 5, 6] := ⟨_, _, rfl, rfl⟩
  exact ⟨os, s, hrun, helements, (dynvec_refines_list (show 0 < 4 by decide) hrun).2.1⟩

end CanonC
