import CanonC.Data.Dynvec.Model

/-!
# The vector keeps its list when it grows

Whatever the allocator answers, a growth leaves everything as it was or gives the vector
room in an object of exactly the computed size. A source among the elements moves along.
-/

namespace CanonC

open Toolkit

variable {α : Type} {size : Nat} {mem mem' : TypedMemory α} {v v' : Dynvec} {xs ys : List α}
  {n d : Nat} {answer : Option (Grant α)}

/-- The vector holds the list. -/
structure Dynvec.Holds (size : Nat) (mem : TypedMemory α) (v : Dynvec) (xs : List α) : Prop where
  /-- Its object has exactly the capacity and starts with the list. -/
  buffer : mem.Buffer size v.data v.cap xs
  /-- The number of elements. -/
  len_eq : v.len = xs.length

/-- What of the elements does not depend on the capacity. -/
theorem Dynvec.Holds.of_len {mem : TypedMemory α} {v : Dynvec} {zs : List α} {len : Nat}
    (h : mem.Buffer size v.data v.cap zs) (hlen : len = zs.length) :
    Dynvec.Holds size mem { v with len } zs := ⟨h, hlen⟩

/-- The vector holds the same list in an object with room for `n` elements, and every other object
is kept. -/
structure Dynvec.Grown (size : Nat) (mem : TypedMemory α) (v : Dynvec) (xs : List α) (n : Nat)
    (mem' : TypedMemory α) (v' : Dynvec) (d : Nat) : Prop where
  /-- The object of the elements. -/
  data_eq : v'.data = some d
  /-- It holds the list. -/
  buffer : mem'.Buffer size (some d) v'.cap xs
  /-- The number of elements is the same. -/
  len_eq : v'.len = v.len
  /-- There is room. -/
  le_cap : n ≤ v'.cap
  /-- The other objects are kept. -/
  keeps : mem.Keeps mem' v.data
  /-- The object is the one there was or a new one. -/
  fresh : v.data = some d ∨ mem.objects d = none

namespace Dynvec

/-- The slots of a vector can be counted. -/
theorem Holds.cap_lt (h : v.Holds size mem xs) (hsize : 0 < size) : v.cap < 2 ^ 63 := by
  have hbytes := h.buffer.bytes_le
  have hle : v.cap * 1 ≤ v.cap * size := Nat.mul_le_mul_left _ hsize
  unfold ptrdiffMax at hbytes
  omega

/-- The elements lie in the slots. -/
theorem Holds.len_le (h : v.Holds size mem xs) : v.len ≤ v.cap := by
  rw [h.len_eq]
  exact h.buffer.length_le

/-- The elements can be counted. -/
theorem Holds.length_lt (h : v.Holds size mem xs) (hsize : 0 < size) : xs.length < usizeSize := by
  have hcap := h.cap_lt hsize
  have hle := h.buffer.length_le
  unfold usizeSize
  omega

/-- A vector that has room is its own growth. -/
theorem Holds.grown_self (h : v.Holds size mem xs) (hn : n ≤ v.cap) (hpos : 0 < n) :
    ∃ d, v.Grown size mem xs n mem v d := by
  cases hd : v.data with
  | none =>
    have hcap := h.buffer.null hd
    omega
  | some d =>
    have hbuffer := h.buffer
    rw [hd] at hbuffer
    exact ⟨d, hd, hbuffer, rfl, hn, Store.Keeps.refl mem _, Or.inl hd⟩

/-- After a change of the object the vector holds what it holds. -/
theorem Grown.holds {zs : List α} {mem'' : TypedMemory α} {len : Nat}
    (h : v.Grown size mem xs n mem' v' d) (hbuffer : mem''.Buffer size (some d) v'.cap zs)
    (hkeeps : mem'.Keeps mem'' (some d)) (hlen : len = zs.length) :
    Holds size mem'' { v' with len } zs ∧ mem.Keeps mem'' v.data := by
  refine ⟨⟨?_, hlen⟩, h.keeps.trans hkeeps fun d' hd' => ?_⟩
  · change mem''.Buffer size v'.data v'.cap zs
    rwa [h.data_eq]
  · obtain rfl := Option.some.inj hd'
    exact h.fresh

end Dynvec

/-- A growth is refused and changes nothing, or gives room. -/
theorem dynvecGrow_spec (h : v.Holds size mem xs) (hn : xs.length ≤ n)
    (answer : Option (Grant α)) : dynvecGrow size mem v n answer = .ok (mem, v, false) ∨
    ∃ mem' v' d, dynvecGrow size mem v n answer = .ok (mem', v', true) ∧
      v.Grown size mem xs n mem' v' d := by
  unfold dynvecGrow
  extract_lets doubled newCap
  have hle : n ≤ newCap := by
    by_cases hlt : doubled < n
    · exact Nat.le_of_eq (if_pos hlt).symm
    · exact Nat.le_trans (Nat.le_of_not_lt hlt) (Nat.le_of_eq (if_neg hlt).symm)
  cases hmul : checkedMul newCap size with
  | none => exact Or.inl rfl
  | some bytes =>
    obtain ⟨-, rfl⟩ := checkedMul_eq_some.mp hmul
    simp only
    rcases h.buffer.realloc newCap (Nat.le_trans hn hle) answer with
      hno | ⟨mem', d, hok, hbuf, hkeep, hd⟩
    · left
      rw [hno, ok_bind]
    · right
      rw [hok, ok_bind]
      exact ⟨mem', _, d, rfl, rfl, hbuf, rfl, hle, hkeep, Or.inr hd⟩

/-- The growth of a full vector before one more element. -/
theorem dynvecGrowFull_spec (h : v.Holds size mem xs) (hsize : 0 < size)
    (answer : Option (Grant α)) :
    (dynvecGrowFull size mem v answer = .ok (mem, v, false) ∧ v.len = v.cap) ∨
    ∃ mem' v' d, dynvecGrowFull size mem v answer = .ok (mem', v', true) ∧
      v.Grown size mem xs (xs.length + 1) mem' v' d := by
  have hlen := h.len_eq
  have hle := h.len_le
  have hcap := h.cap_lt hsize
  unfold dynvecGrowFull
  by_cases hfull : v.len ≥ v.cap
  · rw [if_pos hfull, usizeAdd_of_lt (by unfold usizeSize; omega), hlen]
    rcases dynvecGrow_spec h (Nat.le_succ _) answer with hno | hyes
    · exact Or.inl ⟨hno, by omega⟩
    · exact Or.inr hyes
  · rw [if_neg hfull]
    obtain ⟨d, hd⟩ := h.grown_self (n := xs.length + 1) (by omega) (Nat.succ_pos _)
    exact Or.inr ⟨mem, v, d, rfl, hd⟩

/-- What a caller may extend the vector with is a source. -/
theorem Dynvec.Holds.source (h : v.Holds size mem xs) {p : Pointer}
    (hallows : (if some p.object = v.data then decide (p.index + n ≤ v.len)
      else mem.covers size p n) = true) :
    ∃ ys, ys.length = n ∧ ElemSource size mem v.data v.len p ys := by
  rw [h.len_eq] at hallows ⊢
  exact ElemSource.of_readable h.buffer hallows

/-- The address test finds exactly the sources among the elements. -/
theorem dynvec_inside (h : v.Holds size mem xs) (hsize : 0 < size) {src : Pointer}
    (hsrc : ElemSource size mem v.data v.len src ys) (hys : 0 < ys.length) :
    ∃ s b, mem.address size src = .ok s ∧ dynvecAddress size mem v = .ok b ∧
      (some src.object = v.data → s - b = src.index * size ∧ b ≤ s ∧ s - b < v.cap * size) ∧
      (v.data.isSome → some src.object ≠ v.data → ¬ (b ≤ s ∧ s - b < v.cap * size)) := by
  obtain ⟨a, ha, hle⟩ := Store.covers_iff.mp hsrc.covers
  have hs : mem.address size src = .ok (a.range.start + src.index * size) := by
    rw [Store.address, ha]
  have hpos : size ≤ ys.length * size := Nat.le_mul_of_pos_left size hys
  cases hd : v.data with
  | none =>
    exact ⟨_, 0, hs, by rw [dynvecAddress, hd], fun heq => (by cases heq),
      fun hsome => by cases hsome⟩
  | some d =>
    obtain ⟨b, hb, hbsize, -⟩ := h.buffer.object d hd
    refine ⟨_, b.range.start, hs, ?_, fun hown => ?_, fun _ hother => ?_⟩
    · simp only [dynvecAddress, hd, Store.address, hb, Nat.zero_mul, Nat.add_zero]
    · have hlive := hsrc.live (hown.trans hd.symm)
      have hcap := h.len_le
      rw [Option.some.inj hown, hb] at ha
      obtain rfl := Option.some.inj ha
      have hlt : (src.index + 1) * size ≤ v.cap * size :=
        Nat.mul_le_mul_right _ (by omega)
      rw [Nat.add_mul] at hlt
      omega
    · have hne : src.object ≠ d := fun heq => hother (congrArg some heq)
      have hapart := Store.address_apart (q := ⟨d, 0⟩) (m := v.cap) ha hb hne hle
        (Nat.le_of_eq (by rw [hbsize, Nat.zero_add]))
      simp only [Nat.zero_mul, Nat.add_zero] at hapart
      omega

/-- The growth moves a source among the elements, which keeps its index. -/
theorem Dynvec.Grown.moved_source (hgrown : v.Grown size mem xs n mem' v' d)
    (h : v.Holds size mem xs) {src : Pointer}
    (hsrc : ElemSource size mem v.data v.len src ys) (hin : some src.object = v.data) :
    ElemSource size mem' (some d) v.len ⟨d, src.index⟩ ys := by
  have hlive := hsrc.live hin
  rw [h.len_eq] at hlive ⊢
  have hys : ys = (xs.drop src.index).take ys.length := by
    have hread := hsrc.read_eq
    have hbuffer := h.buffer
    obtain ⟨object, index⟩ := src
    rw [← hin] at hbuffer
    rw [hbuffer.read hlive] at hread
    exact (Except.ok.inj hread).symm
  have hmoved := @ElemSource.of_buffer _ _ _ _ _ _ _ ⟨d, src.index⟩ hgrown.buffer rfl hlive
  rwa [← hys] at hmoved

/-- The growth keeps a source in another object. -/
theorem Dynvec.Grown.kept_source (hgrown : v.Grown size mem xs n mem' v' d) {src : Pointer}
    (hsrc : ElemSource size mem v.data v.len src ys) (hother : some src.object ≠ v.data) :
    ElemSource size mem' (some d) v.len src ys := by
  have hne : some src.object ≠ some d := by
    rcases hgrown.fresh with hsame | hfresh
    · rwa [← hsame]
    · obtain ⟨a, ha, -⟩ := Store.covers_iff.mp hsrc.covers
      intro heq
      rw [Option.some.inj heq, hfresh] at ha
      cases ha
  exact hsrc.of_keeps hgrown.keeps hother fun heq => absurd heq hne

/-- The growth before an extension: where the elements move, a source among them moves along. -/
theorem dynvecGrowFor_spec (h : v.Holds size mem xs) (hsize : 0 < size) {src : Pointer}
    (hsrc : ElemSource size mem v.data v.len src ys) (hys : 0 < ys.length)
    (answer : Option (Grant α)) :
    (dynvecGrowFor size mem v src (xs.length + ys.length) answer = .ok (mem, v, false, src) ∧
      v.cap < xs.length + ys.length) ∨
    ∃ mem' v' d src',
      dynvecGrowFor size mem v src (xs.length + ys.length) answer = .ok (mem', v', true, src') ∧
        v.Grown size mem xs (xs.length + ys.length) mem' v' d ∧
        ElemSource size mem' (some d) v.len src' ys := by
  unfold dynvecGrowFor
  by_cases hneed : xs.length + ys.length > v.cap
  · obtain ⟨s, b, hs, hb, hown, hother⟩ := dynvec_inside h hsize hsrc hys
    have hbytes := usizeMul_of_lt (h.buffer.bytes_lt (Nat.le_refl v.cap))
    have hgrow := dynvecGrow_spec (n := xs.length + ys.length) h (Nat.le_add_right _ _) answer
    simp only [if_pos hneed, hs, hb, ok_bind, hbytes]
    by_cases hin : some src.object = v.data
    · -- The source is among the elements and is found again at the same index.
      obtain ⟨hoff, hle, hlt⟩ := hown hin
      have hsome : v.data.isSome = true := by rw [← hin]; rfl
      simp only [hsome, hle, hlt, decide_true, Bool.and_self, if_true]
      rw [hoff, Nat.mul_div_cancel _ hsize]
      rcases hgrow with hno | ⟨mem', v', d, hyes, hgrown⟩
      · left
        simp [hno, hneed]
      · right
        refine ⟨mem', v', d, ⟨d, src.index⟩, ?_, hgrown, hgrown.moved_source h hsrc hin⟩
        simp [hyes, elemAt, hgrown.data_eq]
    · -- The source is in another object, which the growth keeps.
      have hinside : (v.data.isSome && decide (s ≥ b) && decide (s - b < v.cap * size)) =
          false := by
        cases hsome : v.data.isSome with
        | false => rfl
        | true =>
          have hnot := hother hsome hin
          rw [Bool.true_and, ← Bool.decide_and, decide_eq_false_iff_not]
          exact hnot
      simp only [hinside, Bool.and_false, Bool.false_eq_true, if_false]
      rcases hgrow with hno | ⟨mem', v', d, hyes, hgrown⟩
      · left
        simp [hno, hneed]
      · right
        refine ⟨mem', v', d, src, ?_, hgrown, hgrown.kept_source hsrc hin⟩
        simp [hyes]
  · obtain ⟨d, hd⟩ := h.grown_self (n := xs.length + ys.length) (by omega) (by omega)
    right
    rw [if_neg hneed]
    have hsame := hd.data_eq
    exact ⟨mem, v, d, src, rfl, hd, hsame ▸ hsrc⟩

end CanonC
