import CanonC.Algo.Sort.Model
import CanonC.Toolkit.StableSort
import Mathlib.Data.List.Induction

/-!
# Both paths of the sort compute the stable sort

Each loop is described on an array split into what it leaves alone and the part it
works on. Any relation between input and output that inserting one element and merging
two adjacent parts keep holds of the part sorted, so one induction serves stability,
under a total preorder, and rearrangement, under any comparator, also one that changes
its context and with it its answers.
-/

namespace CanonC

open Toolkit

variable {α Ctx : Type*} {cmp : AlgoCmpProc α Ctx} {I : Ctx → Prop} {may : α → α → Bool → Prop}
  {ctx : Ctx} {elemSize : Nat} {P : List α → List α → Prop}

section Insertion

/-- An exchange of neighbours. -/
theorem algoSortSwap_append (hsize : elemSize ≤ algoSortSwapBufSize) {a b : List α} {x y : α}
    {j : Nat} (hj : j = a.length) :
    algoSortSwap (a ++ y :: x :: b) j (j + 1) elemSize = .ok (a ++ x :: y :: b) := by
  have hr₁ : readElem (a ++ y :: x :: b) j = .ok y := readElem_append hj
  have hw₁ : writeElem (a ++ y :: x :: b) j x = .ok (a ++ x :: x :: b) := writeElem_append hj
  have hsplit (z : α) : a ++ z :: x :: b = (a ++ [z]) ++ x :: b := by simp
  have hr₂ : readElem (a ++ y :: x :: b) (j + 1) = .ok x := by
    rw [hsplit]
    exact readElem_append (by simp [hj])
  have hw₂ : writeElem (a ++ x :: x :: b) (j + 1) y = .ok (a ++ x :: y :: b) := by
    rw [hsplit, writeElem_append (by simp [hj])]
    simp
  simp only [algoSortSwap, decide_eq_true hsize, requireMsg_true, ok_bind, hr₁, hr₂, hw₁, hw₂]

/-- The inner loop moves the element before those that are after it. -/
theorem algoInsertionInner_spec (hcmp : cmp.Answers I may) (hsize : elemSize ≤ algoSortSwapBufSize)
    (pre : List α) (x : α) (s : List α) : ∀ (post : List α) {ctx : Ctx}, I ctx → ∃ a b ctx',
      s = a ++ b ∧ algoInsertionInner cmp elemSize pre.length (pre.length + s.length)
        (pre ++ s ++ x :: post) ctx = .ok (pre ++ (a ++ x :: b) ++ post, ctx') ∧
      (∀ y ∈ b, may y x false) ∧ (∀ y ∈ a.getLast?, may y x true) ∧ I ctx' := by
  induction s using List.reverseRecOn with
  | nil =>
    intro post ctx hctx
    refine ⟨[], [], ctx, rfl, ?_, by simp, by simp, hctx⟩
    cases pre with
    | nil => rfl
    | cons p pre => simp [algoInsertionInner]
  | append_singleton s y ih =>
    intro post ctx hctx
    have hanswer := hcmp.answer hctx y x
    have hkeep := hcmp.keep hctx y x
    have hlen : pre.length + (s ++ [y]).length = (pre ++ s).length + 1 := by
      simp only [List.length_append, List.length_singleton]
      omega
    have hbase : pre ++ (s ++ [y]) ++ x :: post = (pre ++ s) ++ y :: x :: post := by simp
    have hlt : pre.length < (pre ++ s).length + 1 := by
      simp only [List.length_append]
      omega
    have hry : readElem ((pre ++ s) ++ y :: x :: post) (pre ++ s).length = .ok y :=
      readElem_append rfl
    have hrx : readElem ((pre ++ s) ++ y :: x :: post) ((pre ++ s).length + 1) = .ok x := by
      rw [show (pre ++ s) ++ y :: x :: post = (pre ++ s ++ [y]) ++ x :: post by simp]
      exact readElem_append (by simp [Nat.add_assoc])
    rw [hlen, hbase]
    by_cases hle : (cmp y x ctx).1 ≤ 0
    · rw [decide_eq_true hle] at hanswer
      refine ⟨s ++ [y], [], (cmp y x ctx).2, by simp, ?_, by simp, by simpa using hanswer, hkeep⟩
      simp only [algoInsertionInner, if_pos hlt, hry, hrx, if_pos hle]
      simp
    · rw [decide_eq_false hle] at hanswer
      obtain ⟨a, b, ctx', rfl, hloop, hb, ha, hctx'⟩ := ih (y :: post) hkeep
      refine ⟨a, b ++ [y], ctx', by simp, ?_, ?_, ha, hctx'⟩
      · simp only [algoInsertionInner, if_pos hlt, hry, hrx, if_neg hle,
          algoSortSwap_append hsize rfl]
        rw [List.length_append, hloop]
        simp
      · intro z hz
        rcases List.mem_append.mp hz with hz | hz
        · exact hb z hz
        · rwa [List.mem_singleton.mp hz]

/-- The outer loop extends the sorted part to the end of the range. -/
theorem algoInsertionOuter_spec (hcmp : cmp.Answers I may) (hP : SortRule may P)
    (hsize : elemSize ≤ algoSortSwapBufSize) (pre post rest : List α) :
    ∀ (l o : List α) {ctx : Ctx}, I ctx → P l o → o.length = l.length → ∃ o' ctx',
      algoInsertionOuter cmp elemSize pre.length (pre.length + (o.length + rest.length))
        (pre.length + o.length) (pre ++ o ++ rest ++ post) ctx = .ok (pre ++ o' ++ post, ctx') ∧
      P (l ++ rest) o' ∧ o'.length = (l ++ rest).length ∧ I ctx' := by
  induction rest with
  | nil =>
    intro l o ctx hctx h hlen
    refine ⟨o, ctx, ?_, by simpa using h, by simpa using hlen, hctx⟩
    rw [algoInsertionOuter, if_neg (by simp)]
    simp
  | cons x rest ih =>
    intro l o ctx hctx h hlen
    obtain ⟨a, b, ctx₁, rfl, hloop, hb, ha, hctx₁⟩ :=
      algoInsertionInner_spec hcmp hsize pre x o (rest ++ post) hctx
    obtain ⟨o', ctx₂, hok, hP', hlen', hctx₂⟩ :=
      ih (l ++ [x]) (a ++ x :: b) hctx₁ (hP.insert h hb ha)
        (by simp only [List.length_append, List.length_cons, List.length_nil] at hlen ⊢; omega)
    refine ⟨o', ctx₂, ?_, by simpa using hP', by simpa using hlen', hctx₂⟩
    have hbase : pre ++ (a ++ b) ++ x :: rest ++ post = pre ++ (a ++ b) ++ x :: (rest ++ post) := by
      simp
    rw [algoInsertionOuter, if_pos (by simp), hbase, hloop, ok_bind, ← List.append_assoc]
    have hi : pre.length + (a ++ b).length + 1 = pre.length + (a ++ x :: b).length := by
      simp only [List.length_append, List.length_cons]
      omega
    have hright : pre.length + ((a ++ b).length + (x :: rest).length) =
        pre.length + ((a ++ x :: b).length + rest.length) := by
      simp only [List.length_append, List.length_cons]
      omega
    rw [hi, hright]
    exact hok

/-- Insertion sort of a range. -/
theorem algoInsertionSortRange_spec (hcmp : cmp.Answers I may) (hP : SortRule may P)
    (hsize : elemSize ≤ algoSortSwapBufSize) (pre l post : List α) (hctx : I ctx) :
    ∃ o ctx', algoInsertionSortRange (pre ++ l ++ post) pre.length (pre.length + l.length) elemSize
        cmp ctx = .ok (pre ++ o ++ post, ctx') ∧ P l o ∧ o.length = l.length ∧ I ctx' := by
  cases l with
  | nil =>
    refine ⟨[], ctx, ?_, hP.nil, rfl, hctx⟩
    rw [algoInsertionSortRange, algoInsertionOuter, if_neg (by simp)]
  | cons x l =>
    obtain ⟨o, ctx', hok, hPo, hlen, hctx'⟩ :=
      algoInsertionOuter_spec hcmp hP hsize pre post l [x] [x] hctx (hP.singleton x) rfl
    refine ⟨o, ctx', ?_, hPo, hlen, hctx'⟩
    rw [algoInsertionSortRange, ← hok]
    simp [Nat.add_comm]

end Insertion

section Merge

/-- A round of the first loop takes from the left half when its element may stand first. -/
theorem algoMergeBoth_left {base L R p₁ q₁ p₂ q₂ : List α} {x y : α}
    (h₁ : base = p₁ ++ (x :: L) ++ q₁) (h₂ : base = p₂ ++ (y :: R) ++ q₂)
    (hle : (cmp x y ctx).1 ≤ 0) (out rest : List α) (z : α) :
    algoMergeBoth cmp base (p₁.length + (x :: L).length) (p₂.length + (y :: R).length)
        p₁.length p₂.length out.length (out ++ z :: rest) ctx =
      algoMergeBoth cmp base ((p₁ ++ [x]).length + L.length) (p₂.length + (y :: R).length)
        (p₁ ++ [x]).length p₂.length (out ++ [x]).length ((out ++ [x]) ++ rest)
        (cmp x y ctx).2 := by
  have hmid : (p₁ ++ [x]).length + L.length = p₁.length + (x :: L).length := by
    simp only [List.length_append, List.length_cons, List.length_nil]
    omega
  rw [algoMergeBoth, if_pos (by simp), hmid, List.length_append, List.length_append]
  simp only [readElem_front h₁, readElem_front h₂, if_pos hle, writeElem_push,
    List.length_singleton]

/-- Otherwise it takes from the right half. -/
theorem algoMergeBoth_right {base L R p₁ q₁ p₂ q₂ : List α} {x y : α}
    (h₁ : base = p₁ ++ (x :: L) ++ q₁) (h₂ : base = p₂ ++ (y :: R) ++ q₂)
    (hgt : ¬ (cmp x y ctx).1 ≤ 0) (out rest : List α) (z : α) :
    algoMergeBoth cmp base (p₁.length + (x :: L).length) (p₂.length + (y :: R).length)
        p₁.length p₂.length out.length (out ++ z :: rest) ctx =
      algoMergeBoth cmp base (p₁.length + (x :: L).length) ((p₂ ++ [y]).length + R.length)
        p₁.length (p₂ ++ [y]).length (out ++ [y]).length ((out ++ [y]) ++ rest)
        (cmp x y ctx).2 := by
  have hright : (p₂ ++ [y]).length + R.length = p₂.length + (y :: R).length := by
    simp only [List.length_append, List.length_cons, List.length_nil]
    omega
  rw [algoMergeBoth, if_pos (by simp), hright, List.length_append, List.length_append]
  simp only [readElem_front h₁, readElem_front h₂, if_neg hgt, writeElem_push,
    List.length_singleton]

/-- The first loop of the merge, begun behind `p₁` and `p₂`, moves `m` out and leaves the rest of
the halves and of the scratch buffer. -/
structure MergesBoth (cmp : AlgoCmpProc α Ctx) (may : α → α → Bool → Prop) (ctx ctx' : Ctx)
    (base p₁ L q₁ p₂ R q₂ out rest m p₁' L' p₂' R' rest' : List α) : Prop where
  /-- What is left of the left half. -/
  left : base = p₁' ++ L' ++ q₁
  /-- What is left of the right half. -/
  right : base = p₂' ++ R' ++ q₂
  /-- The left half keeps its end. -/
  left_stop : p₁'.length + L'.length = p₁.length + L.length
  /-- The right half keeps its end. -/
  right_stop : p₂'.length + R'.length = p₂.length + R.length
  run : algoMergeBoth cmp base (p₁.length + L.length) (p₂.length + R.length) p₁.length p₂.length
    out.length (out ++ rest) ctx =
      .ok (p₁'.length, p₂'.length, (out ++ m).length, (out ++ m) ++ rest', ctx')
  /-- The scratch buffer keeps its length. -/
  room : m.length + rest'.length = rest.length
  /-- What was moved out and what is left make up the merge. -/
  merge : Merges may L R (m ++ L' ++ R')

namespace MergesBoth

variable {base p₁ L q₁ p₂ R q₂ out rest m p₁' L' p₂' R' rest' : List α} {x y : α} {ctx' : Ctx}

/-- No element is lost. -/
theorem length_eq
    (h : MergesBoth cmp may ctx ctx' base p₁ L q₁ p₂ R q₂ out rest m p₁' L' p₂' R' rest') :
    m.length + L'.length + R'.length = L.length + R.length := by
  rw [← h.merge.length_eq, List.length_append, List.length_append]

/-- The loop ends when one half is used up. -/
theorem done (h₁ : base = p₁ ++ L ++ q₁) (h₂ : base = p₂ ++ R ++ q₂) (hend : L = [] ∨ R = []) :
    MergesBoth cmp may ctx ctx base p₁ L q₁ p₂ R q₂ out rest [] p₁ L p₂ R rest := by
  have hstop : ¬ (p₁.length < p₁.length + L.length ∧ p₂.length < p₂.length + R.length) := by
    rcases hend with rfl | rfl <;> simp
  refine ⟨h₁, h₂, rfl, rfl, ?_, Nat.zero_add _, ?_⟩
  · rw [algoMergeBoth, if_neg hstop, List.append_nil]
  · rcases hend with rfl | rfl
    · exact .nil_left
    · rw [List.nil_append, List.append_nil]
      exact .nil_right

/-- A round before the others that takes from the left half. -/
theorem take_left (h₁ : base = p₁ ++ (x :: L) ++ q₁) (h₂ : base = p₂ ++ (y :: R) ++ q₂)
    (hle : (cmp x y ctx).1 ≤ 0) (hmay : may x y true) (z : α)
    (h : MergesBoth cmp may (cmp x y ctx).2 ctx' base (p₁ ++ [x]) L q₁ p₂ (y :: R) q₂ (out ++ [x])
      rest m p₁' L' p₂' R' rest') :
    MergesBoth cmp may ctx ctx' base p₁ (x :: L) q₁ p₂ (y :: R) q₂ out (z :: rest) (x :: m) p₁' L'
      p₂' R' rest' := by
  have hstop := h.left_stop
  have hroom := h.room
  rw [List.length_append, List.length_singleton] at hstop
  refine ⟨h.left, h.right, ?_, h.right_stop, ?_, ?_, ?_⟩
  · rw [List.length_cons]
    omega
  · rw [algoMergeBoth_left h₁ h₂ hle, h.run, List.append_assoc out, List.singleton_append]
  · rw [List.length_cons, List.length_cons]
    omega
  · exact .left hmay h.merge

/-- A round before the others that takes from the right half. -/
theorem take_right (h₁ : base = p₁ ++ (x :: L) ++ q₁) (h₂ : base = p₂ ++ (y :: R) ++ q₂)
    (hgt : ¬ (cmp x y ctx).1 ≤ 0) (hmay : may x y false) (z : α)
    (h : MergesBoth cmp may (cmp x y ctx).2 ctx' base p₁ (x :: L) q₁ (p₂ ++ [y]) R q₂ (out ++ [y])
      rest m p₁' L' p₂' R' rest') :
    MergesBoth cmp may ctx ctx' base p₁ (x :: L) q₁ p₂ (y :: R) q₂ out (z :: rest) (y :: m) p₁' L'
      p₂' R' rest' := by
  have hstop := h.right_stop
  have hroom := h.room
  rw [List.length_append, List.length_singleton] at hstop
  refine ⟨h.left, h.right, h.left_stop, ?_, ?_, ?_, ?_⟩
  · rw [List.length_cons]
    omega
  · rw [algoMergeBoth_right h₁ h₂ hgt, h.run, List.append_assoc out, List.singleton_append]
  · rw [List.length_cons, List.length_cons]
    omega
  · exact .right hmay h.merge

end MergesBoth

/-- The first loop of the merge moves elements of both halves out until one half is
used up. -/
theorem algoMergeBoth_spec (hcmp : cmp.Answers I may) (base : List α) (n : Nat) :
    ∀ (L R p₁ q₁ p₂ q₂ out rest : List α) {ctx : Ctx}, I ctx → L.length + R.length = n →
      base = p₁ ++ L ++ q₁ → base = p₂ ++ R ++ q₂ → n ≤ rest.length →
      ∃ m p₁' L' p₂' R' rest' ctx',
        MergesBoth cmp may ctx ctx' base p₁ L q₁ p₂ R q₂ out rest m p₁' L' p₂' R' rest' ∧
          I ctx' := by
  induction n with
  | zero =>
    intro L R p₁ q₁ p₂ q₂ out rest ctx hctx hn h₁ h₂ _
    have hnil : L = [] := List.length_eq_zero_iff.mp (by omega)
    exact ⟨_, _, _, _, _, _, ctx, MergesBoth.done h₁ h₂ (Or.inl hnil), hctx⟩
  | succ n ih =>
    intro L R p₁ q₁ p₂ q₂ out rest ctx hctx hn h₁ h₂ hrest
    cases L with
    | nil => exact ⟨_, _, _, _, _, _, ctx, MergesBoth.done h₁ h₂ (Or.inl rfl), hctx⟩
    | cons x L =>
      cases R with
      | nil => exact ⟨_, _, _, _, _, _, ctx, MergesBoth.done h₁ h₂ (Or.inr rfl), hctx⟩
      | cons y R =>
        obtain ⟨z, rest, rfl⟩ := List.exists_cons_of_length_pos (Nat.zero_lt_of_lt hrest)
        simp only [List.length_cons] at hn hrest
        have hanswer := hcmp.answer hctx x y
        have hkeep := hcmp.keep hctx x y
        by_cases hle : (cmp x y ctx).1 ≤ 0
        · rw [decide_eq_true hle] at hanswer
          obtain ⟨m, p₁', L', p₂', R', rest', ctx', h, hctx'⟩ :=
            ih L (y :: R) (p₁ ++ [x]) q₁ p₂ q₂ (out ++ [x]) rest hkeep
              (by rw [List.length_cons]; omega) (by rw [h₁]; simp) h₂ (by omega)
          exact ⟨_, _, _, _, _, _, ctx', h.take_left h₁ h₂ hle hanswer z, hctx'⟩
        · rw [decide_eq_false hle] at hanswer
          obtain ⟨m, p₁', L', p₂', R', rest', ctx', h, hctx'⟩ :=
            ih (x :: L) R p₁ q₁ (p₂ ++ [y]) q₂ (out ++ [y]) rest hkeep
              (by rw [List.length_cons]; omega) h₁ (by rw [h₂]; simp) (by omega)
          exact ⟨_, _, _, _, _, _, ctx', h.take_right h₁ h₂ hle hanswer z, hctx'⟩

/-- The other loops of the merge append the rest of one half. -/
theorem algoMergeRest_spec (base : List α) (L : List α) :
    ∀ p q out rest : List α, base = p ++ L ++ q → L.length ≤ rest.length →
      ∃ rest', algoMergeRest base (p.length + L.length) p.length out.length (out ++ rest) =
          .ok ((out ++ L).length, (out ++ L) ++ rest') ∧
        L.length + rest'.length = rest.length := by
  induction L with
  | nil =>
    intro p q out rest _ _
    refine ⟨rest, ?_, by simp⟩
    rw [algoMergeRest, if_neg (by simp)]
    simp
  | cons x L ih =>
    intro p q out rest hb hrest
    obtain ⟨z, rest, rfl⟩ := List.exists_cons_of_length_pos (Nat.zero_lt_of_lt hrest)
    obtain ⟨rest', hok, hlen⟩ := ih (p ++ [x]) q (out ++ [x]) rest (by rw [hb]; simp)
      (by simpa using hrest)
    refine ⟨rest', ?_, by simp only [List.length_cons]; omega⟩
    rw [algoMergeRest, if_pos (by simp)]
    simp only [readElem_front hb, ok_bind, writeElem_push]
    simpa [Nat.add_assoc, Nat.add_comm, Nat.add_left_comm] using hok

/-- The merge of two adjacent parts of the array. -/
theorem algoMerge_spec (hcmp : cmp.Answers I may) (pre L R post temp : List α)
    (htemp : L.length + R.length ≤ temp.length) (hctx : I ctx) :
    ∃ o temp' ctx', algoMerge (pre ++ (L ++ R) ++ post) pre.length (pre.length + L.length)
        (pre.length + (L ++ R).length) cmp temp ctx = .ok (pre ++ o ++ post, temp', ctx') ∧
      Merges may L R o ∧ temp'.length = temp.length ∧ I ctx' := by
  have hb₁ : pre ++ (L ++ R) ++ post = pre ++ L ++ (R ++ post) := by simp
  have hb₂ : pre ++ (L ++ R) ++ post = (pre ++ L) ++ R ++ post := by simp
  obtain ⟨m, p₁', L', p₂', R', rest₁, ctx', h, hctx'⟩ :=
    algoMergeBoth_spec hcmp (pre ++ (L ++ R) ++ post) _ L R pre (R ++ post) (pre ++ L) post [] temp
      hctx rfl hb₁ hb₂ htemp
  have hlen := h.length_eq
  have hroom := h.room
  have hboth := h.run
  obtain ⟨rest₂, hrestL, hr₂⟩ := algoMergeRest_spec _ L' p₁' (R ++ post) m rest₁ h.left (by omega)
  obtain ⟨rest₃, hrestR, hr₃⟩ := algoMergeRest_spec _ R' p₂' post (m ++ L') rest₂ h.right (by omega)
  have hmid : (pre ++ L).length = pre.length + L.length := List.length_append
  have hright : pre.length + (L ++ R).length = pre.length + L.length + R.length := by
    rw [List.length_append, Nat.add_assoc]
  have hcopy := @copyElems_append _ pre (L ++ R) post (m ++ L' ++ R') rest₃ pre.length
    (pre.length + L.length + R.length - pre.length) rfl
    (by simp only [List.length_append]; omega) (by simp only [List.length_append]; omega)
  rw [List.nil_append, List.nil_append, List.length_nil, hmid] at hboth
  rw [h.left_stop] at hrestL
  rw [h.right_stop, hmid] at hrestR
  refine ⟨m ++ L' ++ R', (m ++ L' ++ R') ++ rest₃, ctx', ?_, h.merge, ?_, hctx'⟩
  · simp only [algoMerge, algoMergeBack, hright, hboth, hrestL, hrestR, hcopy, ok_bind, Except.map]
  · simp only [List.length_append]
    omega

end Merge

/-- Merge sort of a range, down to insertion sort of short ranges. -/
theorem algoMergeSortRange_spec (hcmp : cmp.Answers I may) (hP : SortRule may P)
    (hsize : elemSize ≤ algoSortSwapBufSize) (n : Nat) :
    ∀ (pre l post temp : List α) {ctx : Ctx}, I ctx → l.length = n → n ≤ temp.length →
      ∃ o temp' ctx', algoMergeSortRange cmp elemSize (pre ++ l ++ post) pre.length
          (pre.length + l.length) temp ctx = .ok (pre ++ o ++ post, temp', ctx') ∧
        P l o ∧ o.length = l.length ∧ temp'.length = temp.length ∧ I ctx' := by
  induction n using Nat.strongRecOn with
  | _ n ih =>
    intro pre l post temp ctx hctx hn htemp
    have hdiff : pre.length + l.length - pre.length = n := by omega
    rw [algoMergeSortRange, hdiff]
    by_cases h1 : n ≤ 1
    · refine ⟨l, temp, ctx, if_pos h1, ?_, rfl, rfl, hctx⟩
      cases l with
      | nil => exact hP.nil
      | cons x l =>
        obtain rfl : l = [] := by
          simp only [List.length_cons] at hn
          exact List.length_eq_zero_iff.mp (by omega)
        exact hP.singleton x
    · rw [if_neg h1]
      by_cases h16 : n < 16
      · obtain ⟨o, ctx', hok, hPo, hlen, hctx'⟩ :=
          algoInsertionSortRange_spec hcmp hP hsize pre l post hctx
        refine ⟨o, temp, ctx', ?_, hPo, hlen, rfl, hctx'⟩
        rw [if_pos h16, hok]
        rfl
      · rw [if_neg h16]
        -- The range splits at the midpoint into two shorter ones.
        obtain ⟨l₁, l₂, rfl, hl₁⟩ : ∃ l₁ l₂, l = l₁ ++ l₂ ∧ l₁.length = n / 2 :=
          ⟨l.take (n / 2), l.drop (n / 2), (List.take_append_drop _ _).symm,
            by rw [List.length_take]; omega⟩
        rw [List.length_append] at hn
        obtain ⟨o₁, temp₁, ctx₁, hok₁, hP₁, hlen₁, ht₁, hctx₁⟩ :=
          ih l₁.length (by omega) pre l₁ (l₂ ++ post) temp hctx rfl (by omega)
        obtain ⟨o₂, temp₂, ctx₂, hok₂, hP₂, hlen₂, ht₂, hctx₂⟩ :=
          ih l₂.length (by omega) (pre ++ o₁) l₂ post temp₁ hctx₁ rfl (by omega)
        obtain ⟨o, temp₃, ctx₃, hok₃, hmerge, ht₃, hctx₃⟩ :=
          algoMerge_spec hcmp pre o₁ o₂ post temp₂ (by omega) hctx₂
        refine ⟨o, temp₃, ctx₃, ?_, hP.merge hP₁ hP₂ hmerge, ?_, by omega, hctx₃⟩
        · have hmid : (pre ++ o₁).length = pre.length + l₁.length := by
            rw [List.length_append, hlen₁]
          have hright : pre.length + (l₁ ++ l₂).length = pre.length + l₁.length + l₂.length := by
            rw [List.length_append, Nat.add_assoc]
          have hright' : pre.length + (o₁ ++ o₂).length = pre.length + l₁.length + l₂.length := by
            rw [List.length_append, hlen₁, hlen₂, Nat.add_assoc]
          have hb₁ : pre ++ (l₁ ++ l₂) ++ post = pre ++ l₁ ++ (l₂ ++ post) := by simp
          have hb₂ : pre ++ o₁ ++ (l₂ ++ post) = pre ++ o₁ ++ l₂ ++ post := by simp
          have hb₃ : pre ++ o₁ ++ o₂ ++ post = pre ++ (o₁ ++ o₂) ++ post := by simp
          rw [hmid] at hok₂
          rw [hlen₁, hright'] at hok₃
          simp only [← hl₁, hright, hb₁, hok₁, hb₂, hok₂, hb₃, hok₃, ok_bind]
        · rw [hmerge.length_eq, List.length_append, hlen₁, hlen₂]

/-- Both paths of the sort give what any rule of the two steps says, and stay inside
the array and the scratch buffer. -/
theorem algoSortWith_spec (hcmp : cmp.Answers I may) (hP : SortRule may P) (hpos : 0 < elemSize)
    (hsize : elemSize ≤ algoSortSwapBufSize) (base : List α) (tempBuffer : Option (List α))
    (htemp : ∀ temp ∈ tempBuffer, base.length ≤ temp.length) (hctx : I ctx) :
    ∃ o temp' ctx', algoSortWith base elemSize cmp ctx tempBuffer = .ok (o, temp', ctx') ∧
      P base o := by
  have hins : ∃ o ctx', algoInsertionSortRange base 0 base.length elemSize cmp ctx = .ok (o, ctx') ∧
      P base o := by
    obtain ⟨o, ctx', hok, hPo, -⟩ := algoInsertionSortRange_spec hcmp hP hsize [] base [] hctx
    exact ⟨o, ctx', by simpa using hok, hPo⟩
  obtain ⟨o₁, ctx₁, hok₁, hP₁⟩ := hins
  by_cases h2 : base.length < 2
  · refine ⟨base, tempBuffer, ctx, by simp [algoSortWith, hpos, h2], ?_⟩
    cases base with
    | nil => exact hP.nil
    | cons x base =>
      obtain rfl : base = [] := by
        simp only [List.length_cons] at h2
        exact List.length_eq_zero_iff.mp (by omega)
      exact hP.singleton x
  · cases tempBuffer with
    | none => exact ⟨o₁, none, ctx₁, by simp [algoSortWith, hpos, h2, hok₁], hP₁⟩
    | some temp =>
      by_cases h16 : base.length < 16
      · exact ⟨o₁, some temp, ctx₁, by simp [algoSortWith, hpos, h2, h16, hok₁], hP₁⟩
      · obtain ⟨o, temp', ctx', hok, hPo, -⟩ :=
          algoMergeSortRange_spec hcmp hP hsize _ [] base [] temp hctx rfl (htemp temp rfl)
        simp only [List.nil_append, List.append_nil, List.length_nil, Nat.zero_add] at hok
        exact ⟨o, some temp', ctx', by simp [algoSortWith, hpos, h2, h16, hok], hPo⟩

section Pure

variable {cmp : AlgoCmpFn α Ctx}

/-- The test of a total preorder is one. -/
theorem AlgoCmpFn.TotalPreorder.test (h : cmp.TotalPreorder ctx) :
    IsTotalPreorderTest (cmp.test ctx) where
  total a b := by
    simp only [AlgoCmpFn.test, decide_eq_true_eq]
    by_cases hab : cmp.Le ctx a b
    · exact Or.inl hab
    · exact Or.inr (h.le_of_not_le hab)
  trans a b c := by
    simp only [AlgoCmpFn.test, decide_eq_true_eq]
    exact h.trans a b c

/-- The sort with a comparator that leaves its context alone gives what any rule of the two steps
says of its test. -/
theorem algoSort_spec (hP : SortRule (fun a b first => cmp.test ctx a b = first) P)
    (hpos : 0 < elemSize) (hsize : elemSize ≤ algoSortSwapBufSize) (base : List α)
    (tempBuffer : Option (List α)) (htemp : ∀ temp ∈ tempBuffer, base.length ≤ temp.length) :
    ∃ o temp', algoSort base elemSize cmp ctx tempBuffer = .ok (o, temp') ∧ P base o := by
  obtain ⟨o, temp', ctx', hok, hPo⟩ :=
    algoSortWith_spec (cmp.call_answers ctx) hP hpos hsize base tempBuffer htemp rfl
  exact ⟨o, temp', by rw [algoSort, hok]; rfl, hPo⟩

/-- A stable sorted rearrangement under the comparator: a permutation of the input, in
order, with elements that compare equal in the order they had. -/
def StablySorted (cmp : AlgoCmpFn α Ctx) (ctx : Ctx) (input output : List α) : Prop :=
  ∃ tagged : List (α × Nat), tagged.Perm input.zipIdx ∧ tagged.map Prod.fst = output ∧
    tagged.Pairwise fun x y => cmp x.1 y.1 ctx ≤ 0 ∧ (cmp x.1 y.1 ctx = 0 → x.2 < y.2)

/-- Under a total preorder this is the stable sort of the comparator's test. -/
theorem stablySorted_iff (hcmp : cmp.TotalPreorder ctx) {input output : List α} :
    StablySorted cmp ctx input output ↔ IsStableSort (cmp.test ctx) input output := by
  have hiff : ∀ x y : α × Nat, (cmp x.1 y.1 ctx ≤ 0 ∧ (cmp x.1 y.1 ctx = 0 → x.2 < y.2)) ↔
      TagBefore (cmp.test ctx) x y := by
    intro x y
    have hxy := hcmp.flip x.1 y.1
    have hyx := hcmp.flip y.1 x.1
    simp only [TagBefore, AlgoCmpFn.test, decide_eq_true_eq]
    refine and_congr_right fun hle => ?_
    rw [show cmp x.1 y.1 ctx = 0 ↔ cmp y.1 x.1 ctx ≤ 0 by omega]
  simp only [StablySorted, IsStableSort, hiff]

/-- The sort leaves the one stable sorted rearrangement of the array, without scratch
space and with any scratch buffer that is long enough. -/
theorem algoSort_stable (hcmp : cmp.TotalPreorder ctx) (hpos : 0 < elemSize)
    (hsize : elemSize ≤ algoSortSwapBufSize) (base : List α) :
    ∃ sorted, (∀ tempBuffer : Option (List α),
        (∀ temp ∈ tempBuffer, base.length ≤ temp.length) →
        ∃ temp', algoSort base elemSize cmp ctx tempBuffer = .ok (sorted, temp')) ∧
      sorted.Perm base ∧ (sorted.Pairwise fun a b => cmp a b ctx ≤ 0) ∧
      ∀ output, StablySorted cmp ctx base output ↔ output = sorted := by
  have hrule := SortRule.stable hcmp.test
  obtain ⟨sorted, -, -, hst⟩ := algoSort_spec hrule hpos hsize base none (by simp)
  refine ⟨sorted, fun tempBuffer htemp => ?_, hst.perm, ?_, fun output => ?_⟩
  · obtain ⟨o, temp', hok, ho⟩ := algoSort_spec hrule hpos hsize base tempBuffer htemp
    exact ⟨temp', by rw [hok, hst.unique ho]⟩
  · exact hst.pairwise.imp fun hab => by simpa [AlgoCmpFn.test] using hab
  · rw [stablySorted_iff hcmp]
    refine ⟨fun h => hst.unique h, ?_⟩
    rintro rfl
    exact hst

/-- Records sorted by their first component. -/
theorem algoSort_stable_records : ∃ sorted,
    (∀ tempBuffer : Option (List (Int × Nat)), (∀ temp ∈ tempBuffer, 3 ≤ temp.length) →
      ∃ temp', algoSort [(2, 0), (1, 1), (2, 2)] 16 (fun a b (_ : Unit) => algoCmp a.1 b.1 ()) ()
        tempBuffer = .ok (sorted, temp')) ∧ sorted.Perm [(2, 0), (1, 1), (2, 2)] := by
  have hcmp : AlgoCmpFn.TotalPreorder
      (fun (a b : Int × Nat) (_ : Unit) => algoCmp a.1 b.1 ()) () :=
    ⟨fun a b => algoCmp_totalPreorder.flip a.1 b.1,
      fun a b c => algoCmp_totalPreorder.trans a.1 b.1 c.1⟩
  obtain ⟨sorted, hok, hperm, -⟩ :=
    algoSort_stable hcmp (show 0 < 16 by decide) (by decide) [(2, 0), (1, 1), (2, 2)]
  exact ⟨sorted, hok, hperm⟩

end Pure

end CanonC
