import CanonC.Algo.Search.Model
import CanonC.Toolkit.Bisection

/-!
# The searches find the block of the key

In an array in order the elements before the key and those not after it are prefixes. Each
bound closes on the end of its prefix within the rounds allotted, without leaving the
array, and the block of elements level with the key lies between the two.
-/

namespace CanonC

open Toolkit

variable {α Ctx : Type*} {cmp : AlgoCmpFn α Ctx} {ctx : Ctx} {elemSize : Nat} {array : List α}
  {key : α}

/-- A round goes on with the half of the interval that the middle element points to, whose
indices are computed without overflow. -/
theorem algoBoundLoop_step (goRight : Int → Bool) (cmp : AlgoCmpFn α Ctx) (ctx : Ctx) (key : α)
    (rounds : Nat) {low high : Nat} (hlt : low < high) (hbound : high ≤ array.length)
    (hsize : array.length < usizeSize) :
    ∃ mid, ∃ hin : mid < array.length, mid < high ∧ mid = low + (high - low) / 2 ∧
      algoBoundLoop goRight cmp ctx array key (rounds + 1) low high =
        if goRight (cmp array[mid] key ctx) = true then
          algoBoundLoop goRight cmp ctx array key rounds (mid + 1) high
        else algoBoundLoop goRight cmp ctx array key rounds low mid := by
  have hlow : low + (high - low) / 2 < high := by omega
  have hin : low + (high - low) / 2 < array.length := by omega
  have hmid : usizeAdd low (usizeSub high low / 2) = low + (high - low) / 2 := by
    rw [usizeSub_of_le hlt.le (by omega), usizeAdd_of_lt (by omega)]
  have hread : readElem array (low + (high - low) / 2) =
      .ok array[low + (high - low) / 2] := by
    rw [readElem, List.getElem?_eq_getElem]
  have hnext : usizeAdd (low + (high - low) / 2) 1 = low + (high - low) / 2 + 1 :=
    usizeAdd_of_lt (by omega)
  refine ⟨_, hin, hlow, rfl, ?_⟩
  rw [algoBoundLoop, if_pos hlt]
  simp only [hmid, hread, hnext]

/-- An interval that brackets the end of a prefix closes on it. -/
theorem algoBoundLoop_spec (goRight : Int → Bool)
    (hdown : array.Pairwise fun a b =>
      goRight (cmp b key ctx) = true → goRight (cmp a key ctx) = true)
    (hsize : array.length < usizeSize) (rounds : Nat) {low high : Nat}
    (h : Brackets (fun x => goRight (cmp x key ctx)) array low high)
    (hrounds : high - low < 2 ^ rounds) :
    ∃ i, algoBoundLoop goRight cmp ctx array key (rounds + 1) low high = .ok i ∧
      Brackets (fun x => goRight (cmp x key ctx)) array i i := by
  induction rounds generalizing low high with
  | zero =>
    have hle := h.le
    obtain rfl : low = high := by omega
    exact ⟨low, by rw [algoBoundLoop, if_neg (lt_irrefl low)], h⟩
  | succ rounds ih =>
    by_cases hlt : low < high
    · obtain ⟨mid, hin, hmid, hhalf, hstep⟩ := algoBoundLoop_step goRight cmp ctx key (rounds + 1)
        hlt h.bound hsize
      rw [pow_succ] at hrounds
      cases hgo : goRight (cmp array[mid] key ctx) with
      | true =>
        obtain ⟨i, hok, hi⟩ := ih (h.right hdown hmid hin hgo) (by omega)
        exact ⟨i, by rw [hstep, if_pos hgo, hok], hi⟩
      | false =>
        obtain ⟨i, hok, hi⟩ := ih (h.left hdown (by omega) hin hgo) (by omega)
        exact ⟨i, by rw [hstep, if_neg (Bool.eq_false_iff.mp hgo), hok], hi⟩
    · have hle := h.le
      obtain rfl : low = high := by omega
      exact ⟨low, by rw [algoBoundLoop, if_neg hlt], h⟩

/-- What is not after an element before the key is before the key. -/
theorem AlgoCmpFn.TotalPreorder.before_of_le (h : cmp.TotalPreorder ctx) {a b : α}
    (hab : cmp a b ctx ≤ 0) (hb : cmp b key ctx < 0) : cmp a key ctx < 0 := by
  have hflipA := h.flip a key
  have hflipB := h.flip b key
  by_contra hn
  have hka : cmp key a ctx ≤ 0 := by omega
  have hkb := h.trans key a b hka hab
  omega

/-- The key is not after what is not before it. -/
theorem AlgoCmpFn.TotalPreorder.key_le (h : cmp.TotalPreorder ctx) {a : α}
    (ha : ¬ cmp a key ctx < 0) : cmp key a ctx ≤ 0 := by
  have hflip := h.flip a key
  omega

section Ordered

variable (hcmp : cmp.TotalPreorder ctx) (hsize : array.length < usizeSize)
  (hsorted : array.Pairwise fun a b => cmp a b ctx ≤ 0)
include hcmp hsize hsorted

/-- The lower bound closes on the end of the elements before the key. -/
theorem algoLowerBoundImpl_spec (key : α) :
    ∃ lower, algoLowerBoundImpl array key cmp ctx = .ok lower ∧
      Brackets (fun x => decide (cmp x key ctx < 0)) array lower lower := by
  have hdown : array.Pairwise fun a b =>
      decide (cmp b key ctx < 0) = true → decide (cmp a key ctx < 0) = true :=
    hsorted.imp fun hab hb => decide_eq_true (hcmp.before_of_le hab (of_decide_eq_true hb))
  exact algoBoundLoop_spec (· < 0) hdown hsize 64 .all hsize

/-- The upper bound closes on the end of the elements not after the key. -/
theorem algoUpperBound_spec (hpos : 0 < elemSize) (key : α) :
    ∃ upper, algoUpperBound array elemSize key cmp ctx = .ok upper ∧
      Brackets (fun x => decide (cmp x key ctx ≤ 0)) array upper upper := by
  have hdown : array.Pairwise fun a b =>
      decide (cmp b key ctx ≤ 0) = true → decide (cmp a key ctx ≤ 0) = true :=
    hsorted.imp fun hab hb => decide_eq_true (hcmp.trans _ _ _ hab (of_decide_eq_true hb))
  obtain ⟨upper, hok, hupper⟩ := algoBoundLoop_spec (· ≤ 0) hdown hsize 64 .all hsize
  rw [algoUpperBound, decide_eq_true hpos, requireMsg_true, ok_bind]
  by_cases h0 : array.length = 0
  · have hall := Brackets.all (p := fun x => decide (cmp x key ctx ≤ 0)) (l := array)
    rw [h0] at hall
    exact ⟨0, if_pos h0, hall⟩
  · exact ⟨upper, by rw [if_neg h0]; exact hok, hupper⟩

end Ordered

/-- The index at the lower bound is the first one level with the key, if there is one. -/
theorem algoFindSorted_spec (hcmp : cmp.TotalPreorder ctx) (hpos : 0 < elemSize)
    (hsize : array.length < usizeSize) (hsorted : array.Pairwise fun a b => cmp a b ctx ≤ 0)
    (key : α) : ∃ found, algoFindSorted array elemSize key cmp ctx = .ok found ∧
      (found = usizeMax ∧ (∀ x ∈ array, cmp x key ctx ≠ 0) ∨
        found ≠ usizeMax ∧ ∃ h : found < array.length, cmp array[found] key ctx = 0 ∧
          ∀ j, ∀ hj : j < found, cmp array[j] key ctx ≠ 0) := by
  rw [algoFindSorted, decide_eq_true hpos, requireMsg_true, ok_bind]
  by_cases h0 : array.length = 0
  · refine ⟨usizeMax, if_pos h0, .inl ⟨rfl, ?_⟩⟩
    rw [List.length_eq_zero_iff.mp h0]
    exact fun x hx => absurd hx List.not_mem_nil
  · obtain ⟨lower, hok, hlower⟩ := algoLowerBoundImpl_spec hcmp hsize hsorted key
    have hbefore : ∀ j, ∀ hj : j < array.length, cmp array[j] key ctx < 0 ↔ j < lower :=
      fun j hj => decide_eq_true_iff.symm.trans (hlower.pass_iff hj)
    rw [if_neg h0, hok, ok_bind]
    by_cases hin : lower < array.length
    · have hread : readElem array lower = .ok array[lower] := by
        rw [readElem, List.getElem?_eq_getElem]
      rw [if_pos hin]
      simp only [hread]
      by_cases hlevel : cmp array[lower] key ctx = 0
      · have hmax : lower ≠ usizeMax := by
          rw [usizeMax]
          omega
        refine ⟨lower, if_pos hlevel, .inr ⟨hmax, hin, hlevel, fun j hj => ?_⟩⟩
        exact ((hbefore j (hj.trans hin)).mpr hj).ne
      · refine ⟨usizeMax, if_neg hlevel, .inl ⟨rfl, fun x hx hzero => hlevel ?_⟩⟩
        -- An element level with the key is behind the bound, and so not before the one there.
        obtain ⟨k, hk, rfl⟩ := List.getElem_of_mem hx
        have hge : lower ≤ k := by
          rw [← Nat.not_lt, ← hbefore k hk]
          omega
        have hle : cmp array[lower] array[k] ctx ≤ 0 := by
          rcases Nat.lt_or_eq_of_le hge with hlt | rfl
          · exact List.pairwise_iff_getElem.mp hsorted lower k hin hk hlt
          · exact hcmp.le_refl _
        have hnot := mt (hbefore lower hin).mp (lt_irrefl lower)
        have htrans := hcmp.trans _ _ _ hle hzero.le
        omega
    · rw [if_neg hin]
      refine ⟨usizeMax, rfl, .inl ⟨rfl, fun x hx hzero => ?_⟩⟩
      obtain ⟨k, hk, rfl⟩ := List.getElem_of_mem hx
      have hlt := (hbefore k hk).mpr (by omega)
      omega

/-- In every array in order under a total preorder the lower bound counts the elements
before the key and the upper bound those not after it, the equal range is the block of
elements level with the key, the sorted search gives the first of them or the greatest
`usize`, the binary search tells which, and the key may be inserted at either bound. -/
theorem algo_search_sorted (hcmp : cmp.TotalPreorder ctx) (hpos : 0 < elemSize)
    (hsize : array.length < usizeSize) (hsorted : array.Pairwise fun a b => cmp a b ctx ≤ 0)
    (key : α) : ∃ lower upper found,
      algoLowerBound array elemSize key cmp ctx = .ok lower ∧
      lower = array.countP (fun x => cmp x key ctx < 0) ∧
      algoUpperBound array elemSize key cmp ctx = .ok upper ∧
      upper = array.countP (fun x => cmp x key ctx ≤ 0) ∧
      algoEqualRange array elemSize key cmp ctx = .ok (lower, upper) ∧
      (∀ i, ∀ hi : i < array.length, cmp array[i] key ctx = 0 ↔ lower ≤ i ∧ i < upper) ∧
      algoFindSorted array elemSize key cmp ctx = .ok found ∧
      (found = usizeMax ↔ ∀ x ∈ array, cmp x key ctx ≠ 0) ∧
      (found ≠ usizeMax → ∃ h : found < array.length, cmp array[found] key ctx = 0 ∧
        ∀ j, ∀ hj : j < found, cmp array[j] key ctx ≠ 0) ∧
      algoBinarySearch array elemSize key cmp ctx = .ok (decide (found ≠ usizeMax)) ∧
      ((array.insertIdx lower key).Pairwise fun a b => cmp a b ctx ≤ 0) ∧
      ((array.insertIdx upper key).Pairwise fun a b => cmp a b ctx ≤ 0) := by
  obtain ⟨lower, hlowerOk, hlower⟩ := algoLowerBoundImpl_spec hcmp hsize hsorted key
  obtain ⟨upper, hupperOk, hupper⟩ :=
    algoUpperBound_spec hcmp hsize hsorted hpos key
  obtain ⟨found, hfoundOk, hfound⟩ := algoFindSorted_spec hcmp hpos hsize hsorted key
  have hempty : array.length = 0 → lower = 0 ∧ upper = 0 := fun h0 =>
    ⟨Nat.le_zero.mp (h0 ▸ hlower.bound), Nat.le_zero.mp (h0 ▸ hupper.bound)⟩
  refine ⟨lower, upper, found, ?_, hlower.eq_countP, hupperOk, hupper.eq_countP, ?_, fun i hi => ?_,
    hfoundOk, ?_, ?_, ?_, ?_, ?_⟩
  · rw [algoLowerBound, decide_eq_true hpos, requireMsg_true, ok_bind]
    by_cases h0 : array.length = 0
    · rw [if_pos h0, (hempty h0).1]
    · rw [if_neg h0, hlowerOk]
  · rw [algoEqualRange, decide_eq_true hpos, requireMsg_true, ok_bind]
    by_cases h0 : array.length = 0
    · rw [if_pos h0, (hempty h0).1, (hempty h0).2]
    · rw [if_neg h0, hlowerOk, ok_bind, hupperOk, ok_bind]
  · have hl : cmp array[i] key ctx < 0 ↔ i < lower :=
      decide_eq_true_iff.symm.trans (hlower.pass_iff hi)
    have hu : cmp array[i] key ctx ≤ 0 ↔ i < upper :=
      decide_eq_true_iff.symm.trans (hupper.pass_iff hi)
    omega
  · rcases hfound with ⟨hmax, hnone⟩ | ⟨hne, hin, hlevel, -⟩
    · exact iff_of_true hmax hnone
    · exact iff_of_false hne fun hnone => hnone _ (List.getElem_mem hin) hlevel
  · rcases hfound with ⟨hmax, -⟩ | ⟨-, hfirst⟩
    · exact fun hne => absurd hmax hne
    · exact fun _ => hfirst
  · rw [algoBinarySearch, hfoundOk, ok_bind]
  · refine hlower.pairwise_insertIdx hsorted (fun y hy => ?_) fun y hy => ?_
    · exact (of_decide_eq_true hy).le
    · exact hcmp.key_le (of_decide_eq_false hy)
  · refine hupper.pairwise_insertIdx hsorted (fun y hy => of_decide_eq_true hy) fun y hy => ?_
    have hy' := of_decide_eq_false hy
    exact hcmp.key_le (by omega)

/-- Five numbers in order, three of them level with the key. -/
theorem algo_search_sorted_block : ∃ lower upper,
    algoEqualRange [1, 4, 4, 4, 9] 8 4 (algoCmp : AlgoCmpFn Nat Unit) () = .ok (lower, upper) ∧
      lower = [1, 4, 4, 4, 9].countP (fun x => (algoCmp : AlgoCmpFn Nat Unit) x 4 () < 0) := by
  obtain ⟨lower, upper, found, -, hlower, -, -, hrange, -⟩ :=
    @algo_search_sorted Nat Unit algoCmp () 8 [1, 4, 4, 4, 9] algoCmp_totalPreorder (by decide)
      (by decide) (by
        simp only [algoCmp_nonpos_iff]
        decide) 4
  exact ⟨lower, upper, hrange, hlower⟩

end CanonC
