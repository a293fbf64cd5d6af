import CanonC.Algo.Scan.Correctness
import CanonC.Algo.Search.Correctness
import CanonC.Algo.Unique.Correctness

/-!
# The algorithms one after the other

Filtering a sorted array selects what sorting the filtered array gives, up to the room there is.
An array that is sorted and then freed of duplicates is a set: the searches in it tell what the
array held at first.
-/

namespace CanonC

open Toolkit

variable {α Ctx : Type*} {cmp : AlgoCmpFn α Ctx} {ctx : Ctx} {elemSize : Nat}

/-- A filter whose predicate keeps no context writes the first elements that pass. -/
theorem algoFilter_pure {Seen : Type*} (hpos : 0 < elemSize) (p : α → Bool) (seen : Seen)
    (base : List α) {out : List α} {outCap : Nat} (hout : outCap ≤ out.length) :
    algoFilter out outCap base elemSize (fun x seen => (p x, seen)) seen =
      .ok ((base.filter p).take outCap ++ out.drop ((base.filter p).take outCap).length,
        ((base.filter p).take outCap).length, seen) := by
  obtain ⟨k, hstop⟩ := exists_stopsAt (fun x (seen : Seen) => (p x, seen)) outCap base seen
  rw [(algoFilter_spec hpos hout hstop).1, hstop.accepted_eq_take, accepted_pure, asked_pure]

/-- With any room, filtering the sorted array gives the first elements of what sorting all that
passes gives, elements that compare equal in the order they had. -/
theorem algoFilter_sorted {Seen : Type*} (hcmp : cmp.TotalPreorder ctx) (hpos : 0 < elemSize)
    (hsize : elemSize ≤ algoSortSwapBufSize) (p : α → Bool) (seen : Seen) (base : List α)
    (tempBuffer : Option (List α)) (htemp : ∀ temp ∈ tempBuffer, base.length ≤ temp.length) :
    ∃ sorted temp₁ passed result temp₂,
      algoSort base elemSize cmp ctx tempBuffer = .ok (sorted, temp₁) ∧
      (∀ out, base.length ≤ out.length →
        algoFilter out base.length base elemSize (fun x seen => (p x, seen)) seen =
          .ok (passed ++ out.drop passed.length, passed.length, seen)) ∧
      algoSort passed elemSize cmp ctx tempBuffer = .ok (result, temp₂) ∧
      ∀ out outCap, outCap ≤ out.length →
        algoFilter out outCap sorted elemSize (fun x seen => (p x, seen)) seen =
          .ok (result.take outCap ++ out.drop (result.take outCap).length,
            (result.take outCap).length, seen) := by
  have hrule := SortRule.stable hcmp.test
  have hfewer : (base.filter p).length ≤ base.length := List.length_filter_le p base
  obtain ⟨sorted, temp₁, hsort, hst⟩ := algoSort_spec hrule hpos hsize base tempBuffer htemp
  obtain ⟨result, temp₂, hsort', hst'⟩ := algoSort_spec hrule hpos hsize (base.filter p) tempBuffer
    fun temp ht => hfewer.trans (htemp temp ht)
  have hresult : sorted.filter p = result := hst'.unique (hst.filter p)
  refine ⟨sorted, temp₁, base.filter p, result, temp₂, hsort, fun out hout => ?_, hsort',
    fun out outCap hout => ?_⟩
  · rw [algoFilter_pure hpos p seen base hout, List.take_of_length_le hfewer]
  · rw [algoFilter_pure hpos p seen sorted hout, hresult]

/-- The two least even numbers. -/
theorem algoFilter_sorted_two : ∃ sorted result : List Int,
    (∃ temp₁, algoSort [6, 3, 4, 2] 4 algoCmp () none = .ok (sorted, temp₁)) ∧
      algoFilter [0, 0] 2 sorted 4 (fun x seen => (x % 2 == 0, seen)) () =
        .ok (result.take 2 ++ [0, 0].drop (result.take 2).length, (result.take 2).length, ()) := by
  obtain ⟨sorted, temp₁, -, result, -, hsort, -, -, hfilter⟩ :=
    @algoFilter_sorted Int Unit algoCmp () 4 Unit algoCmp_totalPreorder (by decide) (by decide)
      (fun x => x % 2 == 0) () [6, 3, 4, 2] none (by simp)
  exact ⟨sorted, result, ⟨temp₁, hsort⟩, hfilter [0, 0] 2 (by decide)⟩

/-- To be level does not depend on the order. -/
theorem AlgoCmpFn.TotalPreorder.level_symm (h : cmp.TotalPreorder ctx) {a b : α}
    (hab : cmp a b ctx = 0) : cmp b a ctx = 0 := by
  have hba := h.flip a b
  have hba' := h.flip b a
  omega

/-- Elements level with the same one are level. -/
theorem AlgoCmpFn.TotalPreorder.level (h : cmp.TotalPreorder ctx) {a b c : α}
    (hab : cmp a b ctx = 0) (hac : cmp a c ctx = 0) : cmp b c ctx = 0 := by
  have hba := h.level_symm hab
  have hca := h.level_symm hac
  have hbc := h.trans b a c hba.le hac.le
  have hcb := h.trans c a b hca.le hab.le
  have hflip := h.flip b c
  omega

/-- After sorting and the removal of duplicates, the binary search tells whether the array held an
element that compares equal to the key, and the sorted search gives the first one it held. -/
theorem algo_sorted_set (hcmp : cmp.TotalPreorder ctx) (hpos : 0 < elemSize)
    (hsize : elemSize ≤ algoSortSwapBufSize) (base : List α) (hlen : base.length < usizeSize)
    (tempBuffer : Option (List α)) (htemp : ∀ temp ∈ tempBuffer, base.length ≤ temp.length) :
    ∃ sorted temp' set stale,
      algoSort base elemSize cmp ctx tempBuffer = .ok (sorted, temp') ∧
      algoUnique sorted sorted.length elemSize cmp ctx = .ok (set ++ stale, set.length) ∧
      ∀ key, algoBinarySearch set elemSize key cmp ctx =
          .ok (base.any fun x => cmp x key ctx = 0) ∧
        ∃ found, algoFindSorted set elemSize key cmp ctx = .ok found ∧
          (found = usizeMax ↔ ∀ x ∈ base, cmp x key ctx ≠ 0) ∧
          (found ≠ usizeMax → ∃ (i : Nat) (x : α), set[found]? = some x ∧ base[i]? = some x ∧
            cmp x key ctx = 0 ∧ ∀ j < i, ∀ y ∈ base[j]?, cmp y key ctx ≠ 0) := by
  obtain ⟨sorted, temp', hsort, hst⟩ :=
    algoSort_spec (SortRule.stable hcmp.test) hpos hsize base tempBuffer htemp
  obtain ⟨stale, hunique, -⟩ := @algoUnique_spec _ _ cmp ctx _ hpos sorted []
  rw [List.append_nil, List.append_nil] at hunique
  refine ⟨sorted, temp', sorted.destutter (cmp.Differ ctx), stale, hsort, hunique, fun key => ?_⟩
  have hsub := List.destutter_sublist (cmp.Differ ctx) sorted
  have hshort : (sorted.destutter (cmp.Differ ctx)).length < usizeSize :=
    (hsub.length_le.trans hst.perm.length_eq.le).trans_lt hlen
  have hordered : (sorted.destutter (cmp.Differ ctx)).Pairwise fun a b => cmp a b ctx ≤ 0 :=
    (hst.pairwise.sublist hsub).imp fun hab => of_decide_eq_true hab
  have hmem : (∃ x ∈ sorted.destutter (cmp.Differ ctx), cmp x key ctx = 0) ↔
      ∃ x ∈ base, cmp x key ctx = 0 := by
    constructor
    · rintro ⟨x, hx, hlevel⟩
      exact ⟨x, hst.perm.mem_iff.mp (hsub.subset hx), hlevel⟩
    · rintro ⟨a, ha, hlevel⟩
      obtain ⟨x, ⟨hx, hax⟩, -⟩ := existsUnique_level hcmp hst ha
      exact ⟨x, hx, hcmp.level hax hlevel⟩
  obtain ⟨found, hfind, hfound⟩ := algoFindSorted_spec hcmp hpos hshort hordered key
  have hany : (decide (found ≠ usizeMax)) = base.any fun x => cmp x key ctx = 0 := by
    rw [Bool.eq_iff_iff, decide_eq_true_iff, List.any_eq_true]
    simp only [decide_eq_true_eq]
    rw [← hmem]
    rcases hfound with ⟨hmax, hnone⟩ | ⟨hne, hin, hlevel, -⟩
    · exact iff_of_false (fun hne => hne hmax) fun ⟨x, hx, hlevel⟩ => hnone x hx hlevel
    · exact iff_of_true hne ⟨_, List.getElem_mem hin, hlevel⟩
  refine ⟨by rw [algoBinarySearch, hfind, ok_bind, hany], found, hfind, ?_, fun hne => ?_⟩
  · have hiff : ¬found ≠ usizeMax ↔ ¬∃ x ∈ base, cmp x key ctx = 0 := by
      rw [← decide_eq_true_iff (p := found ≠ usizeMax), hany, List.any_eq_true]
      simp only [decide_eq_true_eq]
    rw [ne_eq, not_not] at hiff
    rw [hiff, not_exists]
    exact forall_congr' fun x => not_and
  obtain ⟨hin, hlevel, -⟩ := (hfound.resolve_left fun h => hne h.1).2
  obtain ⟨i, hi, hfirst⟩ :=
    (hst.mem_destutter_iff hcmp.test hcmp.differ_iff _).mp (List.getElem_mem hin)
  refine ⟨i, _, List.getElem?_eq_getElem hin, hi, hlevel, fun j hj y hy hykey => ?_⟩
  exact hfirst j hj y hy (hcmp.level (hcmp.level_symm hykey) (hcmp.level_symm hlevel))

/-- Records with the same first component are one member. -/
theorem algo_sorted_set_records : ∃ sorted set stale : List (Int × Nat),
    (∃ temp', algoSort [(2, 0), (1, 1), (2, 2)] 16 (fun a b (_ : Unit) => algoCmp a.1 b.1 ()) ()
      none = .ok (sorted, temp')) ∧
      algoUnique sorted sorted.length 16 (fun a b (_ : Unit) => algoCmp a.1 b.1 ()) () =
        .ok (set ++ stale, set.length) ∧
      algoBinarySearch set 16 (2, 9) (fun a b (_ : Unit) => algoCmp a.1 b.1 ()) () =
        .ok ([((2 : Int), (0 : Nat)), (1, 1), (2, 2)].any fun x => algoCmp x.1 2 () = 0) := by
  have hcmp : AlgoCmpFn.TotalPreorder
      (fun (a b : Int × Nat) (_ : Unit) => algoCmp a.1 b.1 ()) () :=
    ⟨fun a b => algoCmp_totalPreorder.flip a.1 b.1,
      fun a b c => algoCmp_totalPreorder.trans a.1 b.1 c.1⟩
  obtain ⟨sorted, temp', set, stale, hsort, hunique, hsearch⟩ :=
    algo_sorted_set hcmp (by decide : 0 < 16) (by decide) [(2, 0), (1, 1), (2, 2)] (by decide) none
      (by simp)
  exact ⟨sorted, set, stale, ⟨temp', hsort⟩, hunique, (hsearch (2, 9)).1⟩

end CanonC
