import CanonC.Algo.Sort.Correctness
import CanonC.Algo.Unique.Model
import CanonC.Toolkit.Compaction

/-!
# What the removal of duplicates keeps

The pass keeps the elements that differ from the last one kept. Under an equivalence these
are the heads of the maximal runs, and after the stable sort they are the first occurrences
of the classes of level elements.
-/

namespace CanonC

open Toolkit

variable {α Ctx : Type*} {cmp : AlgoCmpFn α Ctx} {ctx : Ctx} {elemSize : Nat}

/-- Two elements compare different. -/
def AlgoCmpFn.Differ (cmp : AlgoCmpFn α Ctx) (ctx : Ctx) (a b : α) : Prop := cmp a b ctx ≠ 0

instance (cmp : AlgoCmpFn α Ctx) (ctx : Ctx) : DecidableRel (cmp.Differ ctx) :=
  fun a b => inferInstanceAs (Decidable (cmp a b ctx ≠ 0))

/-- Behind the kept elements and a gap of stale ones the pass goes on as `destutter'` does
from the last element kept. -/
theorem algoUniqueLoop_spec (todo post : List α) : ∀ (kept gap : List α) (last : α)
    (array : List α) (len read write : Nat), array = kept ++ last :: gap ++ todo ++ post →
    write = kept.length + 1 → read = write + gap.length → len = read + todo.length →
    ∃ stale, algoUniqueLoop cmp ctx len read array write =
        .ok (kept ++ todo.destutter' (cmp.Differ ctx) last ++ stale ++ post,
          (kept ++ todo.destutter' (cmp.Differ ctx) last).length) ∧
      (kept ++ todo.destutter' (cmp.Differ ctx) last ++ stale).length = len := by
  induction todo with
  | nil =>
    rintro kept gap last array len read write rfl rfl rfl rfl
    refine ⟨gap, ?_, by simp; omega⟩
    rw [algoUniqueLoop, if_neg (by simp)]
    simp
  | cons curr todo ih =>
    rintro kept gap last array len read write harray hwrite hread hlen
    rw [List.length_cons] at hlen
    have hprev : readElem array (write - 1) = .ok last := by
      rw [harray, List.append_assoc, List.append_assoc, List.cons_append]
      exact readElem_append (by omega)
    have hcurr : readElem array read = .ok curr := by
      rw [harray, List.append_assoc (kept ++ last :: gap), List.cons_append]
      exact readElem_append (by simp only [List.length_append, List.length_cons]; omega)
    rw [algoUniqueLoop, if_pos (by omega), hprev, ok_bind, hcurr, ok_bind]
    by_cases hne : cmp last curr ctx ≠ 0
    · have hdiff : cmp.Differ ctx last curr := hne
      rw [List.destutter'_cons_pos _ hdiff, if_pos hne, List.append_cons kept last]
      cases gap with
      | nil =>
        -- No duplicate has been seen yet, so the element is in its place.
        rw [List.length_nil, Nat.add_zero] at hread
        rw [if_neg (not_not.mpr hread.symm)]
        exact ih (kept ++ [last]) [] curr array len (read + 1) (write + 1) (by simp [harray])
          (by simp [hwrite]) (by simp [hread]) (by omega)
      | cons g gap =>
        have hmove : writeElem array write curr =
            .ok (kept ++ [last] ++ curr :: (gap ++ [curr]) ++ todo ++ post) := by
          rw [harray, show kept ++ last :: g :: gap ++ curr :: todo ++ post =
            (kept ++ [last]) ++ g :: (gap ++ curr :: todo ++ post) by simp,
            writeElem_append (by simp [hwrite])]
          simp
        rw [List.length_cons] at hread
        rw [if_pos (by omega), hmove, ok_bind]
        exact ih (kept ++ [last]) (gap ++ [curr]) curr _ len (read + 1) (write + 1) rfl
          (by simp [hwrite]) (by simp; omega) (by omega)
    · have hdiff : ¬cmp.Differ ctx last curr := hne
      rw [List.destutter'_cons_neg _ hdiff, if_neg hne]
      exact ih kept (gap ++ [curr]) last array len (read + 1) write (by simp [harray]) hwrite
        (by simp; omega) (by omega)

/-- The first `len` elements are compacted to the elements that differ from the last one
kept, and what lies beyond them is not touched. -/
theorem algoUnique_spec (hpos : 0 < elemSize) (base post : List α) :
    ∃ stale, algoUnique (base ++ post) base.length elemSize cmp ctx =
        .ok (base.destutter (cmp.Differ ctx) ++ stale ++ post,
          (base.destutter (cmp.Differ ctx)).length) ∧
      (base.destutter (cmp.Differ ctx) ++ stale).length = base.length := by
  cases base with
  | nil => exact ⟨[], by simp [algoUnique, hpos], rfl⟩
  | cons a base =>
    obtain ⟨stale, hok, hlen⟩ := @algoUniqueLoop_spec _ _ cmp ctx base post [] [] a
      (a :: base ++ post) (a :: base).length 1 1 (by simp) rfl rfl (Nat.add_comm _ _)
    rw [List.nil_append] at hok hlen
    refine ⟨stale, ?_, hlen⟩
    cases base with
    | nil =>
      obtain rfl : stale = [] := by simpa using hlen
      simp [algoUnique, hpos]
    | cons b base =>
      rw [algoUnique, decide_eq_true hpos, requireMsg_true, ok_bind, if_neg (by simp)]
      exact hok

/-- A second pass over what was kept changes nothing. -/
theorem algoUnique_again (hpos : 0 < elemSize) (base post : List α) :
    algoUnique (base.destutter (cmp.Differ ctx) ++ post) (base.destutter (cmp.Differ ctx)).length
        elemSize cmp ctx =
      .ok (base.destutter (cmp.Differ ctx) ++ post, (base.destutter (cmp.Differ ctx)).length) := by
  obtain ⟨stale, hok, hlen⟩ :=
    @algoUnique_spec _ _ cmp ctx _ hpos (base.destutter (cmp.Differ ctx)) post
  rw [List.destutter_idem] at hok hlen
  obtain rfl : stale = [] := by simpa using hlen
  rwa [List.append_nil] at hok

/-- Under a total preorder two elements differ when one of them is after the other. -/
theorem AlgoCmpFn.TotalPreorder.differ_iff (h : cmp.TotalPreorder ctx) (a b : α) :
    cmp.Differ ctx a b ↔ ¬(cmp.test ctx a b = true ∧ cmp.test ctx b a = true) := by
  have hab := h.flip a b
  have hba := h.flip b a
  simp only [AlgoCmpFn.Differ, AlgoCmpFn.test, decide_eq_true_eq]
  omega

/-- Of the sorted array each class keeps the element that occurs first in the input. -/
theorem existsUnique_level (hcmp : cmp.TotalPreorder ctx) {base sorted : List α}
    (hst : IsStableSort (cmp.test ctx) base sorted) {a : α} (ha : a ∈ base) :
    ∃! x, x ∈ sorted.destutter (cmp.Differ ctx) ∧ cmp a x ctx = 0 := by
  obtain ⟨x, hx, hxa⟩ := exists_mem_destutter (R := cmp.Differ ctx) hst.pairwise a
    (hst.perm.mem_iff.mpr ha)
  have hlevel : ¬cmp.Differ ctx x a := by
    rcases hxa with rfl | ⟨hlevel, -⟩
    · rw [hcmp.differ_iff, not_not, and_self]
      exact decide_eq_true (hcmp.le_refl x)
    · exact hlevel
  have hlevel' := not_not.mp (mt (hcmp.differ_iff x a).mpr hlevel)
  refine ⟨x, ⟨hx, ?_⟩, ?_⟩
  · by_contra hax
    exact (hcmp.differ_iff a x).mp hax hlevel'.symm
  · rintro y ⟨hy, hay⟩
    have hpair := pairwise_destutter hcmp.test hcmp.differ_iff hst.pairwise
    have hstrict := hpair.imp (S := cmp.Differ ctx) fun {x y} hxy =>
      (hcmp.differ_iff x y).mpr fun hl => Bool.false_ne_true (hxy.symm.trans hl.2)
    have : Std.Symm (cmp.Differ ctx) := ⟨fun x y hxy => by
      rw [hcmp.differ_iff] at hxy ⊢
      exact fun hl => hxy hl.symm⟩
    have hyx : ¬cmp.Differ ctx y x := by
      have hay' := not_not.mp (mt (hcmp.differ_iff a y).mpr (not_not.mpr hay))
      rw [hcmp.differ_iff, not_not]
      exact ⟨hcmp.test.trans y a x hay'.2 hlevel'.2, hcmp.test.trans x a y hlevel'.1 hay'.1⟩
    by_contra hne
    exact hyx (hstrict.forall hy hx hne)

/-- Removal keeps the head of each run of equal elements, and sorting before it the first
occurrence of each class. -/
theorem algoUnique_heads (hpos : 0 < elemSize) :
    ((Equivalence fun a b => cmp a b ctx = 0) → ∀ base : List α, ∃ kept stale,
      algoUnique base base.length elemSize cmp ctx = .ok (kept ++ stale, kept.length) ∧
      (kept ++ stale).length = base.length ∧
      kept = (base.splitBy fun a b => cmp a b ctx = 0).filterMap List.head? ∧
      (kept.IsChain fun a b => cmp a b ctx ≠ 0) ∧
      algoUnique (kept ++ stale) kept.length elemSize cmp ctx =
        .ok (kept ++ stale, kept.length)) ∧
    (cmp.TotalPreorder ctx → elemSize ≤ algoSortSwapBufSize → ∀ (base : List α)
      (tempBuffer : Option (List α)), (∀ temp ∈ tempBuffer, base.length ≤ temp.length) →
      ∃ sorted temp' kept stale,
        algoSort base elemSize cmp ctx tempBuffer = .ok (sorted, temp') ∧
        algoUnique sorted sorted.length elemSize cmp ctx = .ok (kept ++ stale, kept.length) ∧
        (kept.Pairwise fun a b => cmp a b ctx < 0) ∧
        (∀ x, x ∈ kept ↔
          ∃ i : Nat, base[i]? = some x ∧ ∀ j < i, ∀ y ∈ base[j]?, cmp y x ctx ≠ 0) ∧
        ∀ a ∈ base, ∃! x, x ∈ kept ∧ cmp a x ctx = 0) := by
  refine ⟨fun heq base => ?_, fun hcmp hsize base tempBuffer htemp => ?_⟩
  · obtain ⟨stale, hok, hlen⟩ := @algoUnique_spec _ _ cmp ctx _ hpos base []
    rw [List.append_nil, List.append_nil] at hok
    refine ⟨base.destutter (cmp.Differ ctx), stale, hok, hlen, ?_,
      List.isChain_destutter _ base, algoUnique_again hpos base stale⟩
    have heq' : Equivalence fun a b => ¬cmp.Differ ctx a b := by
      simpa only [AlgoCmpFn.Differ, not_not] using heq
    rw [destutter_eq_heads heq']
    congr 2
    funext a b
    rw [Bool.eq_iff_iff, Bool.not_eq_true', decide_eq_true_eq]
    exact decide_eq_false_iff_not.trans not_not
  · obtain ⟨sorted, temp', hsort, hst⟩ :=
      algoSort_spec (SortRule.stable hcmp.test) hpos hsize base tempBuffer htemp
    obtain ⟨stale, hok, hlen⟩ := @algoUnique_spec _ _ cmp ctx _ hpos sorted []
    rw [List.append_nil, List.append_nil] at hok
    refine ⟨sorted, temp', sorted.destutter (cmp.Differ ctx), stale, hsort, hok, ?_,
      hst.mem_destutter_iff hcmp.test hcmp.differ_iff, fun a ha => existsUnique_level hcmp hst ha⟩
    refine (pairwise_destutter hcmp.test hcmp.differ_iff hst.pairwise).imp fun {a b} hba => ?_
    rw [hcmp.lt_iff_not_le]
    simpa [AlgoCmpFn.test, AlgoCmpFn.Le] using hba

/-- Integers with equal neighbours, kept by runs, and records sorted and kept by their first
component. -/
theorem algoUnique_heads_records :
    (∃ kept stale : List Int, algoUnique [1, 1, 2, 1] 4 4 algoCmp () =
        .ok (kept ++ stale, kept.length) ∧
      kept = ([1, 1, 2, 1].splitBy fun a b => algoCmp a b () = 0).filterMap List.head?) ∧
    ∃ (sorted : List (Int × Nat)) (temp' : Option (List (Int × Nat)))
      (kept stale : List (Int × Nat)),
      algoSort [(2, 0), (1, 1), (2, 2)] 16 (fun a b (_ : Unit) => algoCmp a.1 b.1 ()) () none =
        .ok (sorted, temp') ∧
      algoUnique sorted sorted.length 16 (fun a b (_ : Unit) => algoCmp a.1 b.1 ()) () =
        .ok (kept ++ stale, kept.length) ∧
      ∀ a ∈ [((2 : Int), (0 : Nat)), (1, 1), (2, 2)],
        ∃! x, x ∈ kept ∧ algoCmp a.1 x.1 () = 0 := by
  have hequiv : Equivalence fun a b : Int => algoCmp a b () = 0 := by
    have hiff (a b : Int) : algoCmp a b () = 0 ↔ a = b := by
      rw [show algoCmp a b () = 0 ↔ algoCmp a b () ≤ 0 ∧ ¬algoCmp a b () < 0 by omega,
        algoCmp_nonpos_iff, algoCmp_neg_iff]
      omega
    simpa only [hiff] using eq_equivalence
  have hcmp : AlgoCmpFn.TotalPreorder
      (fun (a b : Int × Nat) (_ : Unit) => algoCmp a.1 b.1 ()) () :=
    ⟨fun a b => algoCmp_totalPreorder.flip a.1 b.1,
      fun a b c => algoCmp_totalPreorder.trans a.1 b.1 c.1⟩
  obtain ⟨kept, stale, hok, -, hkept, -⟩ :=
    (@algoUnique_heads _ _ algoCmp () 4 (by decide)).1 hequiv [1, 1, 2, 1]
  obtain ⟨sorted, temp', kept', stale', hsort, hok', -, -, hfirst⟩ :=
    (@algoUnique_heads _ _ _ _ 16 (by decide)).2 hcmp (by decide) [(2, 0), (1, 1), (2, 2)] none
      (by simp)
  exact ⟨⟨kept, stale, hok, hkept⟩, sorted, temp', kept', stale', hsort, hok', hfirst⟩

end CanonC
