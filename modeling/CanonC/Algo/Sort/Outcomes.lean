import CanonC.Algo.Sort.Correctness

/-!
# The sort under any comparator, and the test for order

Whatever the comparator answers and does to its context, the sort ends with a rearrangement
of the array and touches only as much of the scratch buffer as the array is long. Under a total
preorder the test of adjacent pairs decides the order of all pairs, and the sort leaves exactly
the arrays alone that pass it.
-/

namespace CanonC

open Toolkit

variable {α Ctx : Type*} {ctx : Ctx} {elemSize : Nat}

section Scratch

variable {cmp : AlgoCmpProc α Ctx} {ctx' : Ctx} {base base' temp temp' : List α} (beyond : List α)

/-- A write to the scratch buffer leaves what lies beyond it. -/
theorem writeElem_beyond {k : Nat} {x : α} (h : writeElem temp k x = .ok temp') :
    writeElem (temp ++ beyond) k x = .ok (temp' ++ beyond) := by
  rw [writeElem] at h
  split at h
  · rename_i hk
    cases h
    rw [writeElem, if_pos (by rw [List.length_append]; omega), List.set_append_left _ _ hk]
  · cases h

/-- A copy reads nothing beyond the scratch buffer. -/
theorem copyElems_beyond {start count : Nat} (h : copyElems base start temp count = .ok base') :
    copyElems base start (temp ++ beyond) count = .ok base' := by
  rw [copyElems] at h
  split at h
  · rename_i hcount
    cases h
    rw [copyElems, if_pos (by rw [List.length_append]; omega),
      List.take_append_of_le_length hcount.2]
  · cases h

/-- The first loop of the merge ends alike whatever lies beyond the scratch buffer. -/
theorem algoMergeBoth_beyond {mid right i j k i' j' k' : Nat}
    (h : algoMergeBoth cmp base mid right i j k temp ctx = .ok (i', j', k', temp', ctx')) :
    algoMergeBoth cmp base mid right i j k (temp ++ beyond) ctx =
      .ok (i', j', k', temp' ++ beyond, ctx') := by
  induction i, j, k, temp, ctx using algoMergeBoth.induct cmp base mid right with
  | case1 i j k temp ctx hcond x y hy hx hle t ht ih =>
    rw [algoMergeBoth, if_pos hcond] at h ⊢
    simp only [hx, hy, if_pos hle, ht, writeElem_beyond beyond ht] at h ⊢
    exact ih h
  | case3 i j k temp ctx hcond x y hy hx hgt t ht ih =>
    rw [algoMergeBoth, if_pos hcond] at h ⊢
    simp only [hx, hy, if_neg hgt, ht, writeElem_beyond beyond ht] at h ⊢
    exact ih h
  | case7 i j k temp ctx hcond =>
    rw [algoMergeBoth, if_neg hcond] at h ⊢
    cases h
    rfl
  | case2 i j k temp ctx hcond x y hy hx hle e ht =>
    rw [algoMergeBoth, if_pos hcond] at h
    simp only [hx, hy, if_pos hle, ht] at h
    cases h
  | case4 i j k temp ctx hcond x y hy hx hgt e ht =>
    rw [algoMergeBoth, if_pos hcond] at h
    simp only [hx, hy, if_neg hgt, ht] at h
    cases h
  | case5 i j k temp ctx hcond e hx =>
    rw [algoMergeBoth, if_pos hcond] at h
    simp only [hx] at h
    cases h
  | case6 i j k temp ctx hcond x e hy hx =>
    rw [algoMergeBoth, if_pos hcond] at h
    simp only [hx, hy] at h
    cases h

/-- The rest of a half is put into the scratch buffer and not beyond. -/
theorem algoMergeRest_beyond {stop i k k' : Nat}
    (h : algoMergeRest base stop i k temp = .ok (k', temp')) :
    algoMergeRest base stop i k (temp ++ beyond) = .ok (k', temp' ++ beyond) := by
  induction i, k, temp using algoMergeRest.induct stop with
  | case1 i k temp hcond ih =>
    rw [algoMergeRest, if_pos hcond] at h ⊢
    obtain ⟨x, hx, h⟩ := bind_eq_ok.mp h
    obtain ⟨t, ht, h⟩ := bind_eq_ok.mp h
    rw [hx, ok_bind, writeElem_beyond beyond ht, ok_bind]
    exact ih t h
  | case2 i k temp hcond =>
    rw [algoMergeRest, if_neg hcond] at h ⊢
    cases h
    rfl

/-- The way back from the scratch buffer does not lead beyond it. -/
theorem algoMergeBack_beyond {left mid right i j k : Nat}
    (h : algoMergeBack base left mid right i j k temp = .ok (base', temp')) :
    algoMergeBack base left mid right i j k (temp ++ beyond) = .ok (base', temp' ++ beyond) := by
  obtain ⟨⟨k₁, t₁⟩, hleft, h⟩ := bind_eq_ok.mp h
  obtain ⟨⟨k₂, t₂⟩, hright, h⟩ := bind_eq_ok.mp h
  obtain ⟨b, hcopy, h⟩ := bind_eq_ok.mp h
  cases h
  simp only [algoMergeBack, algoMergeRest_beyond beyond hleft, algoMergeRest_beyond beyond hright,
    copyElems_beyond beyond hcopy, ok_bind]

/-- A merge stays in the scratch buffer. -/
theorem algoMerge_beyond {left mid right : Nat}
    (h : algoMerge base left mid right cmp temp ctx = .ok (base', temp', ctx')) :
    algoMerge base left mid right cmp (temp ++ beyond) ctx =
      .ok (base', temp' ++ beyond, ctx') := by
  obtain ⟨⟨i, j, k, t, c⟩, hboth, h⟩ := bind_eq_ok.mp h
  rw [algoMerge, algoMergeBoth_beyond beyond hboth, ok_bind]
  dsimp only at h ⊢
  cases hback : algoMergeBack base left mid right i j k t with
  | error e =>
    rw [hback] at h
    cases h
  | ok r =>
    rw [hback] at h
    cases h
    rw [algoMergeBack_beyond beyond hback]
    rfl

/-- Merge sort ends alike whatever lies beyond the scratch buffer. -/
theorem algoMergeSortRange_beyond {left right : Nat}
    (h : algoMergeSortRange cmp elemSize base left right temp ctx = .ok (base', temp', ctx')) :
    algoMergeSortRange cmp elemSize base left right (temp ++ beyond) ctx =
      .ok (base', temp' ++ beyond, ctx') := by
  induction base, left, right, temp, ctx using algoMergeSortRange.induct
    generalizing base' temp' ctx' with
  | case1 base left right temp ctx h1 =>
    rw [algoMergeSortRange, if_pos h1] at h ⊢
    cases h
    rfl
  | case2 base left right temp ctx h1 h16 =>
    rw [algoMergeSortRange, if_neg h1, if_pos h16] at h ⊢
    obtain ⟨⟨b, c⟩, hins, h⟩ := bind_eq_ok.mp h
    cases h
    rw [hins, ok_bind]
  | case3 base left right temp ctx h1 h16 mid ihLeft =>
    rename_i ihRight
    rw [algoMergeSortRange, if_neg h1, if_neg h16] at h ⊢
    obtain ⟨⟨b₁, t₁, c₁⟩, hleft, h⟩ := bind_eq_ok.mp h
    obtain ⟨⟨b₂, t₂, c₂⟩, hright, h⟩ := bind_eq_ok.mp h
    have hleft' : algoMergeSortRange cmp elemSize base left (left + (right - left) / 2)
        (temp ++ beyond) ctx = .ok (b₁, t₁ ++ beyond, c₁) := ihLeft hleft
    have hright' : algoMergeSortRange cmp elemSize b₁ (left + (right - left) / 2) right
        (t₁ ++ beyond) c₁ = .ok (b₂, t₂ ++ beyond, c₂) := ihRight b₁ t₁ c₁ hright
    simp only [hleft', hright', algoMerge_beyond beyond h, ok_bind]

/-- The sort with a scratch buffer ends alike whatever lies beyond the buffer. -/
theorem algoSortWith_beyond
    (h : algoSortWith base elemSize cmp ctx (some temp) = .ok (base', some temp', ctx')) :
    algoSortWith base elemSize cmp ctx (some (temp ++ beyond)) =
      .ok (base', some (temp' ++ beyond), ctx') := by
  obtain ⟨_, hreq, h⟩ := bind_eq_ok.mp h
  rw [algoSortWith, hreq, ok_bind]
  by_cases h2 : base.length < 2
  · rw [if_pos h2] at h ⊢
    cases h
    rfl
  · rw [if_neg h2] at h ⊢
    by_cases h16 : base.length < 16
    · simp only [if_pos h16] at h ⊢
      obtain ⟨⟨b, c⟩, hins, h⟩ := bind_eq_ok.mp h
      cases h
      rw [hins, ok_bind]
    · simp only [if_neg h16] at h ⊢
      obtain ⟨⟨b, t, c⟩, hmerge, h⟩ := bind_eq_ok.mp h
      cases h
      simp only [algoMergeSortRange_beyond beyond hmerge, ok_bind]

end Scratch

section Rearranges

variable {cmp : AlgoCmpProc α Ctx} {ctx' : Ctx}

/-- The sort without scratch space leaves none. -/
theorem algoSortWith_none {base output : List α} {temp' : Option (List α)}
    (h : algoSortWith base elemSize cmp ctx none = .ok (output, temp', ctx')) : temp' = none := by
  obtain ⟨_, hreq, h⟩ := bind_eq_ok.mp h
  by_cases h2 : base.length < 2
  · rw [if_pos h2] at h
    cases h
    rfl
  · rw [if_neg h2] at h
    obtain ⟨b, hins, h⟩ := bind_eq_ok.mp h
    cases h
    rfl

/-- The sort leaves the scratch buffer it was given as long as before. -/
theorem algoSortWith_scratch {base output temp : List α} {temp' : Option (List α)}
    (hsize : elemSize ≤ algoSortSwapBufSize) (htemp : base.length ≤ temp.length)
    (h : algoSortWith base elemSize cmp ctx (some temp) = .ok (output, temp', ctx')) :
    ∃ t, temp' = some t ∧ t.length = temp.length := by
  obtain ⟨_, hreq, h⟩ := bind_eq_ok.mp h
  by_cases h2 : base.length < 2
  · rw [if_pos h2] at h
    cases h
    exact ⟨temp, rfl, rfl⟩
  · rw [if_neg h2] at h
    by_cases h16 : base.length < 16
    · simp only [if_pos h16] at h
      obtain ⟨b, hins, h⟩ := bind_eq_ok.mp h
      cases h
      exact ⟨temp, rfl, rfl⟩
    · simp only [if_neg h16] at h
      have hctx : (fun _ : Ctx => True) ctx := trivial
      obtain ⟨o, t, c, hok, -, -, hlen, -⟩ := algoMergeSortRange_spec cmp.answers_any
        (SortRule.perm _) hsize base.length [] base [] temp hctx rfl htemp
      rw [List.nil_append, List.append_nil, List.length_nil, Nat.zero_add] at hok
      rw [hok] at h
      cases h
      exact ⟨t, rfl, hlen⟩

/-- Whatever the comparator answers and does to its context, the sort ends with a rearrangement of
the array, with and without scratch space, and of a scratch buffer it uses only as much as
the array is long. -/
theorem algoSort_rearranges (cmp : AlgoCmpProc α Ctx) (ctx : Ctx) (hpos : 0 < elemSize)
    (hsize : elemSize ≤ algoSortSwapBufSize) (base : List α) :
    (∃ output ctx', algoSortWith base elemSize cmp ctx none = .ok (output, none, ctx') ∧
      output.Perm base) ∧
    ∀ scratch : List α, scratch.length = base.length → ∃ output scratch' ctx',
      output.Perm base ∧ scratch'.length = base.length ∧ ∀ beyond : List α,
        algoSortWith base elemSize cmp ctx (some (scratch ++ beyond)) =
          .ok (output, some (scratch' ++ beyond), ctx') := by
  have hsort (temp : Option (List α)) (htemp : ∀ t ∈ temp, base.length ≤ t.length) :
      ∃ output temp' ctx', algoSortWith base elemSize cmp ctx temp = .ok (output, temp', ctx') ∧
        output.Perm base :=
    algoSortWith_spec cmp.answers_any (SortRule.perm _) hpos hsize base temp htemp trivial
  constructor
  · obtain ⟨output, temp', ctx', hok, hperm⟩ := hsort none (by rintro temp ⟨⟩)
    obtain rfl := algoSortWith_none hok
    exact ⟨output, ctx', hok, hperm⟩
  · intro scratch hlen
    obtain ⟨output, temp', ctx', hok, hperm⟩ := hsort (some scratch) (by
      rintro temp ⟨⟩
      exact hlen.ge)
    obtain ⟨scratch', rfl, hlen'⟩ := algoSortWith_scratch hsize hlen.ge hok
    exact ⟨output, scratch', ctx', hperm, hlen'.trans hlen, fun beyond =>
      algoSortWith_beyond beyond hok⟩

/-- Three numbers under a comparator that ignores them and answers by turns that the first is after
the second and that it is not, counting its calls in the context. -/
theorem algoSort_rearranges_turns :
    (∃ output ctx', algoSortWith [1, 1, 2] 8 (fun _ _ calls => (1 - (calls % 2 : Int), calls + 1)) 0
        none = .ok (output, none, ctx') ∧ output.Perm [1, 1, 2]) ∧
      ∀ scratch : List Nat, scratch.length = 3 → ∃ output scratch' ctx', output.Perm [1, 1, 2] ∧
        scratch'.length = 3 ∧ ∀ beyond : List Nat,
          algoSortWith [1, 1, 2] 8 (fun _ _ calls => (1 - (calls % 2 : Int), calls + 1)) 0
            (some (scratch ++ beyond)) = .ok (output, some (scratch' ++ beyond), ctx') :=
  algoSort_rearranges _ (0 : Int) (by decide) (by decide) [1, 1, 2]

end Rearranges

section Sorted

variable {cmp : AlgoCmpFn α Ctx} {base : List α}

/-- The loop passes exactly when no element from the index on is before its predecessor. -/
theorem algoIsSortedFrom_spec (cmp : AlgoCmpFn α Ctx) (ctx : Ctx) (base : List α) {i : Nat}
    (hi : 0 < i) :
    ∃ b, algoIsSortedFrom cmp ctx base i = .ok b ∧
      (b = true ↔ ∀ k, i ≤ k + 1 → ∀ h : k + 1 < base.length,
        cmp base[k] base[k + 1] ctx ≤ 0) := by
  by_cases hlen : i < base.length
  · obtain ⟨k, rfl⟩ := Nat.exists_eq_succ_of_ne_zero hi.ne'
    have hx : readElem base (k + 1 - 1) = .ok base[k] := by
      rw [readElem, Nat.add_sub_cancel, List.getElem?_eq_getElem (by omega)]
    have hy : readElem base (k + 1) = .ok base[k + 1] := by
      rw [readElem, List.getElem?_eq_getElem hlen]
    rw [algoIsSortedFrom, if_pos hlen]
    simp only [hx, hy]
    by_cases hafter : cmp base[k] base[k + 1] ctx > 0
    · refine ⟨false, if_pos hafter, iff_of_false Bool.false_ne_true fun hall => ?_⟩
      have hle := hall k (Nat.le_refl _) hlen
      omega
    · obtain ⟨b, hok, hb⟩ := algoIsSortedFrom_spec cmp ctx base (i := k + 2) (Nat.succ_pos _)
      refine ⟨b, by rw [if_neg hafter, hok],
        hb.trans ⟨fun hall j hj h => ?_, fun hall j hj h => ?_⟩⟩
      · rcases Nat.lt_or_eq_of_le hj with hlt | heq
        · exact hall j hlt h
        · obtain rfl : k = j := by omega
          omega
      · exact hall j (by omega) h
  · refine ⟨true, by rw [algoIsSortedFrom, if_neg hlen], iff_of_true rfl fun k hk h => ?_⟩
    omega
termination_by base.length - i

/-- The test passes exactly when no element is before its predecessor. -/
theorem algoIsSorted_spec (cmp : AlgoCmpFn α Ctx) (ctx : Ctx) (base : List α)
    (hpos : 0 < elemSize) :
    ∃ b, algoIsSorted base elemSize cmp ctx = .ok b ∧
      (b = true ↔ ∀ k, ∀ h : k + 1 < base.length, cmp base[k] base[k + 1] ctx ≤ 0) := by
  rw [algoIsSorted, decide_eq_true hpos, requireMsg_true, ok_bind]
  by_cases h2 : base.length < 2
  · exact ⟨true, if_pos h2, iff_of_true rfl fun k h => by omega⟩
  · rw [if_neg h2]
    obtain ⟨b, hok, hb⟩ := algoIsSortedFrom_spec cmp ctx base Nat.one_pos
    exact ⟨b, hok, hb.trans ⟨fun hall k => hall k (by omega), fun hall k _ => hall k⟩⟩

/-- Under a total preorder the order of neighbours is the order of all pairs. -/
theorem pairwise_iff_neighbours (hcmp : cmp.TotalPreorder ctx) :
    (base.Pairwise fun a b => cmp a b ctx ≤ 0) ↔
      ∀ k, ∀ h : k + 1 < base.length, cmp base[k] base[k + 1] ctx ≤ 0 := by
  have htrans : IsTrans α (cmp.Le ctx) := ⟨hcmp.le_trans⟩
  change base.Pairwise (cmp.Le ctx) ↔ _
  rw [← List.isChain_iff_pairwise, List.isChain_iff_getElem]
  rfl

/-- Under a total preorder the test passes exactly the arrays all of whose pairs are in
order, and these are the ones that the sort leaves alone, with and without scratch space,
when an element fits into its swap buffer; whatever the sort leaves passes it. -/
theorem algoIsSorted_iff (hcmp : cmp.TotalPreorder ctx) (hpos : 0 < elemSize) (base : List α) :
    ∃ b, algoIsSorted base elemSize cmp ctx = .ok b ∧
      (b = true ↔ ∀ i j, ∀ hij : i < j, ∀ hj : j < base.length, cmp base[i] base[j] ctx ≤ 0) ∧
      (elemSize ≤ algoSortSwapBufSize → ∀ tempBuffer : Option (List α),
        (∀ temp ∈ tempBuffer, base.length ≤ temp.length) →
        (b = true ↔ ∃ temp', algoSort base elemSize cmp ctx tempBuffer = .ok (base, temp')) ∧
        ∃ output temp', algoSort base elemSize cmp ctx tempBuffer = .ok (output, temp') ∧
          algoIsSorted output elemSize cmp ctx = .ok true) := by
  obtain ⟨b, hok, hb⟩ := algoIsSorted_spec cmp ctx base hpos
  rw [← pairwise_iff_neighbours hcmp] at hb
  refine ⟨b, hok, ?_, fun hsize tempBuffer htemp => ?_⟩
  · rw [hb, List.pairwise_iff_getElem]
    exact ⟨fun h i j hij hj => h i j (by omega) hj hij, fun h i j _ hj hij => h i j hij hj⟩
  · obtain ⟨output, temp', hsort, hst⟩ :=
      algoSort_spec (SortRule.stable hcmp.test) hpos hsize base tempBuffer htemp
    have hordered : output.Pairwise fun a b => cmp a b ctx ≤ 0 :=
      hst.pairwise.imp fun hab => of_decide_eq_true hab
    constructor
    · rw [hb]
      constructor
      · intro hpairs
        have hself : IsStableSort (cmp.test ctx) base base :=
          .self (hpairs.imp fun hab => decide_eq_true hab)
        exact ⟨temp', by rw [hsort, hself.unique hst]⟩
      · rintro ⟨t, ht⟩
        rw [hsort] at ht
        cases ht
        exact hordered
    · obtain ⟨b', hok', hb'⟩ := algoIsSorted_spec cmp ctx output hpos
      rw [(hb'.trans (pairwise_iff_neighbours hcmp).symm).mpr hordered] at hok'
      exact ⟨output, temp', hsort, hok'⟩

/-- Three numbers in ascending order, two of them level, pass the test, and the sort leaves them
alone. -/
theorem algoIsSorted_iff_level :
    algoIsSorted [1, 2, 2] 8 (algoCmp : AlgoCmpFn Nat Unit) () = .ok true ∧
      ∃ temp', algoSort [1, 2, 2] 8 (algoCmp : AlgoCmpFn Nat Unit) () none =
        .ok ([1, 2, 2], temp') := by
  obtain ⟨b, hok, hpairs, hsort⟩ :=
    @algoIsSorted_iff Nat Unit () 8 algoCmp algoCmp_totalPreorder (by decide) [1, 2, 2]
  have hle : [1, 2, 2].Pairwise (· ≤ ·) := by decide
  have hb : b = true := hpairs.mpr fun i j hij hj => algoCmp_nonpos_iff.mpr
    (List.pairwise_iff_getElem.mp hle i j (hij.trans hj) hj hij)
  subst hb
  exact ⟨hok, (hsort (by decide) none (by rintro temp ⟨⟩)).1.mp rfl⟩

end Sorted

end CanonC
