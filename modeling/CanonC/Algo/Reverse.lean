import CanonC.Algo.Sort.Outcomes
import Mathlib.Data.List.Forall2
import Mathlib.Data.List.Induction

/-!
# Reversing and palindromes

Both step with one index from each end and stop where the indices meet. A sorted array
that is reversed is what sorting the reversed array in descending order gives.
-/

namespace CanonC

open Toolkit

variable {α Ctx : Type*}

/-- `ALGO_REVERSE_SWAP_BUF_SIZE`. -/
def algoReverseSwapBufSize : Nat := 256

/-- The loop of `algo_reverse`. -/
def algoReverseLoop (array : List α) (left right : Nat) : Except String (List α) :=
  if left < right then
    match readElem array left, readElem array right with
    | .ok temp, .ok x =>
      match writeElem array left x with
      | .error e => .error e
      | .ok array =>
        match writeElem array right temp with
        | .error e => .error e
        | .ok array => algoReverseLoop array (left + 1) (right - 1)
    | .error e, _ => .error e
    | .ok _, .error e => .error e
  else .ok array
termination_by right - left

/-- `algo_reverse`. -/
def algoReverse (array : List α) (elemSize : Nat) : Except String (List α) := do
  requireMsg (0 < elemSize) "algo_reverse: elem_size must be > 0"
  requireMsg (elemSize ≤ algoReverseSwapBufSize)
    "algo_reverse: elem_size exceeds ALGO_REVERSE_SWAP_BUF_SIZE"
  if array.length < 2 then .ok array else algoReverseLoop array 0 (array.length - 1)

/-- `algo_reverse_slice`. -/
def algoReverseSlice (sv : List α) (elemSize : Nat) : Except String (List α) :=
  if sv.length < 2 then .ok sv else algoReverse sv elemSize

/-- The loop of `algo_is_palindrome`. -/
def algoIsPalindromeLoop (cmp : AlgoCmpFn α Ctx) (ctx : Ctx) (array : List α)
    (leftIdx rightIdx : Nat) : Except String Bool :=
  if leftIdx < rightIdx then
    match readElem array leftIdx, readElem array rightIdx with
    | .ok x, .ok y =>
      if cmp x y ctx ≠ 0 then .ok false
      else algoIsPalindromeLoop cmp ctx array (leftIdx + 1) (rightIdx - 1)
    | .error e, _ => .error e
    | .ok _, .error e => .error e
  else .ok true
termination_by rightIdx - leftIdx

/-- `algo_is_palindrome`. -/
def algoIsPalindrome (array : List α) (elemSize : Nat) (cmp : AlgoCmpFn α Ctx) (ctx : Ctx) :
    Except String Bool := do
  requireMsg (0 < elemSize) "algo_is_palindrome: elem_size must be > 0"
  if array.length < 2 then .ok true
  else algoIsPalindromeLoop cmp ctx array 0 (array.length - 1)

/-- `algo_is_palindrome_slice`. -/
def algoIsPalindromeSlice (sv : List α) (elemSize : Nat) (cmp : AlgoCmpFn α Ctx) (ctx : Ctx) :
    Except String Bool :=
  if sv.length < 2 then .ok true else algoIsPalindrome sv elemSize cmp ctx

/-- The elements at the same distance from both ends, the middle one left out. -/
def mirrored (xs : List α) : List (α × α) := (xs.zip xs.reverse).take (xs.length / 2)

/-- The first element and the last one are images of each other. -/
theorem mirrored_cons_append (a b : α) (xs : List α) :
    mirrored (a :: (xs ++ [b])) = (a, b) :: mirrored xs := by
  have hhalf : (a :: (xs ++ [b])).length / 2 = xs.length / 2 + 1 := by
    rw [List.length_cons, List.length_append, List.length_singleton, Nat.add_assoc]
    exact Nat.add_div_right _ (by decide)
  have hrev : (a :: (xs ++ [b])).reverse = b :: (xs.reverse ++ [a]) := by simp
  rw [mirrored, mirrored, hhalf, hrev, List.zip_cons_cons, List.take_succ_cons,
    List.zip_append (by rw [List.length_reverse]), List.take_append_of_le_length]
  rw [List.length_zip, List.length_reverse, Nat.min_self]
  exact Nat.div_le_self _ _

/-- A list with no two elements has none at the same distance from both ends. -/
theorem mirrored_of_short {xs : List α} (h : xs.length < 2) : mirrored xs = [] := by
  rw [mirrored, Nat.div_eq_of_lt h, List.take_zero]

/-- What holds of all pairs holds of each element of the first half and its image. -/
theorem forall_mem_mirrored {xs : List α} {R : α → α → Prop} :
    (∀ p ∈ mirrored xs, R p.1 p.2) ↔
      ∀ i (h : i < xs.length / 2), R xs[i] xs[xs.length - 1 - i] := by
  have hlen : (mirrored xs).length = xs.length / 2 := by
    rw [mirrored, List.length_take, List.length_zip, List.length_reverse, Nat.min_self]
    exact Nat.min_eq_left (Nat.div_le_self _ _)
  have hpair (i : Nat) (h : i < (mirrored xs).length) :
      (mirrored xs)[i] = (xs[i], xs[xs.length - 1 - i]) := by
    simp only [mirrored, List.getElem_take, List.getElem_zip, List.getElem_reverse]
  rw [List.forall_mem_iff_getElem]
  constructor
  · intro h i hi
    have hp := h i (by rwa [hlen])
    rwa [hpair] at hp
  · intro h i hi
    rw [hpair]
    exact h i (by rwa [hlen] at hi)

section Loops

variable {array pre post : List α} {a b : α}

/-- The two ends of a part of the array are read where it starts and ends. -/
theorem readElem_ends {xs : List α} (h : array = pre ++ (a :: (xs ++ [b])) ++ post) :
    readElem array pre.length = .ok a ∧ readElem array (pre.length + (xs.length + 1)) = .ok b := by
  refine ⟨readElem_front h, ?_⟩
  have hb : array = pre ++ a :: xs ++ b :: post := by simp [h]
  rw [hb]
  exact readElem_append (by rw [List.length_append, List.length_cons])

/-- The loop turns around the part between the indices. -/
theorem algoReverseLoop_spec (xs : List α) : ∀ (pre post : List α),
    algoReverseLoop (pre ++ xs ++ post) pre.length (pre.length + (xs.length - 1)) =
      .ok (pre ++ xs.reverse ++ post) := by
  induction xs using List.bidirectionalRec with
  | nil =>
    intro pre post
    rw [algoReverseLoop, if_neg (by simp)]
    rfl
  | singleton a =>
    intro pre post
    rw [algoReverseLoop, if_neg (by simp)]
    rfl
  | cons_append a xs b ih =>
    intro pre post
    obtain ⟨hleft, hright⟩ := @readElem_ends _ _ pre post a b xs rfl
    have hlen : (a :: (xs ++ [b])).length - 1 = xs.length + 1 := by simp
    have hwrite : writeElem (pre ++ (a :: (xs ++ [b])) ++ post) pre.length b =
        .ok (pre ++ b :: xs ++ b :: post) := by
      rw [List.append_assoc pre, List.cons_append, writeElem_append rfl]
      simp
    have hback : writeElem (pre ++ b :: xs ++ b :: post) (pre.length + (xs.length + 1)) a =
        .ok (pre ++ b :: xs ++ a :: post) :=
      writeElem_append (by rw [List.length_append, List.length_cons])
    have hnext := ih (pre ++ [b]) (a :: post)
    have harray : pre ++ [b] ++ xs ++ a :: post = pre ++ b :: xs ++ a :: post := by simp
    have hresult : pre ++ [b] ++ xs.reverse ++ a :: post =
        pre ++ (a :: (xs ++ [b])).reverse ++ post := by simp
    rw [harray, hresult, List.length_append, List.length_singleton] at hnext
    rw [algoReverseLoop, hlen, if_pos (by omega), hleft, hright]
    dsimp only
    rw [hwrite]
    dsimp only
    rw [hback, ← hnext]
    dsimp only
    rcases Nat.eq_zero_or_pos xs.length with hzero | hpos
    · -- The indices meet: the loop stops wherever the right one is.
      rw [algoReverseLoop, if_neg (by omega), algoReverseLoop, if_neg (by omega)]
    · congr 1
      omega

/-- The loop compares the elements at the same distance from both ends. -/
theorem algoIsPalindromeLoop_spec (cmp : AlgoCmpFn α Ctx) (ctx : Ctx) (xs : List α) :
    ∀ (pre post : List α),
      algoIsPalindromeLoop cmp ctx (pre ++ xs ++ post) pre.length
          (pre.length + (xs.length - 1)) =
        .ok ((mirrored xs).all fun p => cmp p.1 p.2 ctx = 0) := by
  induction xs using List.bidirectionalRec with
  | nil =>
    intro pre post
    rw [algoIsPalindromeLoop, if_neg (by simp), @mirrored_of_short α [] Nat.two_pos,
      List.all_nil]
  | singleton a =>
    intro pre post
    rw [algoIsPalindromeLoop, if_neg (by simp), @mirrored_of_short α [a] Nat.one_lt_two,
      List.all_nil]
  | cons_append a xs b ih =>
    intro pre post
    obtain ⟨hleft, hright⟩ := @readElem_ends _ _ pre post a b xs rfl
    have hlen : (a :: (xs ++ [b])).length - 1 = xs.length + 1 := by simp
    have hnext := ih (pre ++ [a]) (b :: post)
    have harray : pre ++ [a] ++ xs ++ b :: post = pre ++ (a :: (xs ++ [b])) ++ post := by simp
    rw [harray, List.length_append, List.length_singleton] at hnext
    rw [algoIsPalindromeLoop, hlen, if_pos (by omega), hleft, hright, mirrored_cons_append,
      List.all_cons]
    dsimp only
    by_cases hlevel : cmp a b ctx = 0
    · rw [if_neg (not_not.mpr hlevel), decide_eq_true hlevel, Bool.true_and, ← hnext]
      rcases Nat.eq_zero_or_pos xs.length with hzero | hpos
      · rw [algoIsPalindromeLoop, if_neg (by omega), algoIsPalindromeLoop, if_neg (by omega)]
      · congr 1
        omega
    · rw [if_pos hlevel, decide_eq_false hlevel, Bool.false_and]

end Loops

variable {cmp : AlgoCmpFn α Ctx} {ctx : Ctx} {elemSize : Nat}

/-- `algo_reverse` reverses the array. -/
theorem algoReverse_eq (hpos : 0 < elemSize) (hsize : elemSize ≤ algoReverseSwapBufSize)
    (array : List α) : algoReverse array elemSize = .ok array.reverse := by
  rw [algoReverse, decide_eq_true hpos, requireMsg_true, ok_bind, decide_eq_true hsize,
    requireMsg_true, ok_bind]
  split
  · next hshort =>
    match array, hshort with
    | [], _ => rfl
    | [a], _ => rfl
  · have hloop := algoReverseLoop_spec array [] []
    rwa [List.nil_append, List.append_nil, List.length_nil, Nat.zero_add, List.nil_append,
      List.append_nil] at hloop

/-- `algo_is_palindrome` compares the elements of the first half with their images. -/
theorem algoIsPalindrome_eq (hpos : 0 < elemSize) (array : List α) :
    algoIsPalindrome array elemSize cmp ctx =
      .ok ((mirrored array).all fun p => cmp p.1 p.2 ctx = 0) := by
  rw [algoIsPalindrome, decide_eq_true hpos, requireMsg_true, ok_bind]
  split
  · next hshort => rw [mirrored_of_short hshort, List.all_nil]
  · have hloop := algoIsPalindromeLoop_spec cmp ctx array [] []
    rwa [List.nil_append, List.append_nil, List.length_nil, Nat.zero_add] at hloop

/-- The slice functions stop a short slice before the generic ones do. -/
theorem algoReverseSlice_eq (hpos : 0 < elemSize) (hsize : elemSize ≤ algoReverseSwapBufSize)
    (sv : List α) : algoReverseSlice sv elemSize = .ok sv.reverse := by
  rw [algoReverseSlice]
  split
  · next hshort => rw [← algoReverse_eq hpos hsize, algoReverse, decide_eq_true hpos,
      requireMsg_true, ok_bind, decide_eq_true hsize, requireMsg_true, ok_bind, if_pos hshort]
  · exact algoReverse_eq hpos hsize sv

/-- The slice variant has the same answer. -/
theorem algoIsPalindromeSlice_eq (hpos : 0 < elemSize) (sv : List α) :
    algoIsPalindromeSlice sv elemSize cmp ctx = algoIsPalindrome sv elemSize cmp ctx := by
  rw [algoIsPalindromeSlice]
  split
  · next hshort => rw [algoIsPalindrome_eq hpos, mirrored_of_short hshort, List.all_nil]
  · rfl

/-- A list is level with its reverse when its first half is level with the image of it. -/
theorem forall₂_reverse_iff {xs : List α} {R : α → α → Prop} (hrefl : ∀ a, R a a)
    (hsymm : ∀ a b, R a b → R b a) :
    List.Forall₂ R xs xs.reverse ↔ ∀ p ∈ mirrored xs, R p.1 p.2 := by
  rw [forall_mem_mirrored, List.forall₂_iff_get]
  simp only [List.get_eq_getElem, List.getElem_reverse, List.length_reverse, true_and]
  constructor
  · exact fun h i hi => h i (by omega) (by omega)
  · intro h i hi _
    rcases Nat.lt_trichotomy i (xs.length - 1 - i) with hlt | heq | hgt
    · exact h i (by omega)
    · have hmid : xs[xs.length - 1 - i] = xs[i] := by simp only [← heq]
      rw [hmid]
      exact hrefl _
    · have himage := h (xs.length - 1 - i) (by omega)
      have hback : xs.length - 1 - (xs.length - 1 - i) = i := by omega
      simp only [hback] at himage
      exact hsymm _ _ himage

/-- Whatever the comparator, a palindrome is found when it gives zero for each element of the first
half and its image; under one that is reflexive and symmetric in what it finds level, and for
elements that the swap buffer of `algo_reverse` has room for, when the array is level with what
`algo_reverse` makes of it, which is turned back by a second call. -/
theorem algoIsPalindrome_mirror (cmp : AlgoCmpFn α Ctx) (ctx : Ctx) (hpos : 0 < elemSize)
    (array : List α) :
    ∃ flag, algoIsPalindrome array elemSize cmp ctx = .ok flag ∧
      algoIsPalindromeSlice array elemSize cmp ctx = .ok flag ∧
      (flag = true ↔ ∀ i (h : i < array.length / 2),
        cmp array[i] array[array.length - 1 - i] ctx = 0) ∧
      (elemSize ≤ algoReverseSwapBufSize →
        ∃ turned, algoReverse array elemSize = .ok turned ∧
          algoReverse turned elemSize = .ok array ∧
          algoReverseSlice array elemSize = .ok turned ∧
          ((∀ a, cmp a a ctx = 0) → (∀ a b, cmp a b ctx = 0 → cmp b a ctx = 0) →
            (flag = true ↔ List.Forall₂ (fun x y => cmp x y ctx = 0) array turned) ∧
            algoIsPalindrome turned elemSize cmp ctx = .ok flag)) := by
  have hflag (xs : List α) : (mirrored xs).all (fun p => cmp p.1 p.2 ctx = 0) = true ↔
      ∀ p ∈ mirrored xs, cmp p.1 p.2 ctx = 0 := by simp [List.all_eq_true]
  refine ⟨_, algoIsPalindrome_eq hpos array, ?_, ?_, fun hsize => ⟨_,
    algoReverse_eq hpos hsize array, ?_, algoReverseSlice_eq hpos hsize array,
    fun hrefl hsymm => ⟨?_, ?_⟩⟩⟩
  · rw [algoIsPalindromeSlice_eq hpos, algoIsPalindrome_eq hpos]
  · rw [hflag, forall_mem_mirrored (R := fun x y => cmp x y ctx = 0)]
  · rw [algoReverse_eq hpos hsize, List.reverse_reverse]
  · rw [hflag, forall₂_reverse_iff hrefl hsymm]
  · rw [algoIsPalindrome_eq hpos, Except.ok.injEq, Bool.eq_iff_iff, hflag, hflag,
      ← forall₂_reverse_iff hrefl hsymm, ← forall₂_reverse_iff hrefl hsymm, List.reverse_reverse]
    exact ⟨fun h => h.flip.imp fun a b => hsymm b a, fun h => h.flip.imp fun a b => hsymm b a⟩

/-- A palindrome up to the parity of its elements. -/
theorem algoIsPalindrome_mirror_parity :
    ∃ turned, algoIsPalindrome [1, 4, 7, 6, 3] 4
        (fun (a b : Int) (_ : Unit) => a % 2 - b % 2) () = .ok true ∧
      algoReverse [(1 : Int), 4, 7, 6, 3] 4 = .ok turned ∧
      List.Forall₂ (fun x y => x % 2 - y % 2 = 0) [1, 4, 7, 6, 3] turned := by
  obtain ⟨flag, hcall, -, hflag, hturn⟩ := @algoIsPalindrome_mirror Int Unit 4
    (fun (a b : Int) (_ : Unit) => a % 2 - b % 2) () (by decide) [1, 4, 7, 6, 3]
  obtain ⟨turned, hturned, -, -, hlevel⟩ := hturn (by decide)
  obtain rfl : flag = true := hflag.mpr (by decide)
  exact ⟨turned, hcall, hturned,
    (hlevel (fun a => Int.sub_self _) (fun a b h => by omega)).1.mp rfl⟩

/-- A comparator with its arguments exchanged, as the descending ones are written. -/
def AlgoCmpFn.exchanged (cmp : AlgoCmpFn α Ctx) : AlgoCmpFn α Ctx := fun x y ctx => cmp y x ctx

/-- The exchanged comparator is a total preorder too. -/
theorem AlgoCmpFn.TotalPreorder.exchanged (h : cmp.TotalPreorder ctx) :
    cmp.exchanged.TotalPreorder ctx :=
  ⟨fun a b => h.flip b a, fun a b c hab hbc => h.trans c b a hbc hab⟩

/-- Reversing what `algo_sort` leaves gives what sorting the reversed array in descending order
leaves, elements that compare equal included; it is sorted in that order. Under a comparator that
finds only an element and itself level, sorting the array itself in descending order gives it
too. -/
theorem algoReverse_sort (hcmp : cmp.TotalPreorder ctx) (hpos : 0 < elemSize)
    (hsize : elemSize ≤ algoSortSwapBufSize) (hswap : elemSize ≤ algoReverseSwapBufSize)
    (base : List α) (tempBuffer : Option (List α))
    (htemp : ∀ temp ∈ tempBuffer, base.length ≤ temp.length) :
    ∃ sorted temp₁ turned result temp₂,
      algoSort base elemSize cmp ctx tempBuffer = .ok (sorted, temp₁) ∧
      algoReverse sorted elemSize = .ok result ∧ algoReverse result elemSize = .ok sorted ∧
      algoReverse base elemSize = .ok turned ∧
      algoSort turned elemSize cmp.exchanged ctx tempBuffer = .ok (result, temp₂) ∧
      algoIsSorted result elemSize cmp.exchanged ctx = .ok true ∧
      ((∀ a b, cmp a b ctx = 0 → a = b) →
        ∃ temp₃, algoSort base elemSize cmp.exchanged ctx tempBuffer = .ok (result, temp₃)) := by
  have hdesc := hcmp.exchanged
  obtain ⟨sorted, temp₁, hsort, hst⟩ :=
    algoSort_spec (SortRule.stable hcmp.test) hpos hsize base tempBuffer htemp
  obtain ⟨result, temp₂, hsort', hst'⟩ := algoSort_spec (SortRule.stable hdesc.test) hpos hsize
    base.reverse tempBuffer (by rwa [List.length_reverse])
  have hresult : result = sorted.reverse := hst.reverse.unique hst'
  have hordered := hst'.pairwise
  refine ⟨sorted, temp₁, base.reverse, result, temp₂, hsort, ?_, ?_, algoReverse_eq hpos hswap base,
    hsort', ?_, fun hanti => ?_⟩
  · rw [algoReverse_eq hpos hswap, hresult]
  · rw [algoReverse_eq hpos hswap, hresult, List.reverse_reverse]
  · obtain ⟨b, hok, hb⟩ := algoIsSorted_spec cmp.exchanged ctx result hpos
    rw [hok, hb.mpr fun k hk => of_decide_eq_true
      (List.pairwise_iff_getElem.mp hordered k (k + 1) (by omega) hk (Nat.lt_succ_self k))]
  · obtain ⟨result', temp₃, hsort₃, hst₃⟩ :=
      algoSort_spec (SortRule.stable hdesc.test) hpos hsize base tempBuffer htemp
    have hperm : result'.Perm result :=
      hst₃.perm.trans ((List.reverse_perm base).symm.trans hst'.perm.symm)
    have heq : result' = result := by
      refine hperm.eq_of_pairwise (fun a b _ _ hab hba => hanti a b ?_) hst₃.pairwise hordered
      have hle : cmp b a ctx ≤ 0 := of_decide_eq_true hab
      have hge : cmp a b ctx ≤ 0 := of_decide_eq_true hba
      have hflip := hcmp.flip a b
      omega
    exact ⟨temp₃, heq ▸ hsort₃⟩

/-- Four integers in descending order. -/
theorem algoReverse_sort_integers : ∃ sorted result : List Int,
    (∃ temp₁, algoSort [3, 1, 4, 1] 8 algoCmp () none = .ok (sorted, temp₁)) ∧
      algoReverse sorted 8 = .ok result ∧
      ∃ temp₃, algoSort [3, 1, 4, 1] 8 algoCmpDesc () none = .ok (result, temp₃) := by
  obtain ⟨sorted, temp₁, _, result, _, hsort, hreverse, -, -, -, -, hdesc⟩ :=
    @algoReverse_sort Int Unit algoCmp () 8 algoCmp_totalPreorder (by decide) (by decide)
      (by decide) [3, 1, 4, 1] none (by simp)
  refine ⟨sorted, result, ⟨temp₁, hsort⟩, hreverse, hdesc fun a b hab => ?_⟩
  have hflip := algoCmp_neg_iff.not.mp hab.not_lt
  exact le_antisymm (algoCmp_nonpos_iff.mp hab.le) (not_lt.mp hflip)

end CanonC
