import Mathlib.Tactic.Common
import Mathlib.Data.List.Basic
import Mathlib.Data.List.Pairwise

/-!
# Stable sorting

A stable sort of a list is stated through tags: every element carries its position in
the input, the tagged output is a rearrangement of the tagged input, no element is
after its successors, and level elements appear by increasing tag. Under a total
preorder there is exactly one such output. Sorting algorithms build it from two steps,
inserting the next element and merging two adjacent parts, and a relation between
input and output that both steps keep holds of what any of them computes. The steps are
stated for answers that are allowed rather than for a test, so that a comparator that
contradicts itself is covered.
-/

namespace Toolkit

variable {α : Type*} {le : α → α → Bool}

/-- The tagged element is not after the other, and earlier in the input if they are
level. -/
def TagBefore (le : α → α → Bool) (x y : α × Nat) : Prop :=
  le x.1 y.1 = true ∧ (le y.1 x.1 = true → x.2 < y.2)

/-- The output is the input in order, level elements in the order they had. -/
def IsStableSort (le : α → α → Bool) (input output : List α) : Prop :=
  ∃ tagged : List (α × Nat), tagged.Perm input.zipIdx ∧ tagged.map Prod.fst = output ∧
    tagged.Pairwise (TagBefore le)

/-- A total preorder as a Boolean test. -/
structure IsTotalPreorderTest (le : α → α → Bool) : Prop where
  /-- Of two elements one is not after the other. -/
  total : ∀ a b, le a b = true ∨ le b a = true
  /-- Not being after is transitive. -/
  trans : ∀ a b c, le a b = true → le b c = true → le a c = true

/-- The order of tagged elements is transitive. -/
theorem TagBefore.trans (hle : IsTotalPreorderTest le) {x y z : α × Nat} (hxy : TagBefore le x y)
    (hyz : TagBefore le y z) : TagBefore le x z := by
  refine ⟨hle.trans _ _ _ hxy.1 hyz.1, fun hzx => ?_⟩
  have hyx := hle.trans _ _ _ hyz.1 hzx
  have hzy := hle.trans _ _ _ hzx hxy.1
  exact Nat.lt_trans (hxy.2 hyx) (hyz.2 hzy)

/-- Two tagged elements are not before each other. -/
theorem TagBefore.asymm {x y : α × Nat} (hxy : TagBefore le x y) : ¬ TagBefore le y x :=
  fun hyx => Nat.lt_asymm (hxy.2 hyx.1) (hyx.2 hxy.1)

namespace IsStableSort

variable {input output : List α}

/-- A stable sort rearranges its input. -/
theorem perm (h : IsStableSort le input output) : output.Perm input := by
  obtain ⟨tagged, hperm, rfl, -⟩ := h
  have hfst := hperm.map Prod.fst
  rwa [List.zipIdx_map_fst] at hfst

/-- A stable sort leaves no element after a later one. -/
theorem pairwise (h : IsStableSort le input output) :
    output.Pairwise fun a b => le a b = true := by
  obtain ⟨tagged, -, rfl, hp⟩ := h
  rw [List.pairwise_map]
  exact hp.imp fun hxy => hxy.1

/-- An input has one stable sort. -/
theorem unique {output' : List α} (h : IsStableSort le input output)
    (h' : IsStableSort le input output') : output' = output := by
  obtain ⟨tagged, hperm, rfl, hp⟩ := h
  obtain ⟨tagged', hperm', rfl, hp'⟩ := h'
  have heq : tagged' = tagged :=
    (hperm'.trans hperm.symm).eq_of_pairwise
      (fun x y _ _ hxy hyx => absurd hyx hxy.asymm) hp' hp
  rw [heq]

/-- Nothing is sorted. -/
theorem nil : IsStableSort le ([] : List α) [] := ⟨[], .nil, rfl, .nil⟩

/-- A list with no element after a later one is its own stable sort. -/
theorem self (h : input.Pairwise fun a b => le a b = true) : IsStableSort le input input := by
  refine ⟨input.zipIdx, .refl _, List.zipIdx_map_fst 0 input, ?_⟩
  rw [List.pairwise_iff_getElem] at h ⊢
  intro i j hi hj hij
  rw [List.length_zipIdx] at hi hj
  rw [List.getElem_zipIdx, List.getElem_zipIdx]
  exact ⟨h i j hi hj hij, fun _ => Nat.add_lt_add_left hij 0⟩

private theorem shift {n : Nat} (h : IsStableSort le input output) :
    ∃ tagged : List (α × Nat), tagged.Perm (input.zipIdx n) ∧ tagged.map Prod.fst = output ∧
      tagged.Pairwise (TagBefore le) := by
  obtain ⟨tagged, hperm, rfl, hp⟩ := h
  refine ⟨tagged.map (Prod.map id (· + n)), ?_, ?_, ?_⟩
  · have hshift := hperm.map (Prod.map id (· + n))
    rwa [List.map_snd_add_zipIdx_eq_zipIdx, Nat.add_zero] at hshift
  · rw [List.map_map]
    rfl
  · rw [List.pairwise_map]
    exact hp.imp fun hxy => ⟨hxy.1, fun hyx => Nat.add_lt_add_right (hxy.2 hyx) n⟩

private theorem pairwise_merge {R : α × Nat → α × Nat → Prop} {s t : List (α × Nat)}
    (htrans : ∀ x y z, R x y → R y z → R x z)
    (hyes : ∀ x ∈ s, ∀ y ∈ t, le x.1 y.1 = true → R x y)
    (hno : ∀ x ∈ s, ∀ y ∈ t, le x.1 y.1 = false → R y x)
    (hs : s.Pairwise R) (ht : t.Pairwise R) :
    (s.merge t fun x y => le x.1 y.1).Pairwise R := by
  induction s generalizing t with
  | nil => simpa using ht
  | cons x s ihs =>
    induction t with
    | nil => simpa using hs
    | cons y t iht =>
      obtain ⟨hxs, hs'⟩ := List.pairwise_cons.mp hs
      obtain ⟨hyt, ht'⟩ := List.pairwise_cons.mp ht
      rw [List.cons_merge_cons]
      cases hxy : le x.1 y.1 with
      | true =>
        rw [if_pos rfl, List.pairwise_cons]
        have hR := hyes x (by simp) y (by simp) hxy
        refine ⟨fun z hz => ?_, ihs (fun a ha => hyes a (by simp [ha]))
          (fun a ha => hno a (by simp [ha])) hs' ht⟩
        rcases List.mem_merge.mp hz with hz | hz
        · exact hxs z hz
        · rcases List.mem_cons.mp hz with rfl | hz
          · exact hR
          · exact htrans _ _ _ hR (hyt z hz)
      | false =>
        rw [if_neg Bool.false_ne_true, List.pairwise_cons]
        have hR := hno x (by simp) y (by simp) hxy
        refine ⟨fun z hz => ?_, iht (fun a ha b hb => hyes a ha b (by simp [hb]))
          (fun a ha b hb => hno a ha b (by simp [hb])) ht'⟩
        rcases List.mem_merge.mp hz with hz | hz
        · rcases List.mem_cons.mp hz with rfl | hz
          · exact hR
          · exact htrans _ _ _ hR (hxs z hz)
        · exact hyt z hz

/-- Merging the stable sorts of two adjacent parts is a stable sort of the whole. -/
theorem merge (hle : IsTotalPreorderTest le) {l₁ l₂ o₁ o₂ : List α} (h₁ : IsStableSort le l₁ o₁)
    (h₂ : IsStableSort le l₂ o₂) : IsStableSort le (l₁ ++ l₂) (o₁.merge o₂ le) := by
  obtain ⟨s, hs, rfl, hps⟩ := h₁
  obtain ⟨t, ht, rfl, hpt⟩ := h₂.shift (n := l₁.length)
  -- Tags of the left part are below those of the right part.
  have htags : ∀ x ∈ s, ∀ y ∈ t, x.2 < y.2 := by
    intro x hx y hy
    have hx' := List.snd_lt_of_mem_zipIdx (hs.mem_iff.mp hx)
    have hy' := List.le_snd_of_mem_zipIdx (ht.mem_iff.mp hy)
    omega
  refine ⟨s.merge t fun x y => le x.1 y.1, ?_, ?_, ?_⟩
  · rw [List.zipIdx_append, Nat.zero_add]
    exact (List.merge_perm_append _).trans (hs.append ht)
  · exact List.map_merge fun _ _ _ _ => rfl
  · apply pairwise_merge (R := TagBefore le) (fun _ _ _ => TagBefore.trans hle) _ _ hps hpt
    · exact fun x hx y hy hxy => ⟨hxy, fun _ => htags x hx y hy⟩
    · intro x hx y hy hxy
      refine ⟨(hle.total _ _).resolve_left (by simp [hxy]), fun h => ?_⟩
      rw [hxy] at h
      cases h

/-- Any labels that increase along the input serve as tags. -/
theorem of_labels {labels : List Nat} (hlabels : labels.Pairwise (· < ·))
    (hlen : labels.length = input.length) {tagged : List (α × Nat)}
    (hperm : tagged.Perm (input.zip labels)) (hout : tagged.map Prod.fst = output)
    (hp : tagged.Pairwise (TagBefore le)) : IsStableSort le input output := by
  have hnodup : labels.Nodup := hlabels.imp Nat.ne_of_lt
  -- A label becomes its position among the labels.
  have hposition : labels.map (labels.idxOf ·) = List.range labels.length := by
    apply List.ext_getElem (by simp)
    intro i hi _
    rw [List.length_map] at hi
    rw [List.getElem_map, List.getElem_range, hnodup.idxOf_getElem]
  have hmono : ∀ m ∈ labels, ∀ n ∈ labels, m < n → labels.idxOf m < labels.idxOf n := by
    intro m hm n hn hmn
    obtain ⟨i, hi, rfl⟩ := List.getElem_of_mem hm
    obtain ⟨j, hj, rfl⟩ := List.getElem_of_mem hn
    rw [hnodup.idxOf_getElem, hnodup.idxOf_getElem]
    by_contra hle
    rcases Nat.lt_or_eq_of_le (Nat.le_of_not_lt hle) with hlt | rfl
    · exact Nat.lt_asymm hmn (List.pairwise_iff_getElem.mp hlabels j i hj hi hlt)
    · exact Nat.lt_irrefl _ hmn
  have hmem : ∀ x ∈ tagged, x.2 ∈ labels := by
    rintro ⟨x, n⟩ hx
    exact (List.of_mem_zip (hperm.mem_iff.mp hx)).2
  refine ⟨tagged.map (Prod.map id (labels.idxOf ·)), ?_, ?_, ?_⟩
  · have hmap := hperm.map (Prod.map id (labels.idxOf ·))
    rwa [← List.zip_map, List.map_id, hposition, hlen, List.range_eq_range',
      ← List.zipIdx_eq_zip_range'] at hmap
  · rw [List.map_map]
    exact hout
  · rw [List.pairwise_map]
    exact hp.imp_of_mem fun {x y} hx hy hxy =>
      ⟨hxy.1, fun hyx => hmono _ (hmem x hx) _ (hmem y hy) (hxy.2 hyx)⟩

/-- What a test keeps of a stable sort is the stable sort of what it keeps of the input. -/
theorem filter (p : α → Bool) (h : IsStableSort le input output) :
    IsStableSort le (input.filter p) (output.filter p) := by
  obtain ⟨tagged, hperm, rfl, hp⟩ := h
  have hfst : (input.zipIdx.filter (p ∘ Prod.fst)).map Prod.fst = input.filter p := by
    rw [← List.filter_map, List.zipIdx_map_fst]
  have hsnd : (input.zipIdx.map Prod.snd).Pairwise (· < ·) := by
    rw [List.zipIdx_map_snd]
    exact List.pairwise_lt_range' _
  refine @of_labels _ _ _ _ ((input.zipIdx.filter (p ∘ Prod.fst)).map Prod.snd) ?_ ?_
    (tagged.filter (p ∘ Prod.fst)) ?_ ?_ (hp.filter _)
  · exact hsnd.sublist ((List.filter_sublist).map Prod.snd)
  · rw [← hfst, List.length_map, List.length_map]
  · rw [← hfst, List.zip_map', List.map_id']
    exact hperm.filter _
  · rw [List.filter_map]

/-- Read from behind, a stable sort is a stable sort of the input read from behind, by the test with
its arguments exchanged. -/
theorem reverse (h : IsStableSort le input output) :
    IsStableSort (fun a b => le b a) input.reverse output.reverse := by
  obtain ⟨tagged, hperm, rfl, hp⟩ := h
  -- The position in the input is counted from the other end.
  have hzip : (input.zipIdx.map (Prod.map id (input.length - 1 - ·))).reverse =
      input.reverse.zipIdx := by
    apply List.ext_getElem (by simp)
    intro i hi _
    rw [List.length_reverse, List.length_map, List.length_zipIdx] at hi
    simp only [List.getElem_reverse, List.getElem_map, List.getElem_zipIdx, List.length_map,
      List.length_zipIdx, Prod.map, id, Nat.zero_add, Prod.mk.injEq, true_and]
    omega
  refine ⟨(tagged.map (Prod.map id (input.length - 1 - ·))).reverse, ?_, ?_, ?_⟩
  · rw [← hzip]
    exact ((List.reverse_perm _).trans (hperm.map _)).trans (List.reverse_perm _).symm
  · rw [List.map_reverse, List.map_map]
    rfl
  · rw [List.pairwise_reverse, List.pairwise_map]
    refine hp.imp_of_mem fun {x y} hx hy hxy => ⟨hxy.1, fun hyx => ?_⟩
    have hy := List.snd_lt_of_mem_zipIdx (hperm.mem_iff.mp hy)
    have hlt := hxy.2 hyx
    change input.length - 1 - y.2 < input.length - 1 - x.2
    omega

/-- One element is sorted. -/
theorem singleton (x : α) : IsStableSort le [x] [x] := ⟨[(x, 0)], .refl _, rfl, by simp⟩

end IsStableSort

/-- Merging one element puts it after those that it is not before. -/
theorem merge_singleton {a b : List α} {x : α} (ha : ∀ y ∈ a, le y x = true)
    (hb : ∀ y ∈ b, le y x = false) : (a ++ b).merge [x] le = a ++ x :: b := by
  induction a with
  | nil =>
    cases b with
    | nil => simp
    | cons y b => simp [hb y (by simp)]
  | cons y a ih =>
    rw [List.cons_append, List.cons_merge_cons, if_pos (ha y (by simp)),
      ih fun z hz => ha z (by simp [hz])]
    rfl

/-- The third list is the first two merged, where each comparison of two fronts has an answer that
`may` allows: true takes the element of the first list. -/
inductive Merges (may : α → α → Bool → Prop) : List α → List α → List α → Prop
  /-- The first list is used up. -/
  | nil_left {l : List α} : Merges may [] l l
  /-- The second list is used up. -/
  | nil_right {l : List α} : Merges may l [] l
  /-- The front of the first list is taken. -/
  | left {x y : α} {l₁ l₂ l : List α} (h : may x y true) (hl : Merges may l₁ (y :: l₂) l) :
    Merges may (x :: l₁) (y :: l₂) (x :: l)
  /-- The front of the second list is taken. -/
  | right {x y : α} {l₁ l₂ l : List α} (h : may x y false) (hl : Merges may (x :: l₁) l₂ l) :
    Merges may (x :: l₁) (y :: l₂) (y :: l)

namespace Merges

variable {may : α → α → Bool → Prop} {l₁ l₂ l : List α}

/-- Whatever the answers, a merge has the elements of both lists. -/
theorem perm (h : Merges may l₁ l₂ l) : l.Perm (l₁ ++ l₂) := by
  induction h with
  | nil_left => exact .refl _
  | nil_right => simp
  | left _ _ ih => exact ih.cons _
  | right _ _ ih => exact (ih.cons _).trans List.perm_middle.symm

/-- No element is lost in a merge. -/
theorem length_eq (h : Merges may l₁ l₂ l) : l.length = l₁.length + l₂.length := by
  rw [h.perm.length_eq, List.length_append]

/-- With the answers of a test it is the merge by that test. -/
theorem eq_merge (h : Merges (fun x y first => le x y = first) l₁ l₂ l) : l = l₁.merge l₂ le := by
  induction h with
  | nil_left => simp
  | nil_right => simp
  | left hle _ ih => rw [List.cons_merge_cons, if_pos hle, ih]
  | right hle _ ih => rw [List.cons_merge_cons, if_neg (by simp [hle]), ih]

end Merges

/-- A relation between input and output that holds of nothing, that inserting the next
element from behind keeps, and that merging two adjacent parts keeps, as long as the comparisons
have answers that `may` allows. -/
structure SortRule (may : α → α → Bool → Prop) (P : List α → List α → Prop) : Prop where
  /-- Nothing to sort. -/
  nil : P [] []
  /-- The next element goes before those that are after it. -/
  insert : ∀ {l a b x}, P l (a ++ b) → (∀ y ∈ b, may y x false) →
    (∀ y ∈ a.getLast?, may y x true) → P (l ++ [x]) (a ++ x :: b)
  /-- Two adjacent parts are merged, the left one first where elements are level. -/
  merge : ∀ {l₁ l₂ o₁ o₂ o}, P l₁ o₁ → P l₂ o₂ → Merges may o₁ o₂ o → P (l₁ ++ l₂) o

namespace SortRule

/-- A single element is its own sort. -/
theorem singleton {may : α → α → Bool → Prop} {P : List α → List α → Prop} (h : SortRule may P)
    (x : α) : P [x] [x] :=
  h.insert (a := []) (b := []) h.nil (by simp) (by simp)

/-- Whatever the answers, both steps rearrange. -/
theorem perm (may : α → α → Bool → Prop) : SortRule may fun input output => output.Perm input where
  nil := .nil
  insert h _ _ := List.perm_middle.trans ((h.cons _).trans (List.perm_append_singleton _ _).symm)
  merge h₁ h₂ h := h.perm.trans (h₁.append h₂)

/-- With the answers of a total preorder both steps keep a stable sort. -/
theorem stable (hle : IsTotalPreorderTest le) :
    SortRule (fun x y first => le x y = first) (IsStableSort le) where
  nil := .nil
  insert {l a b x} h hb hlast := by
    have ha : ∀ y ∈ a, le y x = true := by
      have hp := (List.pairwise_append.mp h.pairwise).1
      cases hl : a.getLast? with
      | none =>
        rw [List.getLast?_eq_none_iff] at hl
        simp [hl]
      | some z =>
        obtain ⟨a', rfl⟩ := List.getLast?_eq_some_iff.mp hl
        have hzx := hlast z hl
        intro y hy
        rcases List.mem_append.mp hy with hy | hy
        · exact hle.trans _ _ _ ((List.pairwise_append.mp hp).2.2 y hy z (by simp)) hzx
        · rw [List.mem_singleton.mp hy]
          exact hzx
    rw [← merge_singleton ha hb]
    exact h.merge hle (.singleton x)
  merge h₁ h₂ h := by
    rw [h.eq_merge]
    exact h₁.merge hle h₂

end SortRule

end Toolkit
