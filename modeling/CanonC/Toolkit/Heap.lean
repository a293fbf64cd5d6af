import Mathlib.Tactic.Common
import Mathlib.Logic.Equiv.Basic
import Mathlib.Data.Multiset.Range
import Mathlib.Data.Multiset.MapFold
import Mathlib.Order.RelClasses

/-!
# Binary heaps in an array

Positions `0, …, n - 1` form a binary tree whose root is `0`. A heap has no element
after its parent's. Both sifts move one element through a heap that is in order off
that element; the rules say what one exchange does to this and when the sift is done.
The bag of an array is the multiset of its first `n` elements.
-/

namespace Toolkit.Heap

variable {α : Type*} {r : α → α → Prop} {n lo k m : Nat} {a : Nat → α}

/-- The position above `i`. -/
def parent (i : Nat) : Nat := (i - 1) / 2

/-- A parent comes before its children. -/
theorem parent_lt {i : Nat} (hi : 0 < i) : parent i < i := by
  unfold parent
  omega

/-- The positions below `k` are `2 * k + 1` and `2 * k + 2`. -/
theorem parent_eq_iff {i : Nat} (hi : 0 < i) : parent i = k ↔ i = 2 * k + 1 ∨ i = 2 * k + 2 := by
  unfold parent
  omega

/-- No element is before its parent. -/
def Ordered (r : α → α → Prop) (n : Nat) (a : Nat → α) : Prop :=
  ∀ i < n, 0 < i → r (a (parent i)) (a i)

/-- No element is before its parent, for parents from `lo` on. -/
def OrderedFrom (r : α → α → Prop) (n lo : Nat) (a : Nat → α) : Prop :=
  ∀ i < n, 0 < i → lo ≤ parent i → r (a (parent i)) (a i)

/-- The tree is in order off position `k`, and across it. -/
structure Hole (r : α → α → Prop) (n : Nat) (a : Nat → α) (k : Nat) : Prop where
  /-- Pairs that do not touch `k` are in order. -/
  off : ∀ i < n, 0 < i → i ≠ k → parent i ≠ k → r (a (parent i)) (a i)
  /-- The elements below `k` are not before the one above `k`. -/
  across : 0 < k → ∀ i < n, 0 < i → parent i = k → r (a (parent k)) (a i)

/-- Only the pair of `k` and its parent may be out of order. -/
structure Rising (r : α → α → Prop) (n : Nat) (a : Nat → α) (k : Nat) : Prop
    extends Hole r n a k where
  /-- The elements below `k` are not before it. -/
  below : ∀ i < n, 0 < i → parent i = k → r (a k) (a i)

/-- Among parents from `lo` on, only the pairs of `k` and its children may be out of
order. -/
structure Sinking (r : α → α → Prop) (n lo : Nat) (a : Nat → α) (k : Nat) : Prop where
  /-- Pairs whose parent is not `k` are in order. -/
  off : ∀ i < n, 0 < i → lo ≤ parent i → parent i ≠ k → r (a (parent i)) (a i)
  /-- The elements below `k` are not before the one above `k`. -/
  across : 0 < k → lo ≤ parent k → ∀ i < n, 0 < i → parent i = k → r (a (parent k)) (a i)

/-- The elements at the first `n` positions. -/
def bag (n : Nat) (a : Nat → α) : Multiset α := (Multiset.range n).map a

section Order

/-- In a heap no element is before the root's. -/
theorem Ordered.root_le (h : Ordered r n a) (hrefl : ∀ x, r x x)
    (htrans : ∀ x y z, r x y → r y z → r x z) : ∀ {i : Nat}, i < n → r (a 0) (a i) := by
  intro i
  induction i using Nat.strong_induction_on with
  | _ i ih =>
    intro hi
    rcases Nat.eq_zero_or_pos i with rfl | hpos
    · exact hrefl _
    · have hp := parent_lt hpos
      exact htrans _ _ _ (ih _ hp (hp.trans hi)) (h i hi hpos)

/-- A heap from the root on is a heap. -/
theorem orderedFrom_zero : OrderedFrom r n 0 a ↔ Ordered r n a :=
  ⟨fun h i hi hp => h i hi hp (Nat.zero_le _), fun h i hi hp _ => h i hi hp⟩

/-- Positions past the last parent have nothing below them. -/
theorem orderedFrom_last : OrderedFrom r n (parent (n - 1) + 1) a := by
  intro i hi hp hlo
  unfold parent at hlo
  omega

/-- A heap is in order around every position. -/
theorem Ordered.sinking (h : Ordered r n a) (htrans : ∀ x y z, r x y → r y z → r x z)
    (hk : k < n) : Sinking r n 0 a k where
  off i hi hp _ _ := h i hi hp
  across hk0 _ i hi hp hik := by
    have hki := h i hi hp
    rw [hik] at hki
    exact htrans _ _ _ (h k hk hk0) hki

/-- The element at `lo` is the only one that may be out of order below it. -/
theorem OrderedFrom.sinking (h : OrderedFrom r n (lo + 1) a) : Sinking r n lo a lo where
  off i hi hp hlo hne := h i hi hp (by omega)
  across hk hlo := by
    have hp := parent_lt hk
    omega

/-- A sinking element that is not after those below it is in place. -/
theorem Sinking.orderedFrom (h : Sinking r n lo a k)
    (hle : ∀ i < n, 0 < i → parent i = k → r (a k) (a i)) : OrderedFrom r n lo a := by
  intro i hi hp hlo
  by_cases hik : parent i = k
  · rw [hik]
    exact hle i hi hp hik
  · exact h.off i hi hp hlo hik

/-- A rising element that is not before the one above it is in place. -/
theorem Rising.ordered (h : Rising r n a k) (hle : 0 < k → r (a (parent k)) (a k)) :
    Ordered r n a := by
  intro i hi hp
  by_cases hik : i = k
  · subst hik
    exact hle hp
  · by_cases hpk : parent i = k
    · rw [hpk]
      exact h.below i hi hp hpk
    · exact h.off i hi hp hik hpk

/-- An element that is not before the one above it may only have to sink. -/
theorem Hole.sinking (h : Hole r n a k) (hle : 0 < k → r (a (parent k)) (a k)) :
    Sinking r n 0 a k where
  off i hi hp _ hpk := by
    by_cases hik : i = k
    · subst hik
      exact hle hp
    · exact h.off i hi hp hik hpk
  across hk _ := h.across hk

/-- An element before the one above it only has to rise. -/
theorem Hole.rising (h : Hole r n a k) (htrans : ∀ x y z, r x y → r y z → r x z) (hk : 0 < k)
    (hle : r (a k) (a (parent k))) : Rising r n a k where
  toHole := h
  below i hi hp hik := htrans _ _ _ hle (h.across hk i hi hp hik)

/-- A new last element may only have to rise. -/
theorem Ordered.rising_push (h : Ordered r n a) (x : α) :
    Rising r (n + 1) (Function.update a n x) n := by
  have hnone : ∀ i < n + 1, 0 < i → parent i ≠ n := fun i hi hp => by
    have := parent_lt hp
    omega
  refine ⟨⟨fun i hi hp hin hpn => ?_, fun _ i hi hp hin => absurd hin (hnone i hi hp)⟩,
    fun i hi hp hin => absurd hin (hnone i hi hp)⟩
  rw [Function.update_of_ne hin, Function.update_of_ne hpn]
  exact h i (by omega) hp

/-- Replacing one element leaves a heap in order off it and across it. -/
theorem Ordered.hole_update (h : Ordered r (n + 1) a) (htrans : ∀ x y z, r x y → r y z → r x z)
    (hk : k < n) (x : α) : Hole r n (Function.update a k x) k := by
  refine ⟨fun i hi hp hik hpk => ?_, fun hk0 i hi hp hik => ?_⟩
  · rw [Function.update_of_ne hik, Function.update_of_ne hpk]
    exact h i (by omega) hp
  · have hpk := parent_lt hk0
    have hki := h i (by omega) hp
    have hpi := parent_lt hp
    rw [hik] at hki hpi
    rw [Function.update_of_ne hpk.ne, Function.update_of_ne hpi.ne']
    exact htrans _ _ _ (h k (by omega) hk0) hki

/-- One exchange upward. -/
theorem Rising.exchange (h : Rising r n a k) (htrans : ∀ x y z, r x y → r y z → r x z)
    (hk : 0 < k) (hkn : k < n) (hle : r (a k) (a (parent k))) :
    Rising r n (a ∘ Equiv.swap (parent k) k) (parent k) := by
  have hpk := parent_lt hk
  refine ⟨⟨fun i hi hp hip hpp => ?_, fun hpp i hi hp hip => ?_⟩, fun i hi hp hip => ?_⟩
  · -- Only the children of `k` see a new parent, the element that came down.
    have hik : i ≠ k := fun he => hpp (by rw [he])
    simp only [Function.comp_apply, Equiv.swap_apply_of_ne_of_ne hip hik]
    by_cases hpi : parent i = k
    · rw [hpi, Equiv.swap_apply_right]
      exact h.across hk i hi hp hpi
    · rw [Equiv.swap_apply_of_ne_of_ne hpp hpi]
      exact h.off i hi hp hik hpi
  · have hpp' := parent_lt hpp
    have hup : r (a (parent (parent k))) (a (parent k)) :=
      h.off _ (by omega) hpp (by omega) (by omega)
    have hfix : Equiv.swap (parent k) k (parent (parent k)) = parent (parent k) :=
      Equiv.swap_apply_of_ne_of_ne (by omega) (by omega)
    simp only [Function.comp_apply, hfix]
    by_cases hik : i = k
    · subst hik
      rw [Equiv.swap_apply_right]
      exact hup
    · have hpi := parent_lt hp
      rw [Equiv.swap_apply_of_ne_of_ne (by omega) hik]
      have hside := h.off i hi hp hik (by omega)
      rw [hip] at hside
      exact htrans _ _ _ hup hside
  · simp only [Function.comp_apply, Equiv.swap_apply_left]
    by_cases hik : i = k
    · subst hik
      rw [Equiv.swap_apply_right]
      exact hle
    · have hpi := parent_lt hp
      rw [Equiv.swap_apply_of_ne_of_ne (by omega) hik]
      have hside := h.off i hi hp hik (by omega)
      rw [hip] at hside
      exact htrans _ _ _ hle hside

/-- One exchange downward, with a child that no child is before. -/
theorem Sinking.exchange (h : Sinking r n lo a k) (hlo : lo ≤ k) (hm : 0 < m) (hmn : m < n)
    (hmk : parent m = k) (hle : r (a m) (a k))
    (hmin : ∀ i < n, 0 < i → parent i = k → r (a m) (a i)) :
    Sinking r n lo (a ∘ Equiv.swap k m) m := by
  have hkm := parent_lt hm
  rw [hmk] at hkm
  refine ⟨fun i hi hp hlop hpm => ?_, fun _ _ i hi hp him => ?_⟩
  · have hpi := parent_lt hp
    by_cases hpk : parent i = k
    · rw [Function.comp_apply, Function.comp_apply, hpk, Equiv.swap_apply_left]
      by_cases him : i = m
      · rw [him, Equiv.swap_apply_right]
        exact hle
      · rw [Equiv.swap_apply_of_ne_of_ne (by omega) him]
        exact hmin i hi hp hpk
    · have him : i ≠ m := fun he => hpk (by rw [he, hmk])
      rw [Function.comp_apply, Function.comp_apply, Equiv.swap_apply_of_ne_of_ne hpk hpm]
      by_cases hik : i = k
      · subst hik
        rw [Equiv.swap_apply_left]
        exact h.across hp hlop m hmn hm hmk
      · rw [Equiv.swap_apply_of_ne_of_ne hik him]
        exact h.off i hi hp hlop hpk
  · have hpi := parent_lt hp
    have hside := h.off i hi hp (by omega) (by omega)
    rw [him] at hside
    rw [Function.comp_apply, Function.comp_apply, hmk, Equiv.swap_apply_left,
      Equiv.swap_apply_of_ne_of_ne (by omega) (by omega)]
    exact hside

end Order

section Bag

/-- The bag counts every element. -/
@[simp] theorem card_bag : (bag n a).card = n := by simp [bag]

/-- The bag has the elements at the indices in front. -/
theorem mem_bag {x : α} : x ∈ bag n a ↔ ∃ i < n, a i = x := by simp [bag]

/-- One more element in the bag. -/
theorem bag_succ : bag (n + 1) a = a n ::ₘ bag n a := by
  simp [bag, Multiset.range_succ]

/-- The bag depends on the first `n` elements only. -/
theorem bag_congr {b : Nat → α} (h : ∀ i < n, b i = a i) : bag n b = bag n a :=
  Multiset.map_congr rfl fun i hi => h i (Multiset.mem_range.mp hi)

/-- Appending adds one element. -/
theorem bag_push (x : α) : bag (n + 1) (Function.update a n x) = x ::ₘ bag n a := by
  rw [bag_succ, Function.update_self]
  congr 1
  exact bag_congr fun i hi => Function.update_of_ne (by omega) _ _

/-- An exchange permutes the elements. -/
theorem bag_exchange {i j : Nat} (hi : i < n) (hj : j < n) :
    bag n (a ∘ Equiv.swap i j) = bag n a := by
  have hrange : (Multiset.range n).map (Equiv.swap i j) = Multiset.range n := by
    have hnodup := (Multiset.nodup_range n).map (Equiv.swap i j).injective
    rw [hnodup.ext (Multiset.nodup_range n)]
    intro x
    simp only [Multiset.mem_map, Multiset.mem_range]
    constructor
    · rintro ⟨y, hy, rfl⟩
      rw [Equiv.swap_apply_def]
      split_ifs <;> omega
    · intro hx
      refine ⟨Equiv.swap i j x, ?_, Equiv.swap_apply_self i j x⟩
      rw [Equiv.swap_apply_def]
      split_ifs <;> omega
  rw [bag, ← Multiset.map_map, hrange, bag]

/-- Filling a position with the last element drops what was there. -/
theorem bag_fill (hk : k < n) :
    bag (n + 1) a = a k ::ₘ bag n (Function.update a k (a n)) := by
  rw [← bag_exchange (show k < n + 1 by omega) (show n < n + 1 by omega), bag_succ,
    Function.comp_apply, Equiv.swap_apply_right]
  congr 1
  apply bag_congr
  intro i hi
  by_cases hik : i = k
  · subst hik
    rw [Function.comp_apply, Equiv.swap_apply_left, Function.update_self]
  · rw [Function.comp_apply, Equiv.swap_apply_of_ne_of_ne hik (by omega),
      Function.update_of_ne hik]

end Bag

end Toolkit.Heap
