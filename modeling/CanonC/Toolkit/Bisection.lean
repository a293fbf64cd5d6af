import CanonC.Toolkit.Cells

/-!
# Bisection of a list by a test

A test that holds of a prefix of a list is found by halving an interval that brackets the
end of the prefix. Where the interval closes is the number of elements that pass, and an
element between the two sides may be inserted there.
-/

namespace Toolkit

variable {α : Type*} {p : α → Bool} {l : List α} {i low high mid : Nat}

/-- The test holds of all elements before `low` and of none from `high` on. -/
structure Brackets (p : α → Bool) (l : List α) (low high : Nat) : Prop where
  /-- The interval is not reversed. -/
  le : low ≤ high
  /-- The interval lies inside the list. -/
  bound : high ≤ l.length
  /-- The elements before the interval pass. -/
  yes : ∀ k, ∀ h : k < l.length, k < low → p l[k] = true
  /-- The elements behind the interval fail. -/
  no : ∀ k, ∀ h : k < l.length, high ≤ k → p l[k] = false

namespace Brackets

/-- The whole list brackets the end of the prefix. -/
theorem all : Brackets p l 0 l.length where
  le := Nat.zero_le _
  bound := Nat.le_refl _
  yes _ _ hk := absurd hk (Nat.not_lt_zero _)
  no _ h hk := absurd h (Nat.not_lt_of_le hk)

section Monotone

variable (hdown : l.Pairwise fun a b => p b = true → p a = true)
include hdown

/-- Where an element passes, those before it pass. -/
theorem pass_of_le {j : Nat} (hij : i ≤ j) (hj : j < l.length) (hp : p l[j] = true) :
    p l[i] = true := by
  rcases Nat.lt_or_eq_of_le hij with hlt | rfl
  · exact List.pairwise_iff_getElem.mp hdown i j (by omega) hj hlt hp
  · exact hp

/-- After an element that passes the interval continues on its right. -/
theorem right (h : Brackets p l low high) (hlt : mid < high) (hin : mid < l.length)
    (hmid : p l[mid] = true) : Brackets p l (mid + 1) high where
  le := hlt
  bound := h.bound
  yes _ _ hk := pass_of_le hdown (Nat.le_of_lt_succ hk) hin hmid
  no := h.no

/-- After an element that fails the interval continues on its left. -/
theorem left (h : Brackets p l low high) (hle : low ≤ mid) (hin : mid < l.length)
    (hmid : p l[mid] = false) : Brackets p l low mid where
  le := hle
  bound := Nat.le_of_lt hin
  yes := h.yes
  no k hk hle := by
    by_contra hp
    rw [Bool.not_eq_false] at hp
    rw [pass_of_le hdown hle hk hp] at hmid
    cases hmid

end Monotone

/-- A closed interval separates the elements that pass from the others. -/
theorem pass_iff (h : Brackets p l i i) {k : Nat} (hk : k < l.length) :
    p l[k] = true ↔ k < i := by
  refine ⟨fun hp => Nat.lt_of_not_le fun hle => ?_, h.yes k hk⟩
  rw [h.no k hk hle] at hp
  cases hp

/-- Everything in front of a closed bracket passes. -/
theorem take_pass (h : Brackets p l i i) : ∀ x ∈ l.take i, p x = true := by
  intro x hx
  obtain ⟨k, hk, rfl⟩ := List.getElem_of_mem hx
  rw [List.length_take] at hk
  rw [List.getElem_take]
  exact h.yes k (by omega) (by omega)

/-- Nothing behind a closed bracket passes. -/
theorem drop_fail (h : Brackets p l i i) : ∀ x ∈ l.drop i, p x = false := by
  intro x hx
  obtain ⟨k, hk, rfl⟩ := List.getElem_of_mem hx
  rw [List.length_drop] at hk
  rw [List.getElem_drop]
  exact h.no (i + k) (by omega) (Nat.le_add_right i k)

/-- The interval closes on the number of elements that pass. -/
theorem eq_countP (h : Brackets p l i i) : i = l.countP p := by
  have hlen : (l.take i).length = i := by
    rw [List.length_take, Nat.min_eq_left h.bound]
  have hyes : (l.take i).countP p = (l.take i).length := List.countP_eq_length.mpr h.take_pass
  have hno : (l.drop i).countP p = 0 :=
    List.countP_eq_zero.mpr fun x hx => Bool.eq_false_iff.mp (h.drop_fail x hx)
  have hsplit : l.countP p = (l.take i).countP p + (l.drop i).countP p := by
    rw [← List.countP_append, List.take_append_drop]
  rw [hsplit, hyes, hno, hlen, Nat.add_zero]

/-- An element that belongs between the two sides keeps the list in order there. -/
theorem pairwise_insertIdx {R : α → α → Prop} {x : α} (h : Brackets p l i i) (hl : l.Pairwise R)
    (hyes : ∀ y, p y = true → R y x) (hno : ∀ y, p y = false → R x y) :
    (l.insertIdx i x).Pairwise R := by
  have hlen : (l.take i).length = i := by
    rw [List.length_take, Nat.min_eq_left h.bound]
  have hinsert := Cells.insertIdx_append_length (l.take i) (l.drop i) x
  rw [List.take_append_drop, hlen] at hinsert
  rw [← List.take_append_drop i l, List.pairwise_append] at hl
  obtain ⟨htake, hdrop, hcross⟩ := hl
  rw [hinsert, List.pairwise_append, List.pairwise_cons]
  refine ⟨htake, ⟨fun y hy => hno y (h.drop_fail y hy), hdrop⟩, fun y hy z hz => ?_⟩
  rcases List.mem_cons.mp hz with rfl | hz
  · exact hyes y (h.take_pass y hy)
  · exact hcross y hy z hz

end Brackets

end Toolkit
