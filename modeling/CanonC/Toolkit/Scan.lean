import Mathlib.Data.List.Basic

/-!
# Asking about the elements of a list in turn

A predicate that keeps a state is asked about the elements of a list from the left, until it has
accepted a given number of them or none is left. What has been accepted and the state it leaves
depend on where the asking stops, and there is one such place.
-/

namespace Toolkit

variable {α σ : Type*} {p : α → σ → Bool × σ} {n : Nat} {xs ys : List α} {x : α} {s : σ} {k : Nat}

/-- The elements that the predicate accepts when it is asked about all. -/
def passed (p : α → σ → Bool × σ) : List α → σ → List α
  | [], _ => []
  | x :: xs, s =>
    if (p x s).1 then x :: passed p xs (p x s).2 else passed p xs (p x s).2

/-- The state of the predicate after it was asked about all. -/
def asked (p : α → σ → Bool × σ) : List α → σ → σ
  | [], s => s
  | x :: xs, s => asked p xs (p x s).2

/-- An element that is accepted comes first. -/
theorem accepted_cons_of_true (h : (p x s).1 = true) :
    passed p (x :: xs) s = x :: passed p xs (p x s).2 := by
  rw [passed, if_pos h]

/-- An element that is not accepted is left out. -/
theorem accepted_cons_of_false (h : (p x s).1 = false) :
    passed p (x :: xs) s = passed p xs (p x s).2 := by
  rw [passed, if_neg (Bool.eq_false_iff.mp h)]

/-- The state that the first list leaves decides about the second. -/
theorem accepted_append (xs ys : List α) (s : σ) :
    passed p (xs ++ ys) s = passed p xs s ++ passed p ys (asked p xs s) := by
  induction xs generalizing s with
  | nil => rfl
  | cons x xs ih =>
    rw [List.cons_append, asked]
    cases hx : (p x s).1 with
    | true => rw [accepted_cons_of_true hx, accepted_cons_of_true hx, ih, List.cons_append]
    | false => rw [accepted_cons_of_false hx, accepted_cons_of_false hx, ih]

/-- A predicate without a state filters. -/
theorem accepted_pure (q : α → Bool) (xs : List α) (s : σ) :
    passed (fun x s => (q x, s)) xs s = xs.filter q := by
  induction xs with
  | nil => rfl
  | cons x xs ih =>
    rw [passed, List.filter_cons, ih]

/-- A predicate without state leaves the state alone. -/
theorem asked_pure (q : α → Bool) (xs : List α) (s : σ) :
    asked (fun x s => (q x, s)) xs s = s := by
  induction xs with
  | nil => rfl
  | cons x xs ih => exact ih

/-- The asking stops behind the first `k` elements: there are `n` accepted or no more elements,
and before there are not. -/
structure StopsAt (p : α → σ → Bool × σ) (n : Nat) (xs : List α) (s : σ) (k : Nat) : Prop where
  /-- Only elements of the list are asked about. -/
  le : k ≤ xs.length
  /-- No more are accepted than wanted. -/
  accepted_le : (passed p (xs.take k) s).length ≤ n
  /-- Where fewer are accepted, all were asked about. -/
  all : (passed p (xs.take k) s).length < n → k = xs.length
  /-- Each of these elements was asked about. -/
  wanted : ∀ j < k, (passed p (xs.take j) s).length < n

/-- A scan of no elements stops at once. -/
theorem stopsAt_zero_iff : StopsAt p 0 xs s k ↔ k = 0 := by
  constructor
  · intro h
    by_contra hk
    exact absurd (h.wanted 0 (Nat.pos_of_ne_zero hk)) (Nat.not_lt_zero _)
  · rintro rfl
    exact ⟨Nat.zero_le _, Nat.le_refl 0, fun h => absurd h (Nat.not_lt_zero _),
      fun j hj => absurd hj (Nat.not_lt_zero j)⟩

/-- A scan of the empty list stops at once. -/
theorem stopsAt_nil_iff : StopsAt p n [] s k ↔ k = 0 := by
  constructor
  · exact fun h => Nat.le_zero.mp h.le
  · rintro rfl
    exact ⟨Nat.le_refl 0, Nat.zero_le n, fun _ => rfl, fun j hj => absurd hj (Nat.not_lt_zero j)⟩

/-- An element that is accepted is one of those wanted. -/
theorem stopsAt_cons_of_true (h : (p x s).1 = true) :
    StopsAt p (n + 1) (x :: xs) s (k + 1) ↔ StopsAt p n xs (p x s).2 k := by
  have hlen : ∀ j, (passed p ((x :: xs).take (j + 1)) s).length =
      (passed p (xs.take j) (p x s).2).length + 1 := by
    intro j
    rw [List.take_succ_cons, accepted_cons_of_true h, List.length_cons]
  constructor
  · rintro ⟨hle, hacc, hall, hwanted⟩
    rw [hlen] at hacc hall
    rw [List.length_cons] at hle hall
    refine ⟨by omega, by omega, fun hlt => by omega, fun j hj => ?_⟩
    have hj' := hwanted (j + 1) (by omega)
    rw [hlen] at hj'
    omega
  · rintro ⟨hle, hacc, hall, hwanted⟩
    refine ⟨?_, ?_, ?_, fun j hj => ?_⟩
    · rw [List.length_cons]
      omega
    · rw [hlen]
      omega
    · rw [hlen, List.length_cons]
      omega
    · cases j with
      | zero => exact Nat.succ_pos n
      | succ j =>
        have hj' := hwanted j (by omega)
        rw [hlen]
        omega

/-- An element that is not accepted is passed over. -/
theorem stopsAt_cons_of_false (hn : 0 < n) (h : (p x s).1 = false) :
    StopsAt p n (x :: xs) s (k + 1) ↔ StopsAt p n xs (p x s).2 k := by
  have hlen : ∀ j, passed p ((x :: xs).take (j + 1)) s = passed p (xs.take j) (p x s).2 := by
    intro j
    rw [List.take_succ_cons, accepted_cons_of_false h]
  constructor
  · rintro ⟨hle, hacc, hall, hwanted⟩
    rw [hlen] at hacc hall
    rw [List.length_cons] at hle hall
    refine ⟨by omega, hacc, fun hlt => by omega, fun j hj => ?_⟩
    have hj' := hwanted (j + 1) (by omega)
    rwa [hlen] at hj'
  · rintro ⟨hle, hacc, hall, hwanted⟩
    refine ⟨?_, ?_, ?_, fun j hj => ?_⟩
    · rw [List.length_cons]
      omega
    · rwa [hlen]
    · rw [hlen, List.length_cons]
      omega
    · cases j with
      | zero => exact hn
      | succ j =>
        rw [hlen]
        exact hwanted j (by omega)

/-- The first element is asked about where any is wanted. -/
theorem StopsAt.pos (h : StopsAt p n (x :: xs) s k) (hn : 0 < n) : ∃ k', k = k' + 1 := by
  cases k with
  | zero => exact absurd (h.all hn) (Nat.succ_ne_zero _).symm
  | succ k => exact ⟨k, rfl⟩

/-- What is accepted until the asking stops are the first of all that would be accepted. -/
theorem StopsAt.accepted_eq_take (h : StopsAt p n xs s k) :
    passed p (xs.take k) s = (passed p xs s).take n := by
  have hsplit := @accepted_append _ _ p (xs.take k) (xs.drop k) s
  rw [List.take_append_drop] at hsplit
  have hle := h.accepted_le
  rcases Nat.lt_or_eq_of_le hle with hlt | heq
  · obtain rfl := h.all hlt
    rw [List.drop_length, passed, List.append_nil] at hsplit
    rw [hsplit, List.take_of_length_le hle]
  · rw [hsplit, List.take_append_of_le_length (Nat.le_of_eq heq.symm), ← heq, List.take_length]

/-- The asking stops somewhere. -/
theorem exists_stopsAt (p : α → σ → Bool × σ) (n : Nat) (xs : List α) (s : σ) :
    ∃ k, StopsAt p n xs s k := by
  induction xs generalizing n s with
  | nil =>
    cases n with
    | zero => exact ⟨0, stopsAt_zero_iff.mpr rfl⟩
    | succ n => exact ⟨0, stopsAt_nil_iff.mpr rfl⟩
  | cons x xs ih =>
    cases n with
    | zero => exact ⟨0, stopsAt_zero_iff.mpr rfl⟩
    | succ n =>
      cases hx : (p x s).1 with
      | true =>
        obtain ⟨k, hk⟩ := ih n (p x s).2
        exact ⟨k + 1, (stopsAt_cons_of_true hx).mpr hk⟩
      | false =>
        obtain ⟨k, hk⟩ := ih (n + 1) (p x s).2
        exact ⟨k + 1, (stopsAt_cons_of_false n.succ_pos hx).mpr hk⟩

end Toolkit
