import Mathlib.Tactic.Common
import Mathlib.Data.Nat.Bitwise

/-!
# Cyclic positions

Positions `0, …, n - 1` on a ring: the successor, the predecessor and the number
of forward steps from one position to another. Each is a remainder; the case
forms proved first put goals about them within reach of linear arithmetic.
-/

namespace Toolkit.Cyclic

/-- The position after `i`. -/
def next (n i : Nat) : Nat := (i + 1) % n

/-- The position before `i`. -/
def prev (n i : Nat) : Nat := (i + (n - 1)) % n

/-- The number of forward steps from `h` to `i`. -/
def dist (n h i : Nat) : Nat := (i + (n - h)) % n

variable {n h i j d : Nat}

/-- The next index is one more, but for the last one, which zero follows. -/
theorem next_cases (hi : i < n) :
    (i + 1 = n ∧ next n i = 0) ∨ (i + 1 < n ∧ next n i = i + 1) := by
  unfold next
  rcases (show i + 1 = n ∨ i + 1 < n by omega) with he | hl
  · exact Or.inl ⟨he, by rw [he, Nat.mod_self]⟩
  · exact Or.inr ⟨hl, Nat.mod_eq_of_lt hl⟩

/-- The index before is one less, but for zero, which the last one precedes. -/
theorem prev_cases (hi : i < n) :
    (i = 0 ∧ prev n i = n - 1) ∨ (0 < i ∧ prev n i = i - 1) := by
  unfold prev
  rcases (show i = 0 ∨ 0 < i by omega) with rfl | hp
  · exact Or.inl ⟨rfl, by rw [Nat.zero_add]; exact Nat.mod_eq_of_lt (by omega)⟩
  · refine Or.inr ⟨hp, ?_⟩
    have hs : i + (n - 1) = i - 1 + n := by omega
    rw [hs, Nat.add_mod_right]
    exact Nat.mod_eq_of_lt (by omega)

/-- The distance is the difference, or it goes round the end. -/
theorem dist_cases (hh : h < n) (hi : i < n) :
    (h ≤ i ∧ dist n h i = i - h) ∨ (i < h ∧ dist n h i = i + (n - h)) := by
  unfold dist
  rcases (show h ≤ i ∨ i < h by omega) with hle | hlt
  · refine Or.inl ⟨hle, ?_⟩
    have hs : i + (n - h) = i - h + n := by omega
    rw [hs, Nat.add_mod_right]
    exact Nat.mod_eq_of_lt (by omega)
  · exact Or.inr ⟨hlt, Nat.mod_eq_of_lt (by omega)⟩

/-- The next index is in range. -/
theorem next_lt (hi : i < n) : next n i < n := Nat.mod_lt _ (by omega)

/-- The index before is in range. -/
theorem prev_lt (hi : i < n) : prev n i < n := Nat.mod_lt _ (by omega)

/-- A distance is less than a round. -/
theorem dist_lt (hh : h < n) : dist n h i < n := Nat.mod_lt _ (by omega)

/-- The predecessor of the successor is the position itself. -/
theorem prev_next (hi : i < n) : prev n (next n i) = i := by
  have hn := next_cases hi
  have hp := prev_cases (next_lt hi)
  omega

/-- The successor of the predecessor is the position itself. -/
theorem next_prev (hi : i < n) : next n (prev n i) = i := by
  have hp := prev_cases hi
  have hn := next_cases (prev_lt hi)
  omega

/-- Only on a ring of one position is a position its own successor. -/
theorem next_ne_self (hi : i < n) (hn : 1 < n) : next n i ≠ i := by
  have hx := next_cases hi
  omega

/-- From an index to itself is no distance. -/
@[simp] theorem dist_self (hh : h < n) : dist n h h = 0 := by
  have hd := dist_cases hh hh
  omega

/-- Zero steps lead to the position itself only. -/
theorem dist_eq_zero (hh : h < n) (hi : i < n) : dist n h i = 0 ↔ i = h := by
  have hd := dist_cases hh hi
  omega

/-- The distance is the difference of the positions modulo `n`. -/
theorem dist_eq_emod (hh : h < n) : (dist n h i : Int) = (i - h) % n := by
  have hc : ((i + (n - h) : Nat) : Int) = (i - h) + n := by omega
  rw [dist, Int.natCast_emod, hc, Int.add_emod_right]

/-- Going `dist n h i` steps forward from `h` reaches `i`. -/
theorem add_dist (hh : h < n) (hi : i < n) : (h + dist n h i) % n = i := by
  rcases dist_cases hh hi with ⟨hle, hd⟩ | ⟨hlt, hd⟩
  · rw [hd, Nat.add_sub_of_le hle, Nat.mod_eq_of_lt hi]
  · have hs : h + (i + (n - h)) = i + n := by omega
    rw [hd, hs, Nat.add_mod_right, Nat.mod_eq_of_lt hi]

/-- The position `d` steps ahead of `h` is `d` steps ahead of `h`. -/
theorem dist_add (hh : h < n) (hd : d < n) : dist n h ((h + d) % n) = d := by
  rcases (show h + d < n ∨ n ≤ h + d by omega) with hl | hg
  · rw [Nat.mod_eq_of_lt hl]
    have hx := dist_cases hh hl
    omega
  · have hm : (h + d) % n = h + d - n := by
      rw [Nat.mod_eq_sub_mod hg, Nat.mod_eq_of_lt (by omega)]
    have hx := dist_cases (i := h + d - n) hh (by omega)
    rw [hm]
    omega

/-- Part of the way ahead, the rest is left. -/
theorem dist_from_add (hh : h < n) (hi : i < n) (hd : d ≤ dist n h i) :
    dist n ((h + d) % n) i = dist n h i - d := by
  have hx := dist_cases hh hi
  rcases (show h + d < n ∨ n ≤ h + d by omega) with hl | hg
  · rw [Nat.mod_eq_of_lt hl]
    have hy := dist_cases hl hi
    omega
  · have hm : (h + d) % n = h + d - n := by
      rw [Nat.mod_eq_sub_mod hg, Nat.mod_eq_of_lt (by omega)]
    have hy := dist_cases (h := h + d - n) (by omega) hi
    rw [hm]
    omega

/-- Stepping back from `d + 1` steps ahead leaves `d` steps ahead. -/
theorem prev_add (hn : 0 < n) : prev n ((h + (d + 1)) % n) = (h + d) % n := by
  have he : (h + (d + 1)) % n = next n ((h + d) % n) := by
    rw [next, Nat.mod_add_mod, Nat.add_assoc]
  rw [he, prev_next (Nat.mod_lt _ hn)]

/-- Stepping forward from `d` steps ahead gives `d + 1` steps ahead. -/
theorem next_add : next n ((h + d) % n) = (h + (d + 1)) % n := by
  rw [next, Nat.mod_add_mod, Nat.add_assoc]

/-- A step forward adds one to the distance, short of a full turn. -/
theorem dist_next (hh : h < n) (hi : i < n) (hd : dist n h i + 1 < n) :
    dist n h (next n i) = dist n h i + 1 := by
  have hx := dist_cases hh hi
  have hy := dist_cases hh (next_lt hi)
  have hn := next_cases hi
  omega

/-- A step back takes one off a positive distance. -/
theorem dist_prev (hh : h < n) (hi : i < n) (hd : 0 < dist n h i) :
    dist n h (prev n i) = dist n h i - 1 := by
  have hx := dist_cases hh hi
  have hy := dist_cases hh (prev_lt hi)
  have hp := prev_cases hi
  omega

/-- Walking forward brings a position that is not yet reached one step closer. -/
theorem dist_from_next (hi : i < n) (hj : j < n) (hne : i ≠ j) :
    dist n (next n i) j + 1 = dist n i j := by
  have hx := dist_cases hi hj
  have hy := dist_cases (next_lt hi) hj
  have hn := next_cases hi
  omega

/-- The mask of a power of two takes the remainder. -/
theorem and_pred_eq_mod {c : Nat} (hc : ∃ k, c = 2 ^ k) (x : Nat) : x &&& (c - 1) = x % c := by
  obtain ⟨k, rfl⟩ := hc
  exact Nat.and_two_pow_sub_one_eq_mod x k

end Toolkit.Cyclic
