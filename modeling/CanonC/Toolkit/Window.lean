import Mathlib.Data.List.DropRight
import Mathlib.Tactic.Common

/-!
# The last entries of a history

A history that has room for `n` entries drops the oldest one to take another. Whatever was
entered, it holds the last `n` entries, or all of them where there are fewer.
-/

namespace Toolkit

variable {α : Type*} {n : Nat}

/-- One more entry in a history with room for `n`. -/
def pushLast (n : Nat) (ws : List α) (x : α) : List α :=
  if ws.length = n then ws.tail ++ [x] else ws ++ [x]

/-- At most as many elements are kept as there are. -/
theorem length_rtake (n : Nat) (xs : List α) : (xs.rtake n).length = min n xs.length := by
  rw [List.rtake, List.length_drop]
  omega

/-- Room for one entry less drops the oldest of the entries that are left when it is full. -/
private theorem tail_rtake_succ {n : Nat} {xs : List α} (h : n + 1 ≤ xs.length) :
    (xs.rtake (n + 1)).tail = xs.rtake n := by
  rw [List.rtake, List.rtake, List.tail_drop]
  congr 1
  omega

private theorem rtake_of_length_le {xs : List α} (h : xs.length ≤ n) : xs.rtake n = xs := by
  rw [List.rtake, Nat.sub_eq_zero_of_le h, List.drop_zero]

/-- A history of the last entries stays one. -/
theorem pushLast_rtake (hn : 0 < n) (xs : List α) (x : α) :
    pushLast n (xs.rtake n) x = (xs ++ [x]).rtake n := by
  obtain ⟨m, rfl⟩ := Nat.exists_eq_succ_of_ne_zero hn.ne'
  rw [List.rtake_concat_succ, pushLast, length_rtake]
  by_cases hfull : m + 1 ≤ xs.length
  · rw [if_pos (by omega), tail_rtake_succ hfull]
  · rw [if_neg (by omega), rtake_of_length_le (by omega), rtake_of_length_le (by omega)]

end Toolkit
