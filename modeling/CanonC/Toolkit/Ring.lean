import CanonC.Toolkit.Cyclic
import Mathlib.Logic.Function.Basic

/-!
# Windows on a ring of cells

The elements of a ring buffer are the cells met when walking forward from its head.
A window grows and shrinks at both ends, and a write outside it does not change it.
-/

namespace Toolkit.Cyclic

variable {α : Type*} {n h i k : Nat} {cells : Nat → α} {x : α}

/-- The `k` elements met from position `h` on. -/
def window (n : Nat) (cells : Nat → α) (h : Nat) : Nat → List α
  | 0 => []
  | k + 1 => cells h :: window n cells (next n h) k

/-- An empty window. -/
@[simp] theorem window_zero : window n cells h 0 = [] := rfl

/-- The head of a window and the window that starts after it. -/
theorem window_succ : window n cells h (k + 1) = cells h :: window n cells (next n h) k := rfl

/-- A window has as many cells as it is wide. -/
@[simp] theorem length_window : (window n cells h k).length = k := by
  induction k generalizing h with
  | zero => rfl
  | succ k ih => rw [window_succ, List.length_cons, ih]

/-- A window and the cell right behind it. -/
theorem window_concat (hh : h < n) :
    window n cells h (k + 1) = window n cells h k ++ [cells ((h + k) % n)] := by
  induction k generalizing h with
  | zero => rw [window_succ, Nat.add_zero, Nat.mod_eq_of_lt hh]; rfl
  | succ k ih =>
    have hstep : (next n h + k) % n = (h + (k + 1)) % n := by
      rw [next, Nat.mod_add_mod, Nat.add_assoc, Nat.add_comm 1 k]
    rw [window_succ, ih (next_lt hh), hstep, window_succ, List.cons_append]

/-- A write at least `k` steps ahead misses the window of `k` cells. -/
theorem window_update (hh : h < n) (hi : i < n) (hk : k ≤ dist n h i) :
    window n (Function.update cells i x) h k = window n cells h k := by
  induction k generalizing h with
  | zero => rfl
  | succ k ih =>
    have hne : h ≠ i := by
      rintro rfl
      rw [dist_self hh] at hk
      omega
    have hd := dist_from_next hh hi hne
    rw [window_succ, window_succ, Function.update_of_ne hne, ih (next_lt hh) (by omega)]

/-- The cell before the head is a full turn less one step ahead. -/
theorem dist_self_prev (hh : h < n) : dist n h (prev n h) = n - 1 := by
  have hp := prev_cases hh
  have hd := dist_cases hh (prev_lt hh)
  omega

/-- Writing before the head of a window that is not full puts an element in front. -/
theorem window_push_front (hh : h < n) (hk : k < n) :
    window n (Function.update cells (prev n h) x) (prev n h) (k + 1) =
      x :: window n cells h k := by
  have hd := dist_self_prev hh
  rw [window_succ, Function.update_self, next_prev hh, window_update hh (prev_lt hh) (by omega)]

/-- Writing behind a window that is not full puts an element at the end. -/
theorem window_push_back (hh : h < n) (hk : k < n) :
    window n (Function.update cells ((h + k) % n) x) h (k + 1) = window n cells h k ++ [x] := by
  have hi : (h + k) % n < n := Nat.mod_lt _ (by omega)
  rw [window_concat hh, Function.update_self, window_update hh hi (dist_add hh hk).ge]

end Toolkit.Cyclic
