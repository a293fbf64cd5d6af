import CanonC.Toolkit.Cells

/-!
# A text cut to the room it has

A writer that gets a text and room for `n` cells writes what fits and a terminator behind it.
Where several texts are written one behind the other, each into the room that the earlier ones
leave, the cells hold what fits of the whole text.
-/

namespace Toolkit

variable {α : Type*} {z : α} {n : Nat} {xs ys : List α}

/-- What fits of a text in `n` cells, with the terminator. -/
def cutTo (z : α) (n : Nat) (xs : List α) : List α := xs.take (n - 1) ++ [z]

/-- The length of what fits, with the terminator. -/
theorem length_cutTo : (cutTo z n xs).length = min xs.length (n - 1) + 1 := by
  rw [cutTo, List.length_append, List.length_take, List.length_singleton, Nat.min_comm]

/-- What fits has room. -/
theorem length_cutTo_le (hn : 1 ≤ n) : (cutTo z n xs).length ≤ n := by
  rw [length_cutTo]
  omega

/-- A text that fits is not cut. -/
theorem cutTo_of_lt (h : xs.length < n) : cutTo z n xs = xs ++ [z] := by
  rw [cutTo, List.take_of_length_le (by omega)]

/-- A text that fills the room leaves nothing of what follows. -/
theorem cutTo_append_of_le (h : n ≤ xs.length) : cutTo z n (xs ++ ys) = cutTo z n xs := by
  rw [cutTo, cutTo, List.take_append_of_le_length (by omega)]

/-- What fits of two texts, where the first one leaves some room. -/
theorem cutTo_append_of_lt (h : xs.length < n) :
    cutTo z n (xs ++ ys) = xs ++ cutTo z (n - xs.length) ys := by
  have hroom : n - 1 = xs.length + (n - xs.length - 1) := by omega
  rw [cutTo, cutTo, hroom, List.take_length_add_append, List.append_assoc]

namespace Cells

variable {mem : Nat → α} {p : Nat}

/-- The next text written behind what fits of an earlier one leaves what fits of both. -/
theorem write_cutTo_append (h : xs.length < n) :
    write (write mem p (cutTo z n xs)) (p + xs.length) (cutTo z (n - xs.length) ys) =
      write mem p (cutTo z n (xs ++ ys)) := by
  rw [cutTo_of_lt h, cutTo_append_of_lt h]
  exact write_write_append (by rw [length_cutTo]; exact Nat.le_add_left 1 _)

end Cells

end Toolkit
