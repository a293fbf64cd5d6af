import Mathlib.Data.List.GetD
import Mathlib.Logic.Function.Basic
import Mathlib.Tactic.Common

/-!
# Memory as addressed cells

A memory gives each address a value. Runs of cells are read and written as lists; a
read sees the last write that covers it and nothing of the writes elsewhere.
-/

namespace Toolkit.Cells

variable {α : Type*}

/-- The `n` cells from an address on. -/
def read (mem : Nat → α) (p n : Nat) : List α := (List.range n).map fun i => mem (p + i)

/-- The memory with a list written from an address on. -/
def write (mem : Nat → α) (p : Nat) (xs : List α) : Nat → α := fun a =>
  if p ≤ a then xs.getD (a - p) (mem a) else mem a

variable {mem mem' : Nat → α} {p q n : Nat} {xs : List α}

/-- As many cells are read as are asked for. -/
@[simp] theorem length_read : (read mem p n).length = n := by simp [read]

/-- No cells are read. -/
@[simp] theorem read_zero : read mem p 0 = [] := rfl

/-- An element of what is read is the cell it was read from. -/
theorem getElem?_read {i : Nat} (hi : i < n) : (read mem p n)[i]? = some (mem (p + i)) := by
  simp [read, hi]

/-- A read is determined by the cells it covers. -/
theorem read_congr (h : ∀ a, p ≤ a → a < p + n → mem a = mem' a) :
    read mem p n = read mem' p n := by
  apply List.map_congr_left
  intro i hi
  rw [List.mem_range] at hi
  exact h (p + i) (by omega) (by omega)

/-- A run of cells in two parts. -/
theorem read_add (m : Nat) : read mem p (m + n) = read mem p m ++ read mem (p + m) n := by
  simp only [read, List.range_add, List.map_append, List.map_map]
  congr 1
  apply List.map_congr_left
  intro i _
  exact congrArg mem (Nat.add_assoc p m i).symm

/-- One cell is read. -/
theorem read_one : read mem p 1 = [mem p] := rfl

/-- A run of cells after its first one. -/
theorem read_succ : read mem p (n + 1) = mem p :: read mem (p + 1) n := by
  rw [Nat.add_comm n 1, read_add, read_one, List.singleton_append]

/-- A run of cells cut short. -/
theorem take_read {k : Nat} (h : k ≤ n) : (read mem p n).take k = read mem p k := by
  obtain ⟨m, rfl⟩ := Nat.exists_eq_add_of_le h
  rw [read_add, List.take_left' length_read]

/-- A run of cells without its first ones. -/
theorem drop_read {k : Nat} : (read mem p n).drop k = read mem (p + k) (n - k) := by
  rcases Nat.le_total k n with h | h
  · obtain ⟨m, rfl⟩ := Nat.exists_eq_add_of_le h
    rw [read_add, List.drop_left' length_read, Nat.add_sub_cancel_left]
  · rw [List.drop_eq_nil_of_le (by simpa using h), Nat.sub_eq_zero_of_le h, read_zero]

/-- A list that starts a read is the read of its length. -/
theorem read_of_prefix (h : xs <+: read mem p n) : read mem p xs.length = xs := by
  have hlen := h.length_le
  rw [length_read] at hlen
  rw [← take_read hlen]
  exact (List.prefix_iff_eq_take.mp h).symm

/-- A cell inside the written run. -/
theorem write_apply {i : Nat} (hi : i < xs.length) : write mem p xs (p + i) = xs[i] := by
  rw [write, if_pos (Nat.le_add_right p i), Nat.add_sub_cancel_left, List.getD_eq_getElem _ _ hi]

/-- A cell outside the written run. -/
theorem write_of_outside {a : Nat} (h : a < p ∨ p + xs.length ≤ a) :
    write mem p xs a = mem a := by
  rw [write]
  split
  · exact List.getD_eq_default _ _ (by omega)
  · rfl

/-- Nothing is written. -/
@[simp] theorem write_nil : write mem p [] = mem := by
  funext a
  exact write_of_outside (Nat.lt_or_ge a p)

/-- One more cell written behind a run. -/
theorem update_write (mem : Nat → α) (p : Nat) (xs : List α) (x : α) :
    Function.update (write mem p xs) (p + xs.length) x = write mem p (xs ++ [x]) := by
  funext a
  by_cases ha : a = p + xs.length
  · rw [ha, Function.update_self, write_apply (by simp), List.getElem_concat_length rfl]
  · rw [Function.update_of_ne ha]
    by_cases hin : p ≤ a ∧ a < p + xs.length
    · obtain ⟨i, rfl⟩ := Nat.exists_eq_add_of_le hin.1
      have hi : i < xs.length := by omega
      rw [write_apply hi, write_apply (by simp; omega), List.getElem_append_left hi]
    · rw [write_of_outside (by omega), write_of_outside (by simp; omega)]

/-- One cell written. -/
theorem update_eq_write (x : α) : Function.update mem p x = write mem p [x] := by
  simpa using update_write mem p [] x

/-- A run written after its first cell. -/
theorem write_write_cons (mem : Nat → α) (p : Nat) (x : α) (xs : List α) :
    write (write mem p [x]) (p + 1) xs = write mem p (x :: xs) := by
  ext a
  by_cases hin : p + 1 ≤ a ∧ a < p + 1 + xs.length
  · obtain ⟨i, rfl⟩ := Nat.exists_eq_add_of_le hin.1
    have hi : i < xs.length := by omega
    rw [write_apply hi, Nat.add_assoc, write_apply (by simp; omega)]
    simp [Nat.add_comm 1 i]
  · rw [write_of_outside (by omega)]
    by_cases ha : a = p
    · subst ha
      simp [write]
    · rw [write_of_outside (by simp; omega), write_of_outside (by simp; omega)]

/-- A run written over the end of another one. -/
theorem write_write_append {ys zs : List α} (h : zs.length ≤ ys.length) :
    write (write mem p (xs ++ zs)) (p + xs.length) ys = write mem p (xs ++ ys) := by
  funext a
  rcases Nat.lt_or_ge a p with hlo | hlo
  · rw [write_of_outside (by omega), write_of_outside (Or.inl hlo), write_of_outside (Or.inl hlo)]
  · obtain ⟨i, rfl⟩ := Nat.exists_eq_add_of_le hlo
    rcases Nat.lt_or_ge i xs.length with hi | hi
    · rw [write_of_outside (by omega), write_apply (by simp; omega), write_apply (by simp; omega),
        List.getElem_append_left hi, List.getElem_append_left hi]
    · rcases Nat.lt_or_ge i (xs.length + ys.length) with hin | hout
      · obtain ⟨j, rfl⟩ := Nat.exists_eq_add_of_le hi
        have hj : j < ys.length := by omega
        rw [← Nat.add_assoc, write_apply hj, Nat.add_assoc, write_apply (by simp; omega)]
        simp
      · rw [write_of_outside (by omega), write_of_outside (by simp; omega),
          write_of_outside (by simp; omega)]

/-- Reading a run back gives what was written. -/
@[simp] theorem read_write_self : read (write mem p xs) p xs.length = xs := by
  apply List.ext_getElem?
  intro i
  by_cases hi : i < xs.length
  · rw [getElem?_read hi, write_apply hi, List.getElem?_eq_getElem hi]
  · rw [List.getElem?_eq_none (by simpa using hi), List.getElem?_eq_none (by omega)]

/-- A run that was moved is read back where it was moved to. -/
theorem read_write_read (q n : Nat) : read (write mem p (read mem q n)) p n = read mem q n := by
  simpa using @read_write_self _ mem p (read mem q n)

/-- A write does not change a run that it does not meet. -/
theorem read_write_of_disjoint (h : q + n ≤ p ∨ p + xs.length ≤ q) :
    read (write mem p xs) q n = read mem q n := by
  apply read_congr
  intro a hlo hhi
  exact write_of_outside (by omega)

/-- A run that is written behind another one continues it. -/
theorem read_write_append (h : read mem p xs.length = xs) (ys : List α) :
    read (write mem (p + xs.length) ys) p (xs.length + ys.length) = xs ++ ys := by
  rw [read_add, read_write_self, read_write_of_disjoint (Or.inl (Nat.le_refl _)), h]

/-- Writing what is there changes nothing. -/
theorem write_read_self : write mem p (read mem p n) = mem := by
  funext a
  by_cases hin : p ≤ a ∧ a < p + n
  · obtain ⟨i, rfl⟩ := Nat.exists_eq_add_of_le hin.1
    have hi : i < n := by omega
    rw [write_apply (by simpa using hi)]
    exact (List.getElem_eq_iff _).mpr (getElem?_read hi)
  · exact write_of_outside (by simp; omega)

/-- Inserting behind a part of a list. -/
theorem insertIdx_append_length (xs ys : List α) (x : α) :
    (xs ++ ys).insertIdx xs.length x = xs ++ x :: ys := by
  induction xs with
  | nil => rfl
  | cons y xs ih => rw [List.cons_append, List.length_cons, List.insertIdx_succ_cons, ih]; rfl

/-- Moving a tail of a run one cell on and filling the gap inserts an element. -/
theorem read_insert {i : Nat} (h : i ≤ n) (x : α) :
    read (Function.update (write mem (p + i + 1) (read mem (p + i) (n - i))) (p + i) x) p (n + 1) =
      (read mem p n).insertIdx i x := by
  have hsplit : n + 1 = i + (n - i + 1) := by omega
  have hhead : read (Function.update (write mem (p + i + 1) (read mem (p + i) (n - i))) (p + i) x)
      p i = read mem p i := read_congr fun a _ ha => by
    rw [Function.update_of_ne (by omega), write_of_outside (by omega)]
  have htail : read (Function.update (write mem (p + i + 1) (read mem (p + i) (n - i))) (p + i) x)
      (p + i + 1) (n - i) = read mem (p + i) (n - i) := by
    refine Eq.trans (read_congr fun a ha _ => ?_) (read_write_read (p + i) (n - i))
    exact Function.update_of_ne (by omega) _ _
  have hlist : (read mem p n).insertIdx i x =
      (read mem p i ++ read mem (p + i) (n - i)).insertIdx (read mem p i).length x := by
    rw [← read_add, Nat.add_sub_of_le h, length_read]
  rw [hsplit, read_add, read_succ, hhead, htail, Function.update_self, hlist,
    insertIdx_append_length]

/-- Moving the tail behind a cell onto it erases the cell. -/
theorem read_erase {i : Nat} (h : i < n) :
    read (write mem (p + i) (read mem (p + i + 1) (n - i - 1))) p (n - 1) =
      (read mem p n).eraseIdx i := by
  have hsplit : n - 1 = i + (n - i - 1) := by omega
  have hlist : read mem p n = read mem p i ++ mem (p + i) :: read mem (p + i + 1) (n - i - 1) := by
    rw [← read_succ, ← read_add]
    congr 1
    omega
  rw [hsplit, read_add, read_write_read, read_write_of_disjoint (Or.inl (Nat.le_refl _)), hlist,
    List.eraseIdx_append_of_length_le (by simp), length_read, Nat.sub_self, List.eraseIdx_zero,
    List.tail_cons]

end Toolkit.Cells
