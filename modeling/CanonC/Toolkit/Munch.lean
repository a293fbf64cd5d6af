import Mathlib.Data.List.TakeWhile

/-!
# Longest match

A scanner takes the longest prefix of its input that belongs to a language. The match is
unique, and the laws below find it for words over an alphabet, behind a fixed beginning, and
in front of a symbol that no word contains.
-/

namespace Toolkit

variable {α : Type*}

/-- The longest prefix of a text that belongs to a language. -/
structure Munch (P : List α → Prop) (s t : List α) : Prop where
  start : t <+: s
  mem : P t
  longest : ∀ u, u <+: s → P u → u.length ≤ t.length

/-- There is at most one longest match. -/
theorem Munch.unique {P : List α → Prop} {s t u : List α} (ht : Munch P s t) (hu : Munch P s u) :
    t = u := by
  have hlen := Nat.le_antisymm (hu.longest t ht.start ht.mem) (ht.longest u hu.start hu.mem)
  exact (List.prefix_of_prefix_length_le ht.start hu.start hlen.le).eq_of_length hlen

/-- A language that has the match and no longer prefix has the same match. -/
theorem Munch.congr {P Q : List α → Prop} {s t : List α} (ht : Munch P s t) (hmem : Q t)
    (h : ∀ u, u <+: s → Q u → P u ∨ u.length ≤ t.length) : Munch Q s t where
  start := ht.start
  mem := hmem
  longest := by
    intro u hu hQ
    rcases h u hu hQ with hP | hle
    · exact ht.longest u hu hP
    · exact hle

/-- Over an alphabet the longest match stops at the first symbol outside it. -/
theorem munch_takeWhile (p : α → Bool) (s : List α) :
    Munch (fun t => ∀ x ∈ t, p x = true) s (s.takeWhile p) where
  start := List.takeWhile_prefix p
  mem := fun _ hx => List.mem_takeWhile_imp hx
  longest := by
    intro u hu hp
    obtain ⟨rest, rfl⟩ := hu
    rw [List.takeWhile_append_of_pos hp, List.length_append]
    exact Nat.le_add_right _ _

/-- A fixed symbol stands in front of the match of what follows it. -/
theorem Munch.cons {P : List α → Prop} {s t : List α} (ht : Munch P s t) (a : α) :
    Munch (fun u => ∃ v, u = a :: v ∧ P v) (a :: s) (a :: t) where
  start := List.cons_prefix_cons.mpr ⟨rfl, ht.start⟩
  mem := ⟨t, rfl, ht.mem⟩
  longest := by
    rintro u hu ⟨v, rfl, hv⟩
    exact Nat.succ_le_succ (ht.longest v (List.cons_prefix_cons.mp hu).2 hv)

/-- A word is the match where a symbol that no word contains follows it. -/
theorem munch_append {P : List α → Prop} {p : α → Bool} {t rest : List α} (ht : P t)
    (hP : ∀ u, P u → ∀ x ∈ u, p x = true) (hrest : ∀ x ∈ rest.head?, p x = false) :
    Munch P (t ++ rest) t where
  start := List.prefix_append t rest
  mem := ht
  longest := by
    intro u hu hPu
    have hstop : rest.takeWhile p = [] := by
      cases rest with
      | nil => rfl
      | cons x rest => rw [List.takeWhile_cons_of_neg (by simpa using hrest x rfl)]
    have hle := (munch_takeWhile p (t ++ rest)).longest u hu (hP u hPu)
    rwa [List.takeWhile_append_of_pos (hP t ht), hstop, List.append_nil] at hle

end Toolkit
