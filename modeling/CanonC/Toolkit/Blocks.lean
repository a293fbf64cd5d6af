import Mathlib.Tactic.Common

/-!
# Stacks of blocks

Blocks of addresses piled up without overlap, the newest first. A block is pushed at or
above the top; lowering the top drops the blocks that reach past it.
-/

namespace Toolkit

/-- The addresses `start, …, start + size - 1`. -/
structure Block where
  /-- The first address. -/
  start : Nat
  /-- The number of addresses. -/
  size : Nat
  deriving DecidableEq, Repr

namespace Block

/-- The address behind the last one. -/
def stop (b : Block) : Nat := b.start + b.size

/-- Two blocks have no address in common. -/
def Disjoint (a b : Block) : Prop := a.stop ≤ b.start ∨ b.stop ≤ a.start

/-- The block lies between two addresses. -/
def Within (lo hi : Nat) (b : Block) : Prop := lo ≤ b.start ∧ b.stop ≤ hi

/-- The blocks lie between two addresses, each at or above the end of the older ones. -/
structure Stacked (lo hi : Nat) (bs : List Block) : Prop where
  /-- Every block starts where the older ones have ended. -/
  ordered : bs.Pairwise fun a b => b.stop ≤ a.start
  /-- Every block lies between the bounds. -/
  within : ∀ b ∈ bs, b.Within lo hi

variable {lo hi : Nat} {bs : List Block} {b : Block}

/-- No block is stacked. -/
theorem Stacked.nil : Stacked lo hi [] := ⟨.nil, fun _ h => nomatch h⟩

/-- Stacked blocks are pairwise disjoint. -/
theorem Stacked.disjoint (h : Stacked lo hi bs) : bs.Pairwise Disjoint :=
  h.ordered.imp Or.inr

/-- A block at or above the top is pushed. -/
theorem Stacked.push (h : Stacked lo hi bs) (hlo : lo ≤ hi) (hb : hi ≤ b.start) :
    Stacked lo b.stop (b :: bs) := by
  have hstop : b.start ≤ b.stop := Nat.le_add_right _ _
  refine ⟨List.pairwise_cons.mpr ⟨fun a ha => ?_, h.ordered⟩, fun a ha => ?_⟩
  · exact Nat.le_trans (h.within a ha).2 hb
  · rcases List.mem_cons.mp ha with rfl | ha
    · exact ⟨Nat.le_trans hlo hb, Nat.le_refl _⟩
    · obtain ⟨h₁, h₂⟩ := h.within a ha
      exact ⟨h₁, Nat.le_trans h₂ (Nat.le_trans hb hstop)⟩

/-- The blocks that end below a mark are stacked below it. -/
theorem Stacked.rollback (h : Stacked lo hi bs) (mark : Nat) :
    Stacked lo mark (bs.filter fun b => b.stop ≤ mark) := by
  refine ⟨h.ordered.filter _, fun a ha => ?_⟩
  obtain ⟨hmem, hle⟩ := List.mem_filter.mp ha
  exact ⟨(h.within a hmem).1, of_decide_eq_true hle⟩

instance : Std.Symm Disjoint := ⟨fun _ _ => Or.symm⟩

/-- What lies in two blocks without a common address has none. -/
theorem Disjoint.of_within {a b c d : Block} (h : Disjoint c d) (ha : a.Within c.start c.stop)
    (hb : b.Within d.start d.stop) : Disjoint a b := by
  rcases h with h | h
  · exact Or.inl (Nat.le_trans ha.2 (Nat.le_trans h hb.1))
  · exact Or.inr (Nat.le_trans hb.2 (Nat.le_trans h ha.1))

/-- A block in a block that lies between two addresses lies between them. -/
theorem Within.trans {c : Block} (h : b.Within c.start c.stop) (hc : c.Within lo hi) :
    b.Within lo hi :=
  ⟨Nat.le_trans hc.1 h.1, Nat.le_trans h.2 hc.2⟩

/-- An array of `n` blocks of one size, each behind the one before. -/
def array (start size n : Nat) : List Block :=
  (List.range n).map fun i => ⟨start + i * size, size⟩

/-- The elements of an array do not overlap. -/
theorem array_disjoint (start size n : Nat) : (array start size n).Pairwise Disjoint := by
  rw [array, List.pairwise_map]
  apply List.pairwise_lt_range.imp
  intro i j hij
  left
  have hstep : (i + 1) * size ≤ j * size := Nat.mul_le_mul_right size hij
  rw [Nat.add_mul, Nat.one_mul] at hstep
  change start + i * size + size ≤ start + j * size
  omega

/-- The elements of an array lie in the block that it fills. -/
theorem array_within {start size n : Nat} (hb : b ∈ array start size n) :
    b.Within start (start + size * n) := by
  obtain ⟨i, hi, rfl⟩ := List.mem_map.mp hb
  have hstep : (i + 1) * size ≤ n * size := Nat.mul_le_mul_right size (List.mem_range.mp hi)
  rw [Nat.add_mul, Nat.one_mul, Nat.mul_comm n] at hstep
  refine ⟨Nat.le_add_right _ _, ?_⟩
  change start + i * size + size ≤ start + size * n
  omega

end Block

end Toolkit
