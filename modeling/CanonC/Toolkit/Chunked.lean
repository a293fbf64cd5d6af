import Mathlib.Tactic.Common

/-!
# Reading chunk by chunk

A reader with room for some items asks for them in chunks, the last one as small as the room that
is left, and stops at the first short answer. It makes a call as long as there is room and every
earlier call was answered in full.
-/

namespace Toolkit

variable {fails : Nat → Nat → Prop} {c room n : Nat}

/-- One of the calls fails that read `n` items, `c` at a time, into some room. -/
def ChunkFails (fails : Nat → Nat → Prop) (c room n : Nat) : Prop :=
  ∃ j, j * c < room ∧ j * c ≤ n ∧ fails j (min (room - j * c) c)

/-- The first call is made where there is room. -/
theorem chunkFails_of_first (hroom : 0 < room) (h : fails 0 (min room c)) :
    ChunkFails fails c room n := by
  refine ⟨0, ?_, ?_, ?_⟩
  · rwa [Nat.zero_mul]
  · rw [Nat.zero_mul]
    exact Nat.zero_le n
  · rwa [Nat.zero_mul, Nat.sub_zero]

/-- Without room no call is made. -/
theorem not_chunkFails_zero : ¬ChunkFails fails c 0 n := fun ⟨_, hlt, _⟩ => Nat.not_lt_zero _ hlt

/-- Where the first call takes what there is or what there is room for, it is the only one. -/
theorem chunkFails_iff_first (hroom : 0 < room) (hlast : room ≤ c ∨ n < c) :
    ChunkFails fails c room n ↔ fails 0 (min room c) := by
  constructor
  · rintro ⟨j, hlt, hle, hfails⟩
    have hzero : j = 0 := by
      by_contra hj
      have hmul := Nat.le_mul_of_pos_left c (Nat.pos_of_ne_zero hj)
      omega
    rwa [hzero, Nat.zero_mul, Nat.sub_zero] at hfails
  · exact chunkFails_of_first hroom

/-- Behind a first call that is answered in full, the calls for what is left are made. -/
theorem chunkFails_iff_next (hroom : c < room) (hn : c ≤ n) (hfirst : ¬fails 0 c) :
    ChunkFails fails c room n ↔ ChunkFails (fun i => fails (i + 1)) c (room - c) (n - c) := by
  have hsub : ∀ j, room - (j + 1) * c = room - c - j * c := by
    intro j
    rw [Nat.succ_mul, Nat.add_comm, Nat.sub_add_eq]
  constructor
  · rintro ⟨j, hlt, hle, hfails⟩
    cases j with
    | zero =>
      rw [Nat.zero_mul, Nat.sub_zero, Nat.min_eq_right (Nat.le_of_lt hroom)] at hfails
      exact absurd hfails hfirst
    | succ j =>
      rw [hsub] at hfails
      rw [Nat.succ_mul] at hlt hle
      exact ⟨j, by omega, by omega, hfails⟩
  · rintro ⟨j, hlt, hle, hfails⟩
    refine ⟨j + 1, ?_, ?_, ?_⟩
    · rw [Nat.succ_mul]
      omega
    · rw [Nat.succ_mul]
      omega
    · rwa [hsub]

end Toolkit
