import CanonC.Data.Bitset.Padding
import Mathlib.Algebra.BigOperators.Intervals
import Mathlib.Order.SymmDiff

/-!
# A padded bitset is the set of its members

Between padded bitsets every operation on words is the operation on sets of indices
below the capacity, and the queries are cardinality, emptiness, fullness and
disjointness of these sets.
-/

namespace CanonC

open scoped symmDiff

namespace Bitset

variable {bs other bs' : Bitset} {i : Nat}

/-- The set `{ i < capacity | bit i set }`. -/
def members (bs : Bitset) : Finset Nat :=
  (Finset.range bs.capacity).filter fun i => bs.bit i = true

/-- A member is an index in range whose bit is set. -/
theorem mem_members : i ∈ bs.members ↔ i < bs.capacity ∧ bs.bit i = true := by
  rw [members, Finset.mem_filter, Finset.mem_range]

/-- All members are in range. -/
theorem members_subset (bs : Bitset) : bs.members ⊆ Finset.range bs.capacity :=
  Finset.filter_subset _ _

/-- A padded bitset shows membership at every position of its word array. -/
theorem Padded.bit_eq (hbs : bs.Padded) (hi : i < 64 * bs.wordCount) :
    bs.bit i = decide (i ∈ bs.members) := by
  rw [Bool.eq_iff_iff, decide_eq_true_iff, mem_members]
  constructor
  · intro hb
    refine ⟨Nat.lt_of_not_le fun hle => ?_, hb⟩
    rw [hbs i hle hi] at hb
    cases hb
  · exact And.right

/-- The bits of the word array determine the members and the padding. -/
theorem members_of_bits (bs : Bitset) {s : Finset Nat} (hc : bs'.capacity = bs.capacity)
    (hs : s ⊆ Finset.range bs.capacity)
    (hbit : ∀ i < 64 * bs.wordCount, bs'.bit i = decide (i ∈ s)) :
    bs'.Padded ∧ bs'.members = s := by
  have hbound := bs.capacity_bounds.1
  have hw : bs'.wordCount = bs.wordCount := by
    rw [wordCount_eq_div, wordCount_eq_div, hc]
  constructor
  · intro i hi hlt
    rw [hbit i (by omega), decide_eq_false]
    intro hmem
    have hlt' := Finset.mem_range.mp (hs hmem)
    omega
  · ext i
    rw [mem_members, hc]
    constructor
    · rintro ⟨hi, hb⟩
      rw [hbit i (by omega)] at hb
      exact of_decide_eq_true hb
    · intro hmem
      have hi := Finset.mem_range.mp (hs hmem)
      exact ⟨hi, by rw [hbit i (by omega), decide_eq_true hmem]⟩

/-- A single-bit call decides the membership of its index and of no other. -/
theorem Padded.modify_members {msg : String} {f : BitVec 64 → BitVec 64 → BitVec 64}
    {g : Bool → Bool → Bool}
    (hf : ∀ x m : BitVec 64, ∀ k < 64, (f x m).getLsbD k = g (x.getLsbD k) (m.getLsbD k))
    (hg : ∀ b, g b false = b) (hbs : bs.Padded) (hi : i < bs.capacity) : ∃ bs',
      bitsetModify msg f bs i = .ok bs' ∧ bs'.capacity = bs.capacity ∧ bs'.Padded ∧
        ∀ j, j ∈ bs'.members ↔ g (decide (j ∈ bs.members)) (decide (j = i)) = true := by
  obtain ⟨bs', hok⟩ : ∃ bs', bitsetModify msg f bs i = .ok bs' := ⟨_, modify_eq_ok.mpr ⟨hi, rfl⟩⟩
  have hc : bs'.capacity = bs.capacity := by
    rw [(modify_eq_ok.mp hok).2]
  refine ⟨bs', hok, hc, hbs.modify hf hg hok, fun j => ?_⟩
  have hbound := bs.capacity_bounds.1
  rw [mem_members, hc, bit_modify hf hg hok]
  by_cases hj : j < bs.capacity
  · rw [hbs.bit_eq (by omega)]
    exact and_iff_right hj
  · have hne : j ≠ i := by omega
    have hno : j ∉ bs.members := fun hmem => hj (mem_members.mp hmem).1
    rw [decide_eq_false hno, decide_eq_false hne, hg, hg]
    exact iff_of_false (fun h => hj h.1) Bool.false_ne_true

/-- `bitset_set` inserts its index. -/
theorem Padded.set_members (hbs : bs.Padded) (hi : i < bs.capacity) : ∃ bs',
    bitsetSet bs i = .ok bs' ∧ bs'.capacity = bs.capacity ∧ bs'.Padded ∧
      bs'.members = insert i bs.members := by
  obtain ⟨bs', hok, hc, hpad, hmem⟩ :=
    hbs.modify_members (fun _ _ _ _ => BitVec.getLsbD_or) Bool.or_false hi
  refine ⟨bs', hok, hc, hpad, ?_⟩
  ext j
  rw [hmem, Finset.mem_insert, Bool.or_eq_true, decide_eq_true_iff, decide_eq_true_iff, or_comm]

/-- `bitset_clear` erases its index. -/
theorem Padded.clear_members (hbs : bs.Padded) (hi : i < bs.capacity) : ∃ bs',
    bitsetClear bs i = .ok bs' ∧ bs'.capacity = bs.capacity ∧ bs'.Padded ∧
      bs'.members = bs.members.erase i := by
  obtain ⟨bs', hok, hc, hpad, hmem⟩ :=
    hbs.modify_members (g := fun b m => b && !m) getLsbD_and_not Bool.and_true hi
  refine ⟨bs', hok, hc, hpad, ?_⟩
  ext j
  rw [hmem, Finset.mem_erase, Bool.and_eq_true, Bool.not_eq_true', decide_eq_false_iff_not,
    decide_eq_true_iff, and_comm]

/-- `bitset_toggle` flips the membership of its index. -/
theorem Padded.toggle_members (hbs : bs.Padded) (hi : i < bs.capacity) : ∃ bs',
    bitsetToggle bs i = .ok bs' ∧ bs'.capacity = bs.capacity ∧ bs'.Padded ∧
      bs'.members = bs.members ∆ {i} := by
  obtain ⟨bs', hok, hc, hpad, hmem⟩ :=
    hbs.modify_members (fun _ _ _ _ => BitVec.getLsbD_xor) Bool.xor_false hi
  refine ⟨bs', hok, hc, hpad, ?_⟩
  ext j
  rw [hmem, Finset.mem_symmDiff, Finset.mem_singleton]
  by_cases hj : j = i <;> simp [hj]

/-- `bitset_clear_all` leaves the empty set. -/
theorem clearAll_members (bs : Bitset) :
    (bitsetClearAll bs).Padded ∧ (bitsetClearAll bs).members = ∅ := by
  refine members_of_bits bs rfl (Finset.empty_subset _) fun j hj => ?_
  exact bit_fill (fun _ _ => BitVec.getLsbD_zero) hj

/-- `bitset_set_all` leaves every index. -/
theorem setAll_members (bs : Bitset) :
    (bitsetSetAll bs).Padded ∧ (bitsetSetAll bs).members = Finset.range bs.capacity := by
  refine members_of_bits bs capacity_clearPadding (Finset.Subset.refl _) fun j hj => ?_
  have hword : ∀ k < 64, (0xFFFFFFFFFFFFFFFF#64).getLsbD k = true := by
    intro k hk
    have hones : 0xFFFFFFFFFFFFFFFF#64 = BitVec.allOnes 64 := by decide
    rw [hones, BitVec.getLsbD_allOnes, decide_eq_true hk]
  refine (bit_clearPadding ?_).trans ?_
  · exact hj
  · rw [bit_fill hword hj, Bool.true_and]
    exact decide_eq_decide.mpr Finset.mem_range.symm

/-- `bitset_not` leaves the indices that were missing. -/
theorem Padded.not_members (hbs : bs.Padded) :
    (bitsetNot bs).Padded ∧ (bitsetNot bs).members = Finset.range bs.capacity \ bs.members := by
  refine members_of_bits bs capacity_clearPadding Finset.sdiff_subset fun j hj => ?_
  rw [bit_not, if_pos hj, hbs.bit_eq hj, Bool.eq_iff_iff]
  simp only [Bool.and_eq_true, Bool.not_eq_true', decide_eq_true_eq, decide_eq_false_iff_not,
    Finset.mem_sdiff, Finset.mem_range]
  exact and_comm

private theorem notMem_of_short (hle : other.capacity ≤ 64 * other.wordCount)
    (hi : ¬ i < 64 * other.wordCount) : i ∉ other.members := by
  intro hmem
  have hlt := Finset.mem_range.mp (other.members_subset hmem)
  omega

/-- `bitset_and` intersects, whatever the capacity of the operand. -/
theorem Padded.and_members (hbs : bs.Padded) (hother : other.Padded) :
    (bitsetAnd bs other).Padded ∧ (bitsetAnd bs other).members = bs.members ∩ other.members := by
  refine members_of_bits bs rfl (Finset.inter_subset_left.trans bs.members_subset) fun j hj => ?_
  rw [bit_and hj, hbs.bit_eq hj, Bool.eq_iff_iff]
  simp only [Bool.and_eq_true, decide_eq_true_eq, Finset.mem_inter]
  apply and_congr_right
  intro _
  by_cases ho : j < 64 * other.wordCount
  · simp [ho, hother.bit_eq ho]
  · simp [ho, notMem_of_short other.capacity_bounds.1 ho]

/-- `bitset_or` unites with an operand that is not longer. -/
theorem Padded.or_members (hbs : bs.Padded) (hother : other.Padded)
    (hle : other.capacity ≤ bs.capacity) :
    (bitsetOr bs other).Padded ∧ (bitsetOr bs other).members = bs.members ∪ other.members := by
  refine members_of_bits bs rfl (Finset.union_subset bs.members_subset ?_) fun j hj => ?_
  · exact other.members_subset.trans (Finset.range_mono hle)
  · rw [bit_or]
    by_cases ho : j < 64 * other.wordCount
    · simp [hj, ho, hbs.bit_eq hj, hother.bit_eq ho]
    · simp [ho, hbs.bit_eq hj, notMem_of_short other.capacity_bounds.1 ho]

/-- `bitset_xor` takes the symmetric difference with an operand that is not longer. -/
theorem Padded.xor_members (hbs : bs.Padded) (hother : other.Padded)
    (hle : other.capacity ≤ bs.capacity) :
    (bitsetXor bs other).Padded ∧ (bitsetXor bs other).members = bs.members ∆ other.members := by
  have hsub := other.members_subset.trans (Finset.range_mono hle)
  have hdiff : bs.members ∆ other.members ⊆ Finset.range bs.capacity :=
    symmDiff_le_sup.trans (sup_le bs.members_subset hsub)
  refine members_of_bits bs capacity_clearPadding hdiff fun j hj => ?_
  have hcap := @hdiff j
  rw [Finset.mem_range, Finset.mem_symmDiff] at hcap
  rw [bit_xor hj, Bool.eq_iff_iff]
  by_cases ho : j < 64 * other.wordCount
  · simp only [ho, if_true, hbs.bit_eq hj, hother.bit_eq ho, Bool.and_eq_true,
      decide_eq_true_eq, Finset.mem_symmDiff]
    by_cases hm : j ∈ bs.members <;> by_cases hm' : j ∈ other.members <;> simp_all
  · have hno := notMem_of_short other.capacity_bounds.1 ho
    simp only [ho, if_false, hbs.bit_eq hj, Bool.and_eq_true, decide_eq_true_eq,
      Finset.mem_symmDiff]
    tauto

end Bitset

end CanonC
