import CanonC.Data.Bitset.Sets

/-!
# The queries and the set algebra

The word-wise queries answer for the set of members, and one statement collects the
effect of every mutator and the answer of every query.
-/

namespace CanonC

open scoped symmDiff

namespace Bitset

variable {bs other : Bitset} {i : Nat}

private theorem and_maskOf_ne_zero (x : BitVec 64) (i : Nat) :
    (x &&& bitsetMaskOf i != 0) = x.getLsbD (i % 64) := by
  have hk : i % 64 < 64 := mod_word_lt _
  rw [Bool.eq_iff_iff, bne_iff_ne]
  constructor
  · intro hne
    by_contra hb
    rw [Bool.not_eq_true] at hb
    apply hne
    apply BitVec.eq_of_getLsbD_eq
    intro k hlt
    have hmask := getLsbD_maskOf i k
    rw [Nat.mod_eq_of_lt hlt] at hmask
    rw [BitVec.getLsbD_and, hmask]
    by_cases he : i % 64 = k
    · rw [← he, hb, Bool.false_and]
      exact BitVec.getLsbD_zero.symm
    · rw [decide_eq_false he, Bool.and_false]
      exact BitVec.getLsbD_zero.symm
  · intro hb hzero
    have hbit := congrArg (fun y => BitVec.getLsbD y (i % 64)) hzero
    rw [BitVec.getLsbD_and, hb, getLsbD_maskOf, decide_eq_true rfl] at hbit
    exact absurd (hbit.trans BitVec.getLsbD_zero) (by decide)

/-- `bitset_test` tells membership. -/
theorem test_eq (hi : i < bs.capacity) : bitsetTest bs i = .ok (decide (i ∈ bs.members)) := by
  rw [bitsetTest, decide_eq_true hi, requireMsg_true, ok_bind, and_maskOf_ne_zero]
  congr 1
  rw [Bool.eq_iff_iff, decide_eq_true_iff, mem_members]
  exact (and_iff_right hi).symm

private theorem all_words_zero (f : Nat → BitVec 64) (n : Nat) :
    ((List.range n).all fun w => f w == 0) = true ↔
      ∀ i < 64 * n, (f (i / 64)).getLsbD (i % 64) = false := by
  simp only [List.all_eq_true, List.mem_range, beq_iff_eq]
  constructor
  · intro h i hi
    rw [h (i / 64) (by omega)]
    exact BitVec.getLsbD_zero
  · intro h w hw
    apply BitVec.eq_of_getLsbD_eq
    intro k hk
    have hbit := h (64 * w + k) (by omega)
    rw [getLsbD_offset f w hk] at hbit
    exact hbit.trans BitVec.getLsbD_zero.symm

/-- `bitset_is_empty` holds of the empty set only. -/
theorem Padded.isEmpty_iff (hbs : bs.Padded) : bitsetIsEmpty bs = true ↔ bs.members = ∅ := by
  have hbound := bs.capacity_bounds.1
  rw [bitsetIsEmpty, all_words_zero, Finset.eq_empty_iff_forall_notMem]
  constructor
  · intro h i hmem
    obtain ⟨hi, hb⟩ := mem_members.mp hmem
    exact absurd ((h i (by omega)).symm.trans hb) (by decide)
  · intro h i hi
    exact (hbs.bit_eq hi).trans (decide_eq_false (h i))

/-- `bitset_is_disjoint` holds of disjoint sets only. -/
theorem Padded.isDisjoint_iff (hbs : bs.Padded) (hother : other.Padded) :
    bitsetIsDisjoint bs other = true ↔ Disjoint bs.members other.members := by
  have hbound := bs.capacity_bounds.1
  have hbound' := other.capacity_bounds.1
  simp only [bitsetIsDisjoint]
  rw [all_words_zero fun w => bs.words w &&& other.words w, Finset.disjoint_left]
  simp only [BitVec.getLsbD_and]
  constructor
  · intro h i hmem hmem'
    obtain ⟨hi, hb⟩ := mem_members.mp hmem
    obtain ⟨hi', hb'⟩ := mem_members.mp hmem'
    have hz := h i (by split <;> omega)
    unfold bit at hb hb'
    rw [hb, hb'] at hz
    cases hz
  · intro h i hi
    have hlt : i < 64 * bs.wordCount ∧ i < 64 * other.wordCount := by
      split at hi <;> omega
    have hb := hbs.bit_eq hlt.1
    have hb' := hother.bit_eq hlt.2
    unfold bit at hb hb'
    rw [hb, hb']
    by_cases hmem : i ∈ bs.members
    · rw [decide_eq_false (h hmem), Bool.and_false]
    · rw [decide_eq_false hmem, Bool.false_and]

/-- The loop of `bitset_count` has added up the set bits of the words it has seen. -/
private theorem count_prefix (bs : Bitset) : ∀ n ≤ bs.wordCount,
    (List.range n).foldl (fun total w => usizeAdd total (bitsPopcount (bs.words w)).toNat) 0 =
      ((Finset.range (64 * n)).filter fun i => bs.bit i = true).card := by
  have hbound := bs.capacity_bounds.2.1
  have hle := bs.capacity_le
  intro n
  induction n with
  | zero => simp
  | succ n ih =>
    intro hn
    have hword : (bitsPopcount (bs.words n)).toNat =
        ∑ k ∈ Finset.range 64, if bs.bit (64 * n + k) = true then 1 else 0 := by
      rw [toNat_bitsPopcount, Finset.card_filter]
      apply Finset.sum_congr rfl
      intro k hk
      rw [bs.bit_offset n (Finset.mem_range.mp hk)]
    have hsum : ((Finset.range (64 * (n + 1))).filter fun i => bs.bit i = true).card =
        ((Finset.range (64 * n)).filter fun i => bs.bit i = true).card +
          (bitsPopcount (bs.words n)).toNat := by
      rw [hword, Finset.card_filter, Finset.card_filter, Nat.mul_succ, Finset.sum_range_add]
    have hcard := Finset.card_filter_le (Finset.range (64 * (n + 1))) fun i => bs.bit i = true
    rw [Finset.card_range, hsum] at hcard
    rw [List.range_succ, List.foldl_append, ih (by omega), List.foldl_cons, List.foldl_nil, hsum]
    apply usizeAdd_of_lt
    unfold usizeMax usizeSize at *
    omega

/-- `bitset_count` is the cardinality. -/
theorem Padded.count_eq (hbs : bs.Padded) : bitsetCount bs = bs.members.card := by
  have hbound := bs.capacity_bounds.1
  rw [bitsetCount, count_prefix bs _ le_rfl]
  congr 1
  ext i
  rw [Finset.mem_filter, Finset.mem_range]
  constructor
  · rintro ⟨hi, hb⟩
    rw [hbs.bit_eq hi] at hb
    exact of_decide_eq_true hb
  · intro hmem
    obtain ⟨hi, hb⟩ := mem_members.mp hmem
    exact ⟨by omega, hb⟩

/-- `bitset_is_full` holds of the set of all indices only. -/
theorem Padded.isFull_iff (hbs : bs.Padded) :
    bitsetIsFull bs = true ↔ bs.members = Finset.range bs.capacity := by
  rw [bitsetIsFull, beq_iff_eq, hbs.count_eq]
  constructor
  · intro h
    apply Finset.eq_of_subset_of_card_le bs.members_subset
    rw [Finset.card_range, h]
  · intro h
    rw [h, Finset.card_range]

/-- Complement twice restores every word. -/
theorem Padded.not_not (hbs : bs.Padded) : bitsetNot (bitsetNot bs) = bs := by
  have hc : (bitsetNot (bitsetNot bs)).capacity = bs.capacity :=
    capacity_clearPadding.trans capacity_clearPadding
  have hw : (bitsetNot bs).wordCount = bs.wordCount := wordCount_clearPadding
  have hwords : (bitsetNot (bitsetNot bs)).words = bs.words := by
    apply words_ext
    intro i
    rw [bit_not, hw, bit_not]
    by_cases hi : i < 64 * bs.wordCount
    · have hcap : (bitsetNot bs).capacity = bs.capacity := capacity_clearPadding
      rw [if_pos hi, if_pos hi, hcap]
      by_cases hlt : i < bs.capacity
      · simp [hlt]
      · rw [decide_eq_false hlt, Bool.and_false]
        exact (hbs i (Nat.le_of_not_lt hlt) hi).symm
    · rw [if_neg hi, if_neg hi]
  generalize bitsetNot (bitsetNot bs) = result at hc hwords
  obtain ⟨words, capacity, wordCount, hpos, hle, hcount⟩ := result
  obtain rfl : words = bs.words := hwords
  obtain rfl : capacity = bs.capacity := hc
  obtain rfl : wordCount = bs.wordCount := hcount.trans bs.wordCount_eq.symm
  rfl

/-- A set and its complement count up to the capacity. -/
theorem Padded.count_not (hbs : bs.Padded) :
    bitsetCount (bitsetNot bs) = bs.capacity - bitsetCount bs := by
  obtain ⟨hpad, hmem⟩ := hbs.not_members
  rw [hpad.count_eq, hbs.count_eq, hmem, Finset.card_sdiff_of_subset bs.members_subset,
    Finset.card_range]

end Bitset

variable {ι : Type*}

/-- What a call does to the sets of members. -/
def BitsetOp.effect (capacity : ι → Nat) (sets : ι → Finset Nat) : BitsetOp ι → Finset Nat
  | .set t i => insert i (sets t)
  | .clear t i => (sets t).erase i
  | .toggle t i => sets t ∆ {i}
  | .assign t i value => if value then insert i (sets t) else (sets t).erase i
  | .setAll t => Finset.range (capacity t)
  | .clearAll _ => ∅
  | .not t => Finset.range (capacity t) \ sets t
  | .and t other => sets t ∩ sets other
  | .or t other => sets t ∪ sets other
  | .xor t other => sets t ∆ sets other

/-- The index lies below the capacity, and an operand is not longer than the target. -/
def BitsetOp.Fits (capacity : ι → Nat) : BitsetOp ι → Prop
  | .set t i | .clear t i | .toggle t i | .assign t i _ => i < capacity t
  | .setAll _ | .clearAll _ | .not _ => True
  | .and t other | .or t other | .xor t other => capacity other ≤ capacity t

/-- Every call that fits has its set-algebra effect on the members of its target. -/
theorem BitsetOp.apply_members {sets : ι → Bitset} (hsets : AllPadded sets) {op : BitsetOp ι}
    (hop : op.Fits fun t => (sets t).capacity) : ∃ bs, op.apply sets = .ok bs ∧
      bs.capacity = (sets op.target).capacity ∧ bs.Padded ∧
      bs.members = op.effect (fun t => (sets t).capacity) fun t => (sets t).members := by
  cases op with
  | set t i => exact (hsets t).set_members hop
  | clear t i => exact (hsets t).clear_members hop
  | toggle t i => exact (hsets t).toggle_members hop
  | assign t i value =>
    cases value with
    | true => exact (hsets t).set_members hop
    | false => exact (hsets t).clear_members hop
  | setAll t => exact ⟨_, rfl, Bitset.capacity_clearPadding, (sets t).setAll_members⟩
  | clearAll t => exact ⟨_, rfl, rfl, (sets t).clearAll_members⟩
  | not t => exact ⟨_, rfl, Bitset.capacity_clearPadding, (hsets t).not_members⟩
  | and t other => exact ⟨_, rfl, rfl, (hsets t).and_members (hsets other)⟩
  | or t other => exact ⟨_, rfl, rfl, (hsets t).or_members (hsets other) hop⟩
  | xor t other =>
    exact ⟨_, rfl, Bitset.capacity_clearPadding, (hsets t).xor_members (hsets other) hop⟩

/-- Padded bitsets are sets of indices: every mutator has its set-algebra effect, and
the queries answer for the sets. -/
theorem bitset_set_algebra {sets : ι → Bitset} (hsets : AllPadded sets) :
    (∀ op : BitsetOp ι, (op.Fits fun t => (sets t).capacity) →
      ∃ bs, op.apply sets = .ok bs ∧ bs.capacity = (sets op.target).capacity ∧ bs.Padded ∧
        bs.members = op.effect (fun t => (sets t).capacity) fun t => (sets t).members) ∧
    (∀ t, (∀ i < (sets t).capacity,
        bitsetTest (sets t) i = .ok (decide (i ∈ (sets t).members))) ∧
      bitsetCount (sets t) = (sets t).members.card ∧
      (bitsetIsEmpty (sets t) = true ↔ (sets t).members = ∅) ∧
      (bitsetIsFull (sets t) = true ↔ (sets t).members = Finset.range (sets t).capacity) ∧
      bitsetNot (bitsetNot (sets t)) = sets t ∧
      bitsetCount (bitsetNot (sets t)) = (sets t).capacity - bitsetCount (sets t)) ∧
    ∀ t other, bitsetIsDisjoint (sets t) (sets other) = true ↔
      Disjoint (sets t).members (sets other).members := by
  refine ⟨fun op hop => BitsetOp.apply_members hsets hop, fun t => ?_, fun t other => ?_⟩
  · have ht := hsets t
    exact ⟨fun i hi => Bitset.test_eq hi, ht.count_eq, ht.isEmpty_iff, ht.isFull_iff, ht.not_not,
      ht.count_not⟩
  · exact (hsets t).isDisjoint_iff (hsets other)

/-- The last index of a 65-bit set and its complement. -/
theorem bitset_set_algebra_last_word : ∃ bs : Bitset, bs.capacity = 65 ∧
    bs.members = insert 64 ∅ ∧ bitsetCount bs = 1 ∧ bitsetCount (bitsetNot bs) = 64 := by
  have hfresh := Bitset.padded_init (rfl : bitsetInit (some fun _ => 0) 65 = .ok _)
  obtain ⟨bs, hbs, hcap, hpad, hmem⟩ := (bitset_set_algebra fun _ : Unit => hfresh).1
    (.set () 64) (show 64 < 65 by decide)
  have hzero := ((bitset_set_algebra fun _ : Unit => hfresh).2.1 ()).2.2.1.mp (by decide)
  obtain ⟨-, hcount, -, -, -, hnot⟩ := (bitset_set_algebra fun _ : Unit => hpad).2.1 ()
  have hmem' : bs.members = insert 64 ∅ := hmem.trans (congrArg (insert 64) hzero)
  rw [hmem', Finset.card_insert_of_notMem (Finset.notMem_empty _), Finset.card_empty] at hcount
  exact ⟨bs, hcap, hmem', hcount, by rw [hnot, hcount, hcap]; rfl⟩

end CanonC
