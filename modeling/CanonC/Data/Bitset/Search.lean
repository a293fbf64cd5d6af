import CanonC.Data.Bitset.Sets

/-!
# Searching for members

A scan over the words from a position on finds the least member not below it, and the
scan down from the last word the greatest member. The loop over all members goes from
each one to the least member above it, so that it visits every member once, in order.
-/

namespace CanonC

namespace Bitset

variable {bs : Bitset} {lo hi r w : Nat}

/-- The least member from `lo` on, or the sentinel when there is none. -/
def LeastFrom (bs : Bitset) (lo r : Nat) : Prop :=
  (r = bitsetNpos ∧ ∀ i ∈ bs.members, i < lo) ∨
    (r ∈ bs.members ∧ lo ≤ r ∧ ∀ i ∈ bs.members, lo ≤ i → r ≤ i)

/-- The greatest member below `hi`, or the sentinel when there is none. -/
def GreatestBelow (bs : Bitset) (hi r : Nat) : Prop :=
  (r = bitsetNpos ∧ ∀ i ∈ bs.members, hi ≤ i) ∨
    (r ∈ bs.members ∧ r < hi ∧ ∀ i ∈ bs.members, i < hi → i ≤ r)

/-- No member is `BITSET_NPOS`. -/
theorem lt_npos_of_mem (h : r ∈ bs.members) : r < bitsetNpos := by
  have hle := bs.capacity_le
  have hlt := (mem_members.mp h).1
  unfold bitsetNpos usizeMax usizeSize at *
  omega

/-- A set bit of the word array of a padded bitset is a member. -/
theorem Padded.mem_of_bit (hbs : bs.Padded) {i : Nat} (hi : i < 64 * bs.wordCount)
    (hbit : bs.bit i = true) : i ∈ bs.members :=
  of_decide_eq_true ((hbs.bit_eq hi).symm.trans hbit)

/-- The positions of the word array are `usize` values. -/
theorem positions_lt (bs : Bitset) : 64 * bs.wordCount < usizeSize := by
  have hbound := bs.capacity_bounds.2.1
  have hle := bs.capacity_le
  unfold usizeMax usizeSize at *
  omega

/-- The code computes a position of the word array without overflow. -/
theorem position_eq (bs : Bitset) {k : Nat} (h : 64 * w + k < 64 * bs.wordCount) :
    usizeAdd (usizeMul w 64) k = 64 * w + k := by
  have hlt := bs.positions_lt
  rw [usizeMul_of_lt (by omega), usizeAdd_of_lt (by omega), Nat.mul_comm]

/-- None is found exactly when no member is left. -/
theorem LeastFrom.eq_npos_iff (h : LeastFrom bs lo r) :
    r = bitsetNpos ↔ ∀ i ∈ bs.members, i < lo := by
  rcases h with ⟨hnpos, hnone⟩ | ⟨hmem, hlo, -⟩
  · exact iff_of_true hnpos hnone
  · exact iff_of_false (lt_npos_of_mem hmem).ne fun hnone =>
      absurd (hnone r hmem) (Nat.not_lt_of_le hlo)

/-- The search downwards finds nothing when no member is below its start. -/
theorem GreatestBelow.eq_npos_iff (h : GreatestBelow bs hi r) :
    r = bitsetNpos ↔ ∀ i ∈ bs.members, hi ≤ i := by
  rcases h with ⟨hnpos, hnone⟩ | ⟨hmem, hlt, -⟩
  · exact iff_of_true hnpos hnone
  · exact iff_of_false (lt_npos_of_mem hmem).ne fun hnone =>
      absurd (hnone r hmem) (Nat.not_le_of_lt hlt)

/-- The least member stays the least from an earlier position with no member in between. -/
theorem LeastFrom.extend (h : LeastFrom bs hi r) (hle : lo ≤ hi)
    (hgap : ∀ i ∈ bs.members, lo ≤ i → hi ≤ i) : LeastFrom bs lo r := by
  rcases h with ⟨hnpos, hnone⟩ | ⟨hmem, hfrom, hleast⟩
  · refine .inl ⟨hnpos, fun i hi => Nat.lt_of_not_le fun hlo => ?_⟩
    exact absurd (hnone i hi) (Nat.not_lt_of_le (hgap i hi hlo))
  · exact .inr ⟨hmem, Nat.le_trans hle hfrom, fun i hi hlo => hleast i hi (hgap i hi hlo)⟩

/-- A word without its first bits shows the members from there to its end. -/
theorem bit_shifted (bs : Bitset) (w s : Nat) {i : Nat} (hi : 64 * w + s ≤ i)
    (hlt : i < 64 * (w + 1)) : bs.bit i = (bs.words w >>> s).getLsbD (i - (64 * w + s)) := by
  rw [BitVec.getLsbD_ushiftRight, ← bit_offset bs w (by omega)]
  congr 1
  omega

/-- The lowest set bit of a word without its first bits is the least member from there on. -/
theorem Padded.least_ctz (hbs : bs.Padded) (hw : w < bs.wordCount) {s : Nat}
    (hne : bs.words w >>> s ≠ 0) :
    64 * w + s + bitsCtz (bs.words w >>> s) ∈ bs.members ∧
      ∀ i ∈ bs.members, 64 * w + s ≤ i → 64 * w + s + bitsCtz (bs.words w >>> s) ≤ i := by
  obtain ⟨hset, hbelow⟩ := bitsCtz_spec hne
  have hlt : s + bitsCtz (bs.words w >>> s) < 64 := by
    rw [BitVec.getLsbD_ushiftRight] at hset
    exact BitVec.lt_of_getLsbD hset
  refine ⟨hbs.mem_of_bit (by omega) ?_, fun i hmem hi => ?_⟩
  · rw [bit_shifted bs w s (Nat.le_add_right _ _) (by omega), Nat.add_sub_cancel_left, hset]
  · by_contra hgt
    have hbit := bit_shifted bs w s hi (by omega)
    rw [hbelow _ (by omega), (mem_members.mp hmem).2] at hbit
    cases hbit

/-- A word that is zero without its first bits has no member from there on. -/
theorem LeastFrom.of_zero {s : Nat} (h : LeastFrom bs (64 * (w + 1)) r) (hs : s < 64)
    (hzero : bs.words w >>> s = 0) : LeastFrom bs (64 * w + s) r := by
  refine h.extend (by omega) fun i hmem hi => Nat.le_of_not_lt fun hlt => ?_
  have hbit := bit_shifted bs w s hi hlt
  rw [hzero, (mem_members.mp hmem).2] at hbit
  cases hbit.trans BitVec.getLsbD_zero

/-- The scan up finds the least member from its first word on. -/
theorem Padded.scanUp_spec (hbs : bs.Padded) (left w : Nat) (hleft : w + left = bs.wordCount) :
    LeastFrom bs (64 * w) (bitsetScanUp bs left w) := by
  have hbound := bs.capacity_bounds.1
  have hpos := bs.positions_lt
  induction left generalizing w with
  | zero =>
    refine .inl ⟨rfl, fun i hmem => ?_⟩
    have hlt := (mem_members.mp hmem).1
    omega
  | succ left ih =>
    have hshift : bs.words w >>> 0 = bs.words w := BitVec.ushiftRight_zero _
    have hnext : usizeAdd w 1 = w + 1 := usizeAdd_of_lt (by omega)
    rw [bitsetScanUp, hnext]
    split
    · rename_i hne
      rw [bne_iff_ne, ← hshift] at hne
      obtain ⟨hmem, hleast⟩ := hbs.least_ctz (by omega) hne
      rw [hshift, Nat.add_zero] at hmem hleast
      have hin := (mem_members.mp hmem).1
      rw [bs.position_eq (by omega)]
      exact .inr ⟨(if_pos hin).symm ▸ hmem, by rw [if_pos hin]; omega, (if_pos hin).symm ▸ hleast⟩
    · rename_i hzero
      rw [bne_iff_ne, not_ne_iff, ← hshift] at hzero
      exact (ih (w + 1) (by omega)).of_zero (by decide) hzero

/-- `bitset_find_first` finds the least member. -/
theorem Padded.findFirst_spec (hbs : bs.Padded) : LeastFrom bs 0 (bitsetFindFirst bs) :=
  hbs.scanUp_spec bs.wordCount 0 (Nat.zero_add _)

/-- `bitset_find_next` finds the least member above any index. -/
theorem Padded.findNext_spec (hbs : bs.Padded) (prev : Nat) :
    LeastFrom bs (prev + 1) (bitsetFindNext bs prev) := by
  have hbound := bs.capacity_bounds.1
  have hpos := bs.positions_lt
  have hnone (h : bs.capacity ≤ prev + 1) : LeastFrom bs (prev + 1) bitsetNpos :=
    .inl ⟨rfl, fun i hmem => Nat.lt_of_lt_of_le (mem_members.mp hmem).1 h⟩
  rw [bitsetFindNext]
  by_cases hprev : prev ≥ bs.capacity
  · rw [if_pos hprev]
    exact hnone (by omega)
  rw [if_neg hprev, usizeAdd_of_lt (show prev + 1 < usizeSize by omega)]
  by_cases hstart : prev + 1 ≥ bs.capacity
  · dsimp only
    rw [if_pos hstart]
    exact hnone hstart
  -- The search starts at bit `(prev + 1) % 64` of the word of `prev + 1`.
  have hsplit : 64 * ((prev + 1) / 64) + (prev + 1) % 64 = prev + 1 := Nat.div_add_mod _ _
  have hbit : (prev + 1) % 64 < 64 := mod_word_lt _
  have hw : (prev + 1) / 64 < bs.wordCount := by omega
  have hnext : usizeAdd ((prev + 1) / 64) 1 = (prev + 1) / 64 + 1 := usizeAdd_of_lt (by omega)
  dsimp only [bitsetWordOf]
  rw [if_neg hstart, hnext]
  split
  · rename_i hne
    rw [bne_iff_ne] at hne
    obtain ⟨hmem, hleast⟩ := hbs.least_ctz hw hne
    have hin := (mem_members.mp hmem).1
    rw [bs.position_eq (by omega), usizeAdd_of_lt (by omega), if_pos hin]
    exact .inr ⟨hmem, by omega, fun i hi hlo => hleast i hi (hsplit.le.trans hlo)⟩
  · rename_i hzero
    rw [bne_iff_ne, not_ne_iff] at hzero
    have hscan := (hbs.scanUp_spec _ _ (Nat.add_sub_cancel' hw)).of_zero hbit hzero
    rwa [hsplit] at hscan

/-- The highest set bit of a word is the greatest member up to its end. -/
theorem Padded.greatest_clz (hbs : bs.Padded) (hw : w < bs.wordCount) (hne : bs.words w ≠ 0) :
    bitsClz (bs.words w) < 64 ∧ 64 * w + (63 - bitsClz (bs.words w)) ∈ bs.members ∧
      ∀ i ∈ bs.members, i < 64 * (w + 1) → i ≤ 64 * w + (63 - bitsClz (bs.words w)) := by
  obtain ⟨hset, habove⟩ := bitsClz_spec hne
  rw [BitVec.getMsbD_eq_getLsbD, Bool.and_eq_true, decide_eq_true_iff] at hset
  refine ⟨hset.1, hbs.mem_of_bit (by omega) ?_, fun i hmem hi => ?_⟩
  · rw [bit_offset bs w (by omega)]
    exact hset.2
  · by_contra hgt
    have hzero := habove (63 - (i - 64 * w)) (by omega)
    rw [BitVec.getMsbD_eq_getLsbD, decide_eq_true (by omega), Bool.true_and,
      show 64 - 1 - (63 - (i - 64 * w)) = i - 64 * w by omega, ← bit_offset bs w (by omega),
      Nat.add_sub_cancel' (by omega), (mem_members.mp hmem).2] at hzero
    cases hzero

/-- The scan down finds the greatest member below its first word. -/
theorem Padded.scanDown_spec (hbs : bs.Padded) (w : Nat) (hw : w ≤ bs.wordCount) :
    GreatestBelow bs (64 * w) (bitsetScanDown bs w) := by
  induction w with
  | zero => exact .inl ⟨rfl, fun i _ => by omega⟩
  | succ w ih =>
    rw [bitsetScanDown]
    split
    · rename_i hne
      rw [bne_iff_ne] at hne
      obtain ⟨hclz, hmem, hgreatest⟩ := hbs.greatest_clz hw hne
      have hin := (mem_members.mp hmem).1
      have hlast : usizeSub (usizeSub 64 1) (bitsClz (bs.words w)) =
          63 - bitsClz (bs.words w) := by
        rw [show usizeSub 64 1 = 63 from rfl, usizeSub_of_le (by omega) (by decide)]
      rw [hlast, bs.position_eq (by omega)]
      dsimp only
      rw [if_pos hin]
      exact .inr ⟨hmem, by omega, hgreatest⟩
    · rename_i hzero
      rw [bne_iff_ne, not_ne_iff] at hzero
      have hgap : ∀ i ∈ bs.members, i < 64 * (w + 1) → i < 64 * w := by
        intro i hmem hi
        by_contra hge
        have hbit := bit_offset bs w (k := i - 64 * w) (by omega)
        rw [Nat.add_sub_cancel' (by omega), hzero, (mem_members.mp hmem).2] at hbit
        cases hbit.trans BitVec.getLsbD_zero
      rcases ih (by omega) with ⟨hnpos, hnone⟩ | ⟨hmem, hlt, hgreatest⟩
      · refine .inl ⟨hnpos, fun i hmem => Nat.le_of_not_lt fun hi => ?_⟩
        exact absurd (hgap i hmem hi) (Nat.not_lt_of_le (hnone i hmem))
      · exact .inr ⟨hmem, by omega, fun i hi hlt => hgreatest i hi (hgap i hi hlt)⟩

/-- `bitset_find_last` finds the greatest member. -/
theorem Padded.findLast_spec (hbs : bs.Padded) :
    GreatestBelow bs (64 * bs.wordCount) (bitsetFindLast bs) :=
  hbs.scanDown_spec bs.wordCount le_rfl

/-- The loop ends at the sentinel. -/
theorem forEachFrom_npos (bs : Bitset) {rounds : Nat} (h : 0 < rounds) :
    bitsetForEachFrom bs rounds bitsetNpos = some [] := by
  obtain ⟨k, rfl⟩ := Nat.exists_eq_add_of_lt h
  simp [bitsetForEachFrom]

/-- A round visits an index other than the sentinel and goes on with the next one. -/
theorem forEachFrom_succ (rounds : Nat) {idx : Nat} (h : idx ≠ bitsetNpos) :
    bitsetForEachFrom bs (rounds + 1) idx =
      (bitsetForEachFrom bs rounds (bitsetFindNext bs idx)).map fun visited => idx :: visited := by
  rw [bitsetForEachFrom, if_pos (bne_iff_ne.mpr h)]

/-- From the least member of those not below `lo` the loop visits all of them in order,
within any number of rounds that exceeds theirs. -/
theorem Padded.forEachFrom_spec (hbs : bs.Padded) (n : Nat) (h : LeastFrom bs lo r)
    (hcard : (bs.members.filter (lo ≤ ·)).card ≤ n) :
    ∃ visited, (∀ rounds, n < rounds → bitsetForEachFrom bs rounds r = some visited) ∧
      visited.Pairwise (· < ·) ∧ ∀ i, i ∈ visited ↔ i ∈ bs.members ∧ lo ≤ i := by
  induction n generalizing lo r with
  | zero =>
    rcases h with ⟨rfl, hnone⟩ | ⟨hmem, hlo, -⟩
    · refine ⟨[], fun rounds hr => forEachFrom_npos bs hr, .nil, fun i => ?_⟩
      exact iff_of_false List.not_mem_nil fun hi => absurd (hnone i hi.1) (Nat.not_lt_of_le hi.2)
    · have hin : r ∈ bs.members.filter (lo ≤ ·) := Finset.mem_filter.mpr ⟨hmem, hlo⟩
      rw [Finset.card_eq_zero.mp (Nat.le_zero.mp hcard)] at hin
      exact absurd hin (Finset.notMem_empty r)
  | succ n ih =>
    rcases h with ⟨rfl, hnone⟩ | ⟨hmem, hlo, hleast⟩
    · refine ⟨[], fun rounds hr => forEachFrom_npos bs (Nat.zero_lt_of_lt hr), .nil, fun i => ?_⟩
      exact iff_of_false List.not_mem_nil fun hi => absurd (hnone i hi.1) (Nat.not_lt_of_le hi.2)
    · have hsub : bs.members.filter (r + 1 ≤ ·) ⊂ bs.members.filter (lo ≤ ·) := by
        refine (Finset.ssubset_iff_of_subset fun i hi => ?_).mpr
          ⟨r, Finset.mem_filter.mpr ⟨hmem, hlo⟩, fun hr => ?_⟩
        · obtain ⟨hi, hle⟩ := Finset.mem_filter.mp hi
          exact Finset.mem_filter.mpr ⟨hi, by omega⟩
        · exact Nat.not_succ_le_self r (Finset.mem_filter.mp hr).2
      obtain ⟨visited, hrun, hsorted, hvisited⟩ := ih (hbs.findNext_spec r)
        (Nat.le_of_lt_succ (Nat.lt_of_lt_of_le (Finset.card_lt_card hsub) hcard))
      refine ⟨r :: visited, fun rounds hr => ?_, ?_, fun i => ?_⟩
      · obtain ⟨k, rfl⟩ : ∃ k, rounds = k + 1 := ⟨rounds - 1, by omega⟩
        rw [forEachFrom_succ k (lt_npos_of_mem hmem).ne, hrun k (by omega), Option.map_some]
      · exact List.pairwise_cons.mpr ⟨fun i hi => ((hvisited i).mp hi).2, hsorted⟩
      · rw [List.mem_cons, hvisited]
        constructor
        · rintro (rfl | ⟨hi, hle⟩)
          · exact ⟨hmem, hlo⟩
          · exact ⟨hi, by omega⟩
        · rintro ⟨hi, hle⟩
          rcases Nat.lt_or_eq_of_le (hleast i hi hle) with hlt | rfl
          · exact .inr ⟨hi, hlt⟩
          · exact .inl rfl

end Bitset

/-- On every padded bitset the loop over all members ends and visits each member once, in
ascending order. The first and the last member found are the least and the greatest, and
none is found exactly in the empty set. From any index, past the capacity too, the next
member found is the least one above it. -/
theorem bitset_search_members {bs : Bitset} (hbs : bs.Padded) :
    (∃ visited, (∀ rounds, bs.members.card < rounds → bitsetForEach bs rounds = some visited) ∧
      visited.Pairwise (· < ·) ∧ ∀ i, i ∈ visited ↔ i ∈ bs.members) ∧
    (bitsetFindFirst bs = bitsetNpos ↔ bs.members = ∅) ∧
    (∀ h : bs.members.Nonempty, bitsetFindFirst bs = bs.members.min' h) ∧
    (bitsetFindLast bs = bitsetNpos ↔ bs.members = ∅) ∧
    (∀ h : bs.members.Nonempty, bitsetFindLast bs = bs.members.max' h) ∧
    ∀ prev,
      (bitsetFindNext bs prev = bitsetNpos ↔ ∀ i ∈ bs.members, i ≤ prev) ∧
      (bitsetFindNext bs prev ≠ bitsetNpos → bitsetFindNext bs prev ∈ bs.members ∧
        prev < bitsetFindNext bs prev ∧
        ∀ i ∈ bs.members, prev < i → bitsetFindNext bs prev ≤ i) := by
  have hbound := bs.capacity_bounds.1
  have hall : ∀ i ∈ bs.members, i < 64 * bs.wordCount := fun i hi =>
    Nat.lt_of_lt_of_le (Bitset.mem_members.mp hi).1 hbound
  refine ⟨?_, ?_, fun h => ?_, ?_, fun h => ?_, fun prev => ⟨?_, fun hne => ?_⟩⟩
  · obtain ⟨visited, hrun, hsorted, hvisited⟩ := hbs.forEachFrom_spec bs.members.card
      hbs.findFirst_spec (Finset.card_filter_le _ _)
    exact ⟨visited, hrun, hsorted, fun i =>
      (hvisited i).trans (and_iff_left (Nat.zero_le i))⟩
  · rw [hbs.findFirst_spec.eq_npos_iff, Finset.eq_empty_iff_forall_notMem]
    exact ⟨fun hnone i hi => absurd (hnone i hi) (Nat.not_lt_zero i), fun hempty i hi =>
      absurd hi (hempty i)⟩
  · obtain ⟨i, hi⟩ := h
    rcases hbs.findFirst_spec with ⟨-, hnone⟩ | ⟨hmem, -, hleast⟩
    · exact absurd (hnone i hi) (Nat.not_lt_zero i)
    · exact le_antisymm (Finset.le_min' _ _ _ fun j hj => hleast j hj (Nat.zero_le j))
        (Finset.min'_le _ _ hmem)
  · rw [hbs.findLast_spec.eq_npos_iff, Finset.eq_empty_iff_forall_notMem]
    exact ⟨fun hnone i hi => absurd (hnone i hi) (Nat.not_le_of_lt (hall i hi)),
      fun hempty i hi => absurd hi (hempty i)⟩
  · obtain ⟨i, hi⟩ := h
    rcases hbs.findLast_spec with ⟨-, hnone⟩ | ⟨hmem, -, hgreatest⟩
    · exact absurd (hnone i hi) (Nat.not_le_of_lt (hall i hi))
    · exact le_antisymm (Finset.le_max' _ _ hmem)
        (Finset.max'_le _ _ _ fun j hj => hgreatest j hj (hall j hj))
  · rw [(hbs.findNext_spec prev).eq_npos_iff]
    exact forall₂_congr fun i _ => Nat.lt_succ_iff
  · rcases hbs.findNext_spec prev with ⟨hnpos, -⟩ | hfound
    · exact absurd hnpos hne
    · exact hfound

/-- The member at the last index, in a last word of two bits. -/
theorem bitset_search_members_last : ∃ fresh bs, bitsetInit (some fun _ => 9) 130 = .ok fresh ∧
    bitsetSet fresh 129 = .ok bs ∧
    (bitsetFindNext bs 128 = bitsetNpos ↔ ∀ i ∈ bs.members, i ≤ 128) ∧
    ∀ h : bs.members.Nonempty, bitsetFindLast bs = bs.members.max' h := by
  have hsearch {fresh bs : Bitset} (hinit : bitsetInit (some fun _ => 9) 130 = .ok fresh)
      (hset : bitsetSet fresh 129 = .ok bs) :=
    bitset_search_members ((Bitset.padded_init hinit).set hset)
  refine ⟨⟨_, 130, _, by decide, by decide, rfl⟩, _, rfl, rfl, ?_⟩
  obtain ⟨-, -, -, -, hlast, hnext⟩ := hsearch rfl rfl
  exact ⟨(hnext 128).1, hlast⟩

end CanonC
