import CanonC.Toolkit.Cyclic
import Mathlib.Data.Finset.Card
import Mathlib.Data.Finset.Range

/-!
# Displaced elements on a ring

Each element on a ring of positions lies some steps ahead of its home, and the element
before a displaced one is displaced nearly as far. The elements that wait for a position
are those with their home behind it that lie there or farther ahead. One of them takes the
position and the others wait for the next one, so that the number of those waiting is
passed on around the ring. From a position that none has passed, the numbers of elements at
each home determine these numbers everywhere, and with them the occupied positions and the
displacement of what lies there.
-/

namespace Toolkit

open Cyclic

/-- A property that each position passes on to the next one holds all around the ring. -/
theorem Cyclic.forall_of_next {n i : Nat} {P : Nat → Prop} (hi : i < n) (hP : P i)
    (hnext : ∀ j < n, P j → P (next n j)) : ∀ j < n, P j := by
  intro j hj
  obtain ⟨d, hd⟩ : ∃ d, dist n i j = d := ⟨_, rfl⟩
  induction d generalizing i with
  | zero => rwa [(dist_eq_zero hi hj).mp hd]
  | succ d ih =>
    have hne : i ≠ j := by
      rintro rfl
      rw [dist_self hi] at hd
      cases hd
    have hstep := dist_from_next hi hj hne
    exact ih (next_lt hi) (hnext i hi hP) (by omega)

/-- The home of an element is determined by its position and its displacement. -/
theorem Cyclic.eq_of_dist_eq {n h i j : Nat} (hh : h < n) (hi : i < n) (hj : j < n)
    (heq : dist n h j = dist n i j) : h = i := by
  have hx := dist_cases hh hj
  have hy := dist_cases hi hj
  omega

/-- Elements at the occupied ones of `n` positions, each some steps ahead of its home, with
every displaced one behind an element displaced nearly as far. -/
structure Displaced (n : Nat) (occupied : Nat → Bool) (ahead : Nat → Nat) : Prop where
  /-- No element lies a full turn ahead. -/
  lt : ∀ i < n, occupied i = true → ahead i < n
  /-- What is before a displaced element is displaced nearly as far. -/
  order : ∀ i < n, occupied i = true → 0 < ahead i →
    occupied (prev n i) = true ∧ ahead i ≤ ahead (prev n i) + 1

/-- The positions whose elements have their home at `i`. -/
def withHome (n : Nat) (occupied : Nat → Bool) (ahead : Nat → Nat) (i : Nat) : Finset Nat :=
  (Finset.range n).filter fun j => occupied j = true ∧ ahead j = dist n i j

/-- The positions from `i` on whose elements are at least `d` steps ahead of home at `i`. -/
def waiting (n : Nat) (occupied : Nat → Bool) (ahead : Nat → Nat) (d i : Nat) : Finset Nat :=
  (Finset.range n).filter fun j => occupied j = true ∧ d + dist n i j ≤ ahead j

namespace Displaced

variable {n : Nat} {occupied occupied' : Nat → Bool} {ahead ahead' : Nat → Nat} {i j d : Nat}

/-- A slot waits when it is occupied and far enough ahead. -/
theorem mem_waiting : j ∈ waiting n occupied ahead d i ↔
    j < n ∧ occupied j = true ∧ d + dist n i j ≤ ahead j := by
  rw [waiting, Finset.mem_filter, Finset.mem_range]

/-- On the way back to its home an element passes occupied positions only, each displaced at
least as far as the element is ahead of its home there. -/
theorem on_way (h : Displaced n occupied ahead) (hi : i < n) (hj : j < n)
    (ho : occupied j = true) (hle : dist n i j ≤ ahead j) :
    occupied i = true ∧ ahead j ≤ ahead i + dist n i j := by
  obtain ⟨t, ht⟩ : ∃ t, dist n i j = t := ⟨_, rfl⟩
  rw [ht] at hle ⊢
  induction t generalizing i with
  | zero =>
    obtain rfl := (dist_eq_zero hi hj).mp ht
    exact ⟨ho, le_rfl⟩
  | succ t ih =>
    have hne : i ≠ j := by
      rintro rfl
      rw [dist_self hi] at ht
      cases ht
    have hstep := dist_from_next hi hj hne
    obtain ⟨hocc, hahead⟩ := ih (next_lt hi) (by omega) (by omega)
    obtain ⟨hprev, hnear⟩ := h.order _ (next_lt hi) hocc (by omega)
    rw [prev_next hi] at hprev hnear
    exact ⟨hprev, by omega⟩

/-- Elements wait for a position exactly when one of them lies there. -/
theorem waiting_nonempty_iff (h : Displaced n occupied ahead) (hi : i < n) :
    (waiting n occupied ahead d i).Nonempty ↔ occupied i = true ∧ d ≤ ahead i := by
  constructor
  · rintro ⟨j, hj⟩
    obtain ⟨hlt, ho, hle⟩ := mem_waiting.mp hj
    obtain ⟨hocc, hahead⟩ := h.on_way hi hlt ho (by omega)
    exact ⟨hocc, by omega⟩
  · rintro ⟨ho, hle⟩
    exact ⟨i, mem_waiting.mpr ⟨hi, ho, by rw [dist_self hi]; exact hle⟩⟩

/-- All that wait for a position but the element there wait for the next one. -/
theorem waiting_next (h : Displaced n occupied ahead) (hi : i < n) :
    waiting n occupied ahead (d + 1) (next n i) = (waiting n occupied ahead d i).erase i := by
  ext j
  rw [Finset.mem_erase, mem_waiting, mem_waiting]
  by_cases hji : j = i
  · subst hji
    refine iff_of_false ?_ fun hne => hne.1 rfl
    rintro ⟨-, ho, hle⟩
    have hlt := h.lt j hi ho
    have hn := next_cases hi
    have hd := dist_cases (next_lt hi) hi
    omega
  · refine ⟨fun ⟨hj, ho, hle⟩ => ⟨hji, hj, ho, ?_⟩, fun ⟨_, hj, ho, hle⟩ => ⟨hj, ho, ?_⟩⟩
    · have hstep := dist_from_next hi hj (Ne.symm hji)
      omega
    · have hstep := dist_from_next hi hj (Ne.symm hji)
      omega

/-- One fewer element waits for the next position. -/
theorem card_waiting_next (h : Displaced n occupied ahead) (hi : i < n) :
    (waiting n occupied ahead (d + 1) (next n i)).card =
      (waiting n occupied ahead d i).card - 1 := by
  rw [h.waiting_next hi]
  by_cases hne : (waiting n occupied ahead d i).Nonempty
  · obtain ⟨ho, hle⟩ := (h.waiting_nonempty_iff hi).mp hne
    exact Finset.card_erase_of_mem (mem_waiting.mpr ⟨hi, ho, by rw [dist_self hi]; exact hle⟩)
  · rw [Finset.not_nonempty_iff_eq_empty.mp hne]
    rfl

/-- The elements at home at a position join those that come from behind. -/
theorem card_waiting_zero (n : Nat) (occupied : Nat → Bool) (ahead : Nat → Nat) (i : Nat) :
    (waiting n occupied ahead 0 i).card =
      (waiting n occupied ahead 1 i).card + (withHome n occupied ahead i).card := by
  rw [← Finset.card_union_of_disjoint]
  · congr 1
    ext j
    rw [Finset.mem_union, mem_waiting, mem_waiting, withHome, Finset.mem_filter, Finset.mem_range]
    constructor
    · rintro ⟨hj, ho, hle⟩
      by_cases heq : ahead j = dist n i j
      · exact .inr ⟨hj, ho, heq⟩
      · exact .inl ⟨hj, ho, by omega⟩
    · rintro (⟨hj, ho, hle⟩ | ⟨hj, ho, heq⟩)
      · exact ⟨hj, ho, by omega⟩
      · exact ⟨hj, ho, by omega⟩
  · rw [waiting, withHome, Finset.disjoint_filter]
    rintro j - ⟨-, hle⟩ ⟨-, heq⟩
    omega

/-- Nobody comes from behind to a position that is free or holds an element at home. -/
theorem card_waiting_one_eq_zero (h : Displaced n occupied ahead) (hi : i < n)
    (hrest : occupied i = true → ahead i = 0) : (waiting n occupied ahead 1 i).card = 0 := by
  rw [Finset.card_eq_zero, ← Finset.not_nonempty_iff_eq_empty, h.waiting_nonempty_iff hi]
  rintro ⟨ho, hle⟩
  rw [hrest ho] at hle
  cases hle

section Unique

variable (h : Displaced n occupied ahead) (h' : Displaced n occupied' ahead')
  (hhome : ∀ i < n, (withHome n occupied ahead i).card = (withHome n occupied' ahead' i).card)
include h h' hhome

/-- The order of the numbers of elements that come from behind is passed on. -/
theorem waiting_one_le_next (hi : i < n)
    (hle : (waiting n occupied ahead 1 i).card ≤ (waiting n occupied' ahead' 1 i).card) :
    (waiting n occupied ahead 1 (next n i)).card ≤
      (waiting n occupied' ahead' 1 (next n i)).card := by
  rw [h.card_waiting_next hi, h'.card_waiting_next hi, card_waiting_zero n occupied,
    card_waiting_zero n occupied', hhome i hi]
  omega

/-- As many elements come from behind in both tables, if in each there is a position to which
none does: from there on around the ring, the numbers of that table are the smaller ones. -/
theorem waiting_one_eq (hi : i < n) (hrest : occupied i = true → ahead i = 0) (hj : j < n)
    (hrest' : occupied' j = true → ahead' j = 0) : ∀ k < n,
      (waiting n occupied ahead 1 k).card = (waiting n occupied' ahead' 1 k).card := by
  have hzero := h.card_waiting_one_eq_zero hi hrest
  have hzero' := h'.card_waiting_one_eq_zero hj hrest'
  have hup : ∀ k < n, (waiting n occupied ahead 1 k).card ≤
      (waiting n occupied' ahead' 1 k).card :=
    forall_of_next hi (by omega) fun k hk => waiting_one_le_next h h' hhome hk
  have hdown : ∀ k < n, (waiting n occupied' ahead' 1 k).card ≤
      (waiting n occupied ahead 1 k).card :=
    forall_of_next hj (by omega) fun k hk =>
      waiting_one_le_next h' h (fun k hk => (hhome k hk).symm) hk
  exact fun k hk => le_antisymm (hup k hk) (hdown k hk)

/-- As many elements wait at every displacement. -/
theorem card_waiting_eq (hi : i < n) (hrest : occupied i = true → ahead i = 0) (hj : j < n)
    (hrest' : occupied' j = true → ahead' j = 0) (d : Nat) : ∀ k < n,
      (waiting n occupied ahead d k).card = (waiting n occupied' ahead' d k).card := by
  induction d with
  | zero =>
    intro k hk
    rw [card_waiting_zero n occupied, card_waiting_zero n occupied', hhome k hk,
      waiting_one_eq h h' hhome hi hrest hj hrest' k hk]
  | succ d ih =>
    intro k hk
    have hprev := prev_lt hk
    have hw := h.card_waiting_next (d := d) hprev
    have hw' := h'.card_waiting_next (d := d) hprev
    rw [next_prev hk] at hw hw'
    rw [hw, hw', ih _ hprev]

/-- Tables with as many elements at each home, each with a position that none has passed,
occupy the same positions and displace what lies there equally far. -/
theorem unique (hi : i < n) (hrest : occupied i = true → ahead i = 0) (hj : j < n)
    (hrest' : occupied' j = true → ahead' j = 0) {k : Nat} (hk : k < n) :
    occupied k = occupied' k ∧ (occupied k = true → ahead k = ahead' k) := by
  have hiff (d : Nat) : (occupied k = true ∧ d ≤ ahead k) ↔
      (occupied' k = true ∧ d ≤ ahead' k) := by
    rw [← h.waiting_nonempty_iff hk, ← h'.waiting_nonempty_iff hk, ← Finset.card_pos,
      ← Finset.card_pos, card_waiting_eq h h' hhome hi hrest hj hrest' d k hk]
  have hocc : occupied k = true ↔ occupied' k = true := by
    simpa using hiff 0
  refine ⟨Bool.eq_iff_iff.mpr hocc, fun ho => le_antisymm ?_ ?_⟩
  · exact ((hiff (ahead k)).mp ⟨ho, le_rfl⟩).2
  · exact ((hiff (ahead' k)).mpr ⟨hocc.mp ho, le_rfl⟩).2

end Unique

end Displaced

end Toolkit
