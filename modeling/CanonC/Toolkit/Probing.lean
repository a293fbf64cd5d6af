import CanonC.Toolkit.Cyclic
import Mathlib.Data.Finset.Basic
import Mathlib.Data.Finset.Union
import Mathlib.Data.Finset.Option
import Mathlib.Algebra.BigOperators.Group.Finset.Piecewise
import Mathlib.Data.Nat.Find
import Mathlib.Logic.Function.Basic

/-!
# Linear probing

A table of slots on a ring, each empty or holding a key. A search starts at the home of
its key and stops at the first slot that is empty or holds it. As long as no empty slot
lies between the home of a key and its slot, the search finds every key in the table, and
a key that is put where its search stops is found again.
-/

namespace Toolkit.Probing

open Cyclic

variable {κ : Type*} {n : Nat} {home : κ → Nat} {slot slot' : Nat → Option κ} {k : κ}

/-- No key lies in two slots, and none behind an empty slot on the way from its home. -/
structure Placed (n : Nat) (home : κ → Nat) (slot : Nat → Option κ) : Prop where
  /-- A key has one slot. -/
  distinct : ∀ {i j k}, i < n → j < n → slot i = some k → slot j = some k → i = j
  /-- The slots between the home of a key and its slot are occupied. -/
  reach : ∀ {i k}, i < n → slot i = some k → ∀ d < dist n (home k) i,
    slot ((home k + d) % n) ≠ none

/-- An empty table. -/
theorem Placed.empty (h : ∀ i < n, slot i = none) : Placed n home slot := by
  constructor
  · intro i j k hi _ hk
    rw [h i hi] at hk
    cases hk
  · intro i k hi hk
    rw [h i hi] at hk
    cases hk

/-- Only the slots of the ring matter. -/
theorem Placed.congr (h : Placed n home slot) (he : ∀ i < n, slot' i = slot i) :
    Placed n home slot' := by
  constructor
  · intro i j k hi hj hik hjk
    rw [he i hi] at hik
    rw [he j hj] at hjk
    exact h.distinct hi hj hik hjk
  · intro i k hi hik d hd
    rw [he i hi] at hik
    rw [he _ (Nat.mod_lt _ (Nat.zero_lt_of_lt hi))]
    exact h.reach hi hik d hd

/-- A missing key may be put where its search stops. -/
theorem Placed.insert (h : Placed n home slot) (hk : ∀ i < n, slot i ≠ some k) {j : Nat}
    (hreach : ∀ d < dist n (home k) j, slot ((home k + d) % n) ≠ none) :
    Placed n home (Function.update slot j (some k)) := by
  have hkeep : ∀ i, slot i ≠ none → Function.update slot j (some k) i ≠ none := by
    intro i hi
    by_cases hij : i = j
    · rw [hij, Function.update_self]
      exact Option.some_ne_none k
    · rwa [Function.update_of_ne hij]
  constructor
  · intro i i' k' hi hi' hik hik'
    by_cases hij : i = j <;> by_cases hij' : i' = j
    · rw [hij, hij']
    · rw [hij, Function.update_self, Option.some.injEq] at hik
      rw [Function.update_of_ne hij', ← hik] at hik'
      exact absurd hik' (hk i' hi')
    · rw [hij', Function.update_self, Option.some.injEq] at hik'
      rw [Function.update_of_ne hij, ← hik'] at hik
      exact absurd hik (hk i hi)
    · rw [Function.update_of_ne hij] at hik
      rw [Function.update_of_ne hij'] at hik'
      exact h.distinct hi hi' hik hik'
  · intro i k' hi hik d hd
    by_cases hij : i = j
    · rw [hij, Function.update_self, Option.some.injEq] at hik
      rw [← hik] at hd ⊢
      rw [hij] at hd
      exact hkeep _ (hreach d hd)
    · rw [Function.update_of_ne hij] at hik
      exact hkeep _ (h.reach hi hik d hd)

section Search

variable [DecidableEq κ]

/-- The search for a key stops at this slot. -/
def Stops (slot : Nat → Option κ) (k : κ) (i : Nat) : Prop := slot i = none ∨ slot i = some k

instance (slot : Nat → Option κ) (k : κ) (i : Nat) : Decidable (Stops slot k i) :=
  inferInstanceAs (Decidable (_ ∨ _))

/-- The first of `fuel` slots from `i` on at which the search stops. -/
def seek (n : Nat) (slot : Nat → Option κ) (k : κ) : Nat → Nat → Option Nat
  | 0, _ => none
  | fuel + 1, i => if Stops slot k i then some i else seek n slot k fuel (next n i)

/-- The search walks over the slots at which it does not stop. -/
theorem seek_eq_some {fuel i d : Nat} (hi : i < n) (hd : d < fuel)
    (hpass : ∀ e < d, ¬ Stops slot k ((i + e) % n)) (hstop : Stops slot k ((i + d) % n)) :
    seek n slot k fuel i = some ((i + d) % n) := by
  induction fuel generalizing i d with
  | zero => omega
  | succ fuel ih =>
    have hself : (i + 0) % n = i := Nat.mod_eq_of_lt hi
    cases d with
    | zero =>
      rw [hself] at hstop ⊢
      rw [seek, if_pos hstop]
    | succ d =>
      have hzero := hpass 0 (Nat.succ_pos d)
      rw [hself] at hzero
      have hshift : ∀ e, (next n i + e) % n = (i + (e + 1)) % n := fun e => by
        rw [next, Nat.mod_add_mod, Nat.add_assoc, Nat.add_comm 1 e]
      rw [seek, if_neg hzero, ← hshift d]
      rw [← hshift d] at hstop
      refine ih (next_lt hi) (by omega) (fun e he => ?_) hstop
      rw [hshift e]
      exact hpass (e + 1) (by omega)

/-- The search finds nothing in slots at which it does not stop. -/
theorem seek_eq_none {fuel i : Nat} (hi : i < n) (hpass : ∀ j < n, ¬ Stops slot k j) :
    seek n slot k fuel i = none := by
  induction fuel generalizing i with
  | zero => rfl
  | succ fuel ih => rw [seek, if_neg (hpass i hi), ih (next_lt hi)]

/-- The search finds a key that is in the table. -/
theorem Placed.seek_mem (h : Placed n home slot) (hhome : home k < n) {i : Nat} (hi : i < n)
    (hk : slot i = some k) : seek n slot k n (home k) = some i := by
  have hd : dist n (home k) i < n := dist_lt hhome
  have hstep := add_dist hhome hi
  have hstop : Stops slot k ((home k + dist n (home k) i) % n) := by
    rw [hstep]
    exact Or.inr hk
  rw [seek_eq_some hhome hd (fun e he => ?_) hstop, hstep]
  rintro (hnone | hsome)
  · exact h.reach hi hk e he hnone
  · have hself := h.distinct (Nat.mod_lt _ (Nat.zero_lt_of_lt hi)) hi hsome hk
    have hdist := dist_add hhome (he.trans hd)
    rw [hself] at hdist
    omega

/-- The search for a missing key stops at an empty slot that it has reached over
occupied ones, or walks through a full table. -/
theorem seek_notMem (hhome : home k < n) (hk : ∀ i < n, slot i ≠ some k) :
    (∃ j < n, seek n slot k n (home k) = some j ∧ slot j = none ∧
      ∀ d < dist n (home k) j, slot ((home k + d) % n) ≠ none) ∨
    (seek n slot k n (home k) = none ∧ ∀ i < n, slot i ≠ none) := by
  by_cases hex : ∃ d, d < n ∧ slot ((home k + d) % n) = none
  · obtain ⟨hd, hnone⟩ := Nat.find_spec hex
    have hlt : ∀ d, (home k + d) % n < n := fun d => Nat.mod_lt _ (Nat.zero_lt_of_lt hhome)
    have hpass : ∀ e < Nat.find hex, slot ((home k + e) % n) ≠ none := fun e he hno =>
      Nat.find_min hex he ⟨he.trans hd, hno⟩
    refine Or.inl ⟨_, hlt _, seek_eq_some hhome hd (fun e he => ?_) (Or.inl hnone), hnone, ?_⟩
    · rintro (hno | hsome)
      · exact hpass e he hno
      · exact hk _ (hlt e) hsome
    · rw [dist_add hhome hd]
      exact hpass
  · have hfull : ∀ i < n, slot i ≠ none := fun i hi hno =>
      hex ⟨dist n (home k) i, dist_lt hhome, by rw [add_dist hhome hi]; exact hno⟩
    refine Or.inr ⟨seek_eq_none hhome fun j hj => ?_, hfull⟩
    rintro (hno | hsome)
    · exact hfull j hj hno
    · exact hk j hj hsome

end Search

section Keys

variable [DecidableEq κ]

/-- The keys in the table. -/
def keys (n : Nat) (slot : Nat → Option κ) : Finset κ :=
  (Finset.range n).biUnion fun i => (slot i).toFinset

/-- The keys are those of the slots. -/
theorem mem_keys : k ∈ keys n slot ↔ ∃ i < n, slot i = some k := by
  simp [keys]

/-- The keys depend on the slots only. -/
theorem keys_congr (h : ∀ i < n, slot' i = slot i) : keys n slot' = keys n slot := by
  ext k
  rw [mem_keys, mem_keys]
  exact exists_congr fun i => and_congr_right fun hi => by rw [h i hi]

/-- Filling an empty slot adds its key. -/
theorem keys_update {j : Nat} (hj : j < n) (hnone : slot j = none) :
    keys n (Function.update slot j (some k)) = insert k (keys n slot) := by
  ext k'
  rw [mem_keys, Finset.mem_insert, mem_keys]
  constructor
  · rintro ⟨i, hi, hik⟩
    by_cases hij : i = j
    · rw [hij, Function.update_self, Option.some.injEq] at hik
      exact Or.inl hik.symm
    · rw [Function.update_of_ne hij] at hik
      exact Or.inr ⟨i, hi, hik⟩
  · rintro (rfl | ⟨i, hi, hik⟩)
    · exact ⟨j, hj, Function.update_self ..⟩
    · refine ⟨i, hi, ?_⟩
      rwa [Function.update_of_ne]
      rintro rfl
      rw [hnone] at hik
      cases hik

/-- There are as many keys as occupied slots. -/
theorem Placed.card_keys (h : Placed n home slot) :
    (keys n slot).card = ((Finset.range n).filter fun i => slot i ≠ none).card := by
  rw [keys, Finset.card_biUnion, Finset.card_filter]
  · apply Finset.sum_congr rfl
    intro i _
    cases hi : slot i with
    | none => simp
    | some k => simp
  · intro i hi j hj hij
    rw [Function.onFun, Finset.disjoint_left]
    intro k hik hjk
    rw [Option.mem_toFinset, Option.mem_def] at hik hjk
    exact hij (h.distinct (Finset.mem_range.mp hi) (Finset.mem_range.mp hj) hik hjk)

end Keys

end Toolkit.Probing
