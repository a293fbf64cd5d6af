import Mathlib.Data.BitVec
import Mathlib.Data.Int.GCD
import Mathlib.Data.List.Count
import Mathlib.Dynamics.PeriodicPts.Lemmas
import Mathlib.SetTheory.Cardinal.Finite
import Mathlib.Tactic.LinearCombination
import Mathlib.Tactic.Ring

/-!
# Generators of full period

An affine map of a commutative ring in which a power of two vanishes has one cycle when
its multiplier is one modulo four and its increment is odd: `2 ^ k` steps move a point
by an odd multiple of `2 ^ k`, up to multiples of `2 ^ (k + 2)` of the point itself.
An observation of the states of a single cycle takes each value as often as it has
states that show it. Whatever the increment, an orbit keeps to the multiples of its first
move, and how many these are depends on the powers of two in it.
-/

namespace Toolkit.FullPeriod

open Function

section Affine

variable {R : Type*} [CommRing R] {a c t s : R}

/-- One step of the generator with multiplier `a` and increment `c`. -/
def affine (a c x : R) : R := x * a + c

/-- The map computed by `2 ^ k` steps. -/
theorem iterate_two_pow (ha : a = 1 + 4 * t) (hc : c = 1 + 2 * s) (k : Nat) :
    ∃ t' s' : R, ∀ x,
      (affine a c)^[2 ^ k] x = x * (1 + 2 ^ k * (4 * t')) + 2 ^ k * (1 + 2 * s') := by
  induction k with
  | zero => exact ⟨t, s, fun x => by rw [pow_zero, iterate_one, affine, ha, hc]; ring⟩
  | succ k ih =>
    obtain ⟨t', s', h⟩ := ih
    refine ⟨t' + 2 ^ k * (2 * t' ^ 2), s' + 2 ^ k * t' * (1 + 2 * s'), fun x => ?_⟩
    rw [pow_succ 2 k, mul_two, iterate_add_apply, h, h]
    ring

/-- `n` steps move a point by a multiple of its first move. -/
theorem iterate_affine (a c x : R) (n : Nat) :
    (affine a c)^[n] x = x + (affine a 1)^[n] 0 * (x * (a - 1) + c) := by
  induction n with
  | zero => rw [iterate_zero_apply, iterate_zero_apply, zero_mul, add_zero]
  | succ n ih =>
    rw [iterate_succ_apply', iterate_succ_apply', ih, affine, affine]
    ring

/-- The cycle through any point has the length of the whole ring. -/
theorem minimalPeriod_affine (ha : a = 1 + 4 * t) (hc : c = 1 + 2 * s) {w : Nat}
    (hzero : (2 : R) ^ (w + 1) = 0) (hne : (2 : R) ^ w ≠ 0) (x : R) :
    minimalPeriod (affine a c) x = 2 ^ (w + 1) := by
  have : Fact (Nat.Prime 2) := ⟨Nat.prime_two⟩
  apply minimalPeriod_eq_prime_pow
  · intro hper
    obtain ⟨t', s', h⟩ := iterate_two_pow ha hc w
    have hfix : x * (1 + 2 ^ w * (4 * t')) + 2 ^ w * (1 + 2 * s') = x := (h x).symm.trans hper
    apply hne
    linear_combination hfix - (2 * x * t' + s') * hzero
  · obtain ⟨t', s', h⟩ := iterate_two_pow ha hc (w + 1)
    change (affine a c)^[2 ^ (w + 1)] x = x
    rw [h, hzero]
    ring

end Affine

section Multiples

variable {w i j : Nat} {a d : BitVec w}

/-- A word that `2 ^ (j + 1)` does not divide has every multiple of `2 ^ j` among its own. -/
theorem exists_mul_eq (hj : j < w) (ha : ¬ 2 ^ (j + 1) ∣ a.toNat) (hd : 2 ^ j ∣ d.toNat) :
    ∃ k, k * a = d := by
  obtain ⟨i, -, hgcd⟩ := (Nat.dvd_prime_pow Nat.prime_two).mp (Nat.gcd_dvd_right a.toNat (2 ^ w))
  have hij : i ≤ j := by
    by_contra hlt
    exact ha ((Nat.pow_dvd_pow 2 (Nat.lt_of_not_le hlt)).trans (hgcd ▸ Nat.gcd_dvd_left _ _))
  obtain ⟨e, he⟩ := (Nat.pow_dvd_pow 2 hij).trans hd
  -- Some multiple is the greatest common divisor with the modulus.
  obtain ⟨m, -, hm⟩ := Nat.exists_mul_mod_eq_gcd
    (hgcd ▸ Nat.pow_lt_pow_right Nat.one_lt_two (Nat.lt_of_le_of_lt hij hj))
  refine ⟨BitVec.ofNat w (m * e), BitVec.eq_of_toNat_eq ?_⟩
  calc (BitVec.ofNat w (m * e) * a).toNat
      = a.toNat * m * e % 2 ^ w := by
        rw [BitVec.toNat_mul, BitVec.toNat_ofNat, Nat.mod_mul_mod, Nat.mul_comm, ← Nat.mul_assoc]
    _ = 2 ^ i * e % 2 ^ w := by rw [← Nat.mod_mul_mod, hm, hgcd]
    _ = d.toNat := by rw [← he, Nat.mod_eq_of_lt d.isLt]

/-- A word that is a multiple of `2 ^ j` has only `2 ^ i` multiples when it has `i` bits above. -/
theorem exists_mul_iff (hw : w = j + i) (ha : 2 ^ j ∣ a.toNat) (p : BitVec w → Prop) :
    (∃ k : BitVec w, p (k * a)) ↔ ∃ k < 2 ^ i, p (BitVec.ofNat w k * a) := by
  refine ⟨fun ⟨k, hk⟩ => ⟨k.toNat % 2 ^ i, Nat.mod_lt _ (Nat.two_pow_pos i), ?_⟩,
    fun ⟨k, _, hk⟩ => ⟨_, hk⟩⟩
  obtain ⟨m, hm⟩ := ha
  have hpow : 2 ^ w = 2 ^ j * 2 ^ i := by rw [hw, Nat.pow_add]
  have heq : BitVec.ofNat w (k.toNat % 2 ^ i) * a = k * a := by
    apply BitVec.eq_of_toNat_eq
    rw [BitVec.toNat_mul, BitVec.toNat_mul, BitVec.toNat_ofNat, Nat.mod_mul_mod, hm, hpow,
      Nat.mul_left_comm (k.toNat % 2 ^ i), Nat.mul_left_comm k.toNat, Nat.mul_mod_mul_left,
      Nat.mul_mod_mul_left, Nat.mod_mul_mod]
  rwa [heq]

end Multiples

section Cycle

variable {σ β γ : Type*} {f : σ → σ} {s : σ}

/-- What is observed along an orbit, from the first state on. -/
theorem map_iterate_succ (f : σ → σ) (g : σ → β) (s : σ) (n : Nat) :
    ((List.range (n + 1)).map fun k => g (f^[k] s)) =
      g s :: (List.range n).map fun k => g (f^[k] (f s)) := by
  rw [List.range_succ_eq_map, List.map_cons, List.map_map]
  rfl

/-- A cycle as long as the state space visits every state exactly once. -/
theorem existsUnique_iterate [Finite σ] (h : minimalPeriod f s = Nat.card σ) (t : σ) :
    ∃! n, n < Nat.card σ ∧ f^[n] s = t := by
  have hinj : Injective fun n : Fin (Nat.card σ) => f^[n] s := fun m n hmn =>
    Fin.ext ((iterate_eq_iterate_iff_of_lt_minimalPeriod (m.isLt.trans_eq h.symm)
      (n.isLt.trans_eq h.symm)).mp hmn)
  have hbij := hinj.bijective_of_nat_card_le (Nat.card_fin _).ge
  obtain ⟨n, hn⟩ := hbij.surjective t
  refine ⟨n, ⟨n.isLt, hn⟩, fun m hm => ?_⟩
  have hfin : (⟨m, hm.1⟩ : Fin (Nat.card σ)) = n := hinj (hm.2.trans hn.symm)
  exact congrArg Fin.val hfin

/-- Along such a cycle an observation takes a value as often as there are states showing it. -/
theorem count_iterate [Finite σ] [DecidableEq β] (h : minimalPeriod f s = Nat.card σ)
    (g : σ → β) (b : β) :
    ((List.range (Nat.card σ)).map fun n => g (f^[n] s)).count b = Nat.card {t // g t = b} := by
  have hcount : ((List.range (Nat.card σ)).map fun n => g (f^[n] s)).count b =
      ((Finset.range (Nat.card σ)).filter fun n => g (f^[n] s) = b).card := by
    rw [List.count, List.countP_map, List.countP_eq_length_filter]
    rfl
  rw [hcount, ← Nat.card_eq_finsetCard]
  refine Nat.card_eq_of_bijective (fun n => ⟨f^[n.1] s, (Finset.mem_filter.mp n.2).2⟩) ⟨?_, ?_⟩
  · intro m n hmn
    have hm := Finset.mem_range.mp (Finset.mem_filter.mp m.2).1
    have hn := Finset.mem_range.mp (Finset.mem_filter.mp n.2).1
    exact Subtype.ext ((iterate_eq_iterate_iff_of_lt_minimalPeriod (hm.trans_eq h.symm)
      (hn.trans_eq h.symm)).mp (congrArg Subtype.val hmn))
  · rintro ⟨t, ht⟩
    obtain ⟨n, ⟨hlt, hn⟩, -⟩ := existsUnique_iterate h t
    exact ⟨⟨n, Finset.mem_filter.mpr ⟨Finset.mem_range.mpr hlt, by rw [hn, ht]⟩⟩,
      Subtype.ext hn⟩

/-- When an observation and a second one determine the state, and there are no more states
than pairs of observed values need, every value is shown by as many states as the second
observation has values. -/
theorem card_fiber [Finite β] [Finite γ] {f : σ → β} {g : σ → γ}
    (hinj : Injective fun x => (f x, g x)) (hcard : Nat.card β * Nat.card γ ≤ Nat.card σ) (b : β) :
    Nat.card {x // f x = b} = Nat.card γ := by
  have hbij := hinj.bijective_of_nat_card_le (by rwa [Nat.card_prod])
  refine Nat.card_eq_of_bijective (fun x => g x.1) ⟨?_, fun c => ?_⟩
  · intro x y hxy
    exact Subtype.ext (hinj (Prod.ext (x.2.trans y.2.symm) hxy))
  · obtain ⟨x, hx⟩ := hbij.surjective (b, c)
    exact ⟨⟨x, congrArg Prod.fst hx⟩, congrArg Prod.snd hx⟩

end Cycle

end Toolkit.FullPeriod
