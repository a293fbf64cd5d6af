import Mathlib.Tactic.Common
import Mathlib.Tactic.Ring
import Mathlib.Data.Nat.Bitwise
import Mathlib.Data.Int.ModEq
import Mathlib.Algebra.BigOperators.Group.Finset.Piecewise

/-!
# Packed fields of one width

A number read as fields of `s` bits, lowest first. A mask keeps every other field, so
that adding the kept fields of a number and of its shift by one field sums neighbours
into fields of twice the width and leaves the total of all fields as it was. Counting
the set bits of a word in parallel is this step repeated from one-bit fields on.
-/

namespace Toolkit.Fields

/-- The mask that keeps the lower of each of `m` pairs of fields. -/
def mask (s : Nat) : Nat → Nat
  | 0 => 0
  | m + 1 => 2 ^ s - 1 + 2 ^ (s + s) * mask s m

/-- The sum of the lowest `m` fields. -/
def total (s : Nat) : Nat → Nat → Nat
  | 0, _ => 0
  | m + 1, x => x % 2 ^ s + total s m (x / 2 ^ s)

/-- The sums of the lowest `m` pairs of fields, as fields of twice the width. -/
def pairSums (s : Nat) : Nat → Nat → Nat
  | 0, _ => 0
  | m + 1, x =>
    x % 2 ^ s + x / 2 ^ s % 2 ^ s + 2 ^ (s + s) * pairSums s m (x / 2 ^ (s + s))

/-- The number whose lowest `m` fields are one. -/
def ones (s : Nat) : Nat → Nat
  | 0 => 0
  | m + 1 => 1 + 2 ^ s * ones s m

/-- The sums of `acc` with the first one, two, …, `m` fields, as fields. -/
def prefixSums (s : Nat) : Nat → Nat → Nat → Nat
  | 0, _, _ => 0
  | m + 1, acc, x => acc + x % 2 ^ s + 2 ^ s * prefixSums s m (acc + x % 2 ^ s) (x / 2 ^ s)

/-- Every one of the lowest `m` fields is at most `b`. -/
def Bounded (s b : Nat) : Nat → Nat → Prop
  | 0, _ => True
  | m + 1, x => x % 2 ^ s ≤ b ∧ Bounded s b m (x / 2 ^ s)

variable {s : Nat}

/-- A shift by two fields is two shifts. -/
theorem shift_pair (x : Nat) : x / 2 ^ (s + s) = x / 2 ^ s / 2 ^ s := by
  rw [Nat.pow_add, Nat.div_div_eq_div_mul]

/-- The first pair of fields and the rest. -/
theorem split_pair (x : Nat) :
    x = x % 2 ^ s + 2 ^ s * (x / 2 ^ s % 2 ^ s) + 2 ^ (s + s) * (x / 2 ^ (s + s)) := by
  have h₁ := Nat.mod_add_div x (2 ^ s)
  have h₂ := Nat.mod_add_div (x / 2 ^ s) (2 ^ s)
  rw [shift_pair, Nat.pow_add, Nat.mul_assoc, Nat.add_assoc, ← Nat.mul_add, h₂, h₁]

/-- The mask acts on each pair of fields. -/
theorem and_mask_succ (m x : Nat) :
    x &&& mask s (m + 1) = x % 2 ^ s + 2 ^ (s + s) * (x / 2 ^ (s + s) &&& mask s m) := by
  have hp : 0 < 2 ^ s := Nat.two_pow_pos s
  have hle : 2 ^ s ≤ 2 ^ (s + s) := Nat.pow_le_pow_right (by omega) (by omega)
  have hlo : 2 ^ s - 1 < 2 ^ (s + s) := by omega
  have hmod : x % 2 ^ s < 2 ^ (s + s) := Nat.lt_of_lt_of_le (Nat.mod_lt x hp) hle
  apply Nat.eq_of_testBit_eq
  intro i
  rw [Nat.testBit_and, mask, Nat.add_comm (2 ^ s - 1), Nat.add_comm (x % 2 ^ s),
    Nat.testBit_two_pow_mul_add _ hlo, Nat.testBit_two_pow_mul_add _ hmod,
    Nat.testBit_two_pow_sub_one, Nat.testBit_mod_two_pow]
  split
  · rw [Bool.and_comm]
  · rename_i hi
    rw [Nat.testBit_and, Nat.testBit_div_two_pow, Nat.sub_add_cancel (by omega)]

/-- Masking a number and its shift splits it into its lower and its upper fields. -/
theorem and_mask_add_shift (m : Nat) : ∀ x < 2 ^ ((s + s) * m),
    (x &&& mask s m) + 2 ^ s * (x / 2 ^ s &&& mask s m) = x := by
  induction m with
  | zero =>
    intro x hx
    have hx0 : x = 0 := by simpa using hx
    simp [hx0, mask]
  | succ m ih =>
    intro x hx
    have hrest : x / 2 ^ (s + s) < 2 ^ ((s + s) * m) := by
      rw [Nat.div_lt_iff_lt_mul (Nat.two_pow_pos _), ← Nat.pow_add]
      exact hx
    have hi := ih _ hrest
    rw [and_mask_succ, and_mask_succ]
    have hcomm : x / 2 ^ s / 2 ^ (s + s) = x / 2 ^ (s + s) / 2 ^ s := by
      rw [Nat.div_div_eq_div_mul, Nat.div_div_eq_div_mul, Nat.mul_comm]
    rw [hcomm]
    conv_rhs => rw [split_pair (s := s) x, ← hi]
    ring

/-- Adding the two masked parts sums the pairs of fields. -/
theorem and_mask_add (m : Nat) : ∀ x,
    (x &&& mask s m) + (x / 2 ^ s &&& mask s m) = pairSums s m x := by
  induction m with
  | zero => simp [mask, pairSums]
  | succ m ih =>
    intro x
    have hcomm : x / 2 ^ s / 2 ^ (s + s) = x / 2 ^ (s + s) / 2 ^ s := by
      rw [Nat.div_div_eq_div_mul, Nat.div_div_eq_div_mul, Nat.mul_comm]
    rw [and_mask_succ, and_mask_succ, hcomm, pairSums, ← ih]
    ring

/-- Subtracting the upper fields once sums the pairs of fields. -/
theorem sub_and_mask (m : Nat) {x : Nat} (hx : x < 2 ^ ((1 + 1) * m)) :
    x - (x / 2 ^ 1 &&& mask 1 m) = pairSums 1 m x ∧ (x / 2 ^ 1 &&& mask 1 m) ≤ x := by
  have hsplit := and_mask_add_shift m x hx
  have hadd := and_mask_add (s := 1) m x
  omega

/-- Fields small enough to add in place may be added before masking. -/
theorem add_shift_and_mask {b : Nat} (hb : b + b < 2 ^ s) (m : Nat) : ∀ x,
    Bounded s b (m + m + 1) x → (x + x / 2 ^ s) &&& mask s m = pairSums s m x := by
  induction m with
  | zero => simp [mask, pairSums]
  | succ m ih =>
    intro x hx
    rw [show m + 1 + (m + 1) + 1 = m + m + 1 + 1 + 1 by omega] at hx
    obtain ⟨h₀, h₁, hrest⟩ := hx
    have h₂ := hrest.1
    rw [← shift_pair] at hrest h₂
    -- The two lowest fields of the sum, without a carry out of either.
    have hsum : x + x / 2 ^ s = x % 2 ^ s + x / 2 ^ s % 2 ^ s +
        2 ^ s * (x / 2 ^ s % 2 ^ s + x / 2 ^ (s + s) % 2 ^ s) +
        2 ^ (s + s) * (x / 2 ^ (s + s) + x / 2 ^ (s + s) / 2 ^ s) := by
      have hx' := split_pair (s := s) x
      have hs' := split_pair (s := s) (x / 2 ^ s)
      have hcomm : x / 2 ^ s / 2 ^ (s + s) = x / 2 ^ (s + s) / 2 ^ s := by
        rw [Nat.div_div_eq_div_mul, Nat.div_div_eq_div_mul, Nat.mul_comm]
      rw [← shift_pair, hcomm] at hs'
      refine (congrArg₂ (· + ·) hx' hs').trans ?_
      ring
    have hlo : x % 2 ^ s + x / 2 ^ s % 2 ^ s < 2 ^ s := by omega
    have hhi : x / 2 ^ s % 2 ^ s + x / 2 ^ (s + s) % 2 ^ s < 2 ^ s := by omega
    have hmod : (x + x / 2 ^ s) % 2 ^ s = x % 2 ^ s + x / 2 ^ s % 2 ^ s := by
      rw [hsum, Nat.pow_add, Nat.mul_assoc, Nat.add_assoc, ← Nat.mul_add, Nat.add_mul_mod_self_left,
        Nat.mod_eq_of_lt hlo]
    have hdiv : (x + x / 2 ^ s) / 2 ^ (s + s) =
        x / 2 ^ (s + s) + x / 2 ^ (s + s) / 2 ^ s := by
      rw [hsum, Nat.add_mul_div_left _ _ (Nat.two_pow_pos _), Nat.pow_add, Nat.div_eq_of_lt,
        Nat.zero_add]
      calc x % 2 ^ s + x / 2 ^ s % 2 ^ s +
            2 ^ s * (x / 2 ^ s % 2 ^ s + x / (2 ^ s * 2 ^ s) % 2 ^ s)
          < 2 ^ s + 2 ^ s * (x / 2 ^ s % 2 ^ s + x / (2 ^ s * 2 ^ s) % 2 ^ s) := by omega
        _ = 2 ^ s * (x / 2 ^ s % 2 ^ s + x / (2 ^ s * 2 ^ s) % 2 ^ s + 1) := by ring
        _ ≤ 2 ^ s * 2 ^ s := by
          rw [Nat.pow_add] at hhi
          exact Nat.mul_le_mul_left _ hhi
    rw [and_mask_succ, hmod, hdiv, ih _ hrest, pairSums]

/-- The sum of the lowest two fields fits in a field of twice the width. -/
theorem pairSum_lt (hs : 0 < s) (x : Nat) : x % 2 ^ s + x / 2 ^ s % 2 ^ s < 2 ^ (s + s) := by
  have hp : 0 < 2 ^ s := Nat.two_pow_pos s
  have h₀ := Nat.mod_lt x hp
  have h₁ := Nat.mod_lt (x / 2 ^ s) hp
  have h2s : 2 * 2 ^ s ≤ 2 ^ (s + s) := by
    rw [Nat.pow_add]
    exact Nat.mul_le_mul_right _ (Nat.le_self_pow (by omega) 2)
  omega

/-- The lowest of the summed fields is the sum of the lowest two. -/
theorem pairSums_mod (hs : 0 < s) (m x : Nat) :
    pairSums s (m + 1) x % 2 ^ (s + s) = x % 2 ^ s + x / 2 ^ s % 2 ^ s := by
  rw [pairSums, Nat.add_mul_mod_self_left, Nat.mod_eq_of_lt (pairSum_lt hs x)]

/-- The summed fields above it are those of the fields above these two. -/
theorem pairSums_div (hs : 0 < s) (m x : Nat) :
    pairSums s (m + 1) x / 2 ^ (s + s) = pairSums s m (x / 2 ^ (s + s)) := by
  rw [pairSums, Nat.add_mul_div_left _ _ (Nat.two_pow_pos _), Nat.div_eq_of_lt (pairSum_lt hs x),
    Nat.zero_add]

/-- Summing pairs keeps the total. -/
theorem total_pairSums (hs : 0 < s) (m : Nat) : ∀ x,
    total (s + s) m (pairSums s m x) = total s (m + m) x := by
  induction m with
  | zero => simp [total]
  | succ m ih =>
    intro x
    rw [show m + 1 + (m + 1) = m + m + 1 + 1 by omega, total, total, total, pairSums_mod hs,
      pairSums_div hs, ih, shift_pair, Nat.add_assoc]

/-- Sums of two fields of `s` bits are at most `2 * (2 ^ s - 1)`. -/
theorem bounded_pairSums (hs : 0 < s) (m : Nat) : ∀ x k,
    Bounded (s + s) (2 * (2 ^ s - 1)) k (pairSums s m x) := by
  intro x k
  induction k generalizing m x with
  | zero => trivial
  | succ k ih =>
    cases m with
    | zero =>
      refine ⟨by simp [pairSums], ?_⟩
      have hz := ih 0 0
      simpa [pairSums] using hz
    | succ m =>
      refine ⟨?_, ?_⟩
      · have hp : 0 < 2 ^ s := Nat.two_pow_pos s
        have h₀ := Nat.mod_lt x hp
        have h₁ := Nat.mod_lt (x / 2 ^ s) hp
        rw [pairSums_mod hs]
        omega
      · rw [pairSums_div hs]
        exact ih m _

/-- The sums of `m` pairs fit in `m` fields of twice the width. -/
theorem pairSums_lt (hs : 0 < s) (m : Nat) : ∀ x, pairSums s m x < 2 ^ ((s + s) * m) := by
  induction m with
  | zero => simp [pairSums]
  | succ m ih =>
    intro x
    have hlt := pairSum_lt hs x
    calc pairSums s (m + 1) x
        < 2 ^ (s + s) + 2 ^ (s + s) * pairSums s m (x / 2 ^ (s + s)) := by
          rw [pairSums]
          omega
      _ = 2 ^ (s + s) * (pairSums s m (x / 2 ^ (s + s)) + 1) := by ring
      _ ≤ 2 ^ (s + s) * 2 ^ ((s + s) * m) := Nat.mul_le_mul_left _ (ih _)
      _ = 2 ^ ((s + s) * (m + 1)) := by rw [← Nat.pow_add, Nat.mul_succ, Nat.add_comm]

/-- One more field of the word of ones. -/
theorem ones_succ (m : Nat) : ones s (m + 1) = ones s m + 2 ^ (s * m) := by
  induction m with
  | zero => simp [ones]
  | succ m ih =>
    calc ones s (m + 1 + 1)
        = 1 + 2 ^ s * (ones s m + 2 ^ (s * m)) := by rw [← ih, ones]
      _ = 1 + 2 ^ s * ones s m + 2 ^ (s * (m + 1)) := by
        rw [Nat.mul_succ, Nat.pow_add]
        ring

/-- Multiplying by all ones adds the fields up from below. -/
theorem mul_ones_modEq (m : Nat) : ∀ acc x,
    (acc + x) * ones s m ≡ prefixSums s m acc x [MOD 2 ^ (s * m)] := by
  induction m with
  | zero => exact fun acc x => Nat.modEq_one
  | succ m ih =>
    intro acc x
    have hx := Nat.mod_add_div x (2 ^ s)
    have hprod : (acc + x) * ones s (m + 1) = acc + x % 2 ^ s +
        2 ^ s * ((acc + x % 2 ^ s + x / 2 ^ s) * ones s m) +
        2 ^ (s * (m + 1)) * (x / 2 ^ s) := by
      calc (acc + x) * ones s (m + 1)
          = (acc + x % 2 ^ s) * ones s (m + 1) + 2 ^ s * (x / 2 ^ s) * ones s (m + 1) := by
            rw [← Nat.add_mul, Nat.add_assoc, hx]
        _ = (acc + x % 2 ^ s) * (1 + 2 ^ s * ones s m) +
            2 ^ s * (x / 2 ^ s) * (ones s m + 2 ^ (s * m)) := by
            rw [← ones_succ]
            rfl
        _ = _ := by
            rw [Nat.mul_succ, Nat.pow_add]
            ring
    rw [hprod, prefixSums]
    have hstep := (ih (acc + x % 2 ^ s) (x / 2 ^ s)).mul_left' (2 ^ s)
    rw [← Nat.pow_add, show s + s * m = s * (m + 1) by rw [Nat.mul_succ, Nat.add_comm]] at hstep
    have hcarry : 2 ^ (s * (m + 1)) * (x / 2 ^ s) ≡ 0 [MOD 2 ^ (s * (m + 1))] :=
      (Nat.modEq_zero_iff_dvd).mpr (Nat.dvd_mul_right _ _)
    have hsum := ((Nat.ModEq.refl (acc + x % 2 ^ s)).add hstep).add hcarry
    rwa [Nat.add_zero] at hsum

/-- The topmost of the sums from below is the total, where no field overflows. -/
theorem prefixSums_top (m : Nat) : ∀ acc x, acc + total s (m + 1) x < 2 ^ s →
    prefixSums s (m + 1) acc x / 2 ^ (s * m) = acc + total s (m + 1) x ∧
      prefixSums s (m + 1) acc x < 2 ^ (s * (m + 1)) := by
  induction m with
  | zero =>
    intro acc x h
    simp only [total, Nat.add_zero] at h
    simp [prefixSums, total, h]
  | succ m ih =>
    intro acc x h
    rw [total, ← Nat.add_assoc] at h
    obtain ⟨hdiv, hlt⟩ := ih _ _ h
    rw [prefixSums, total, ← Nat.add_assoc]
    have hf : acc + x % 2 ^ s < 2 ^ s := by omega
    constructor
    · rw [Nat.mul_succ, Nat.add_comm (s * m), Nat.pow_add, ← Nat.div_div_eq_div_mul,
        Nat.add_mul_div_left _ _ (Nat.two_pow_pos _), Nat.div_eq_of_lt hf, Nat.zero_add, hdiv]
    · calc acc + x % 2 ^ s + 2 ^ s * prefixSums s (m + 1) (acc + x % 2 ^ s) (x / 2 ^ s)
          < 2 ^ s * (prefixSums s (m + 1) (acc + x % 2 ^ s) (x / 2 ^ s) + 1) := by
            rw [Nat.mul_add_one]
            omega
        _ ≤ 2 ^ s * 2 ^ (s * (m + 1)) := Nat.mul_le_mul_left _ hlt
        _ = 2 ^ (s * (m + 1 + 1)) := by rw [← Nat.pow_add, Nat.mul_succ s (m + 1), Nat.add_comm]

/-- One multiplication by all ones brings the total of the fields to the top. -/
theorem mul_ones_div (m : Nat) {x : Nat} (h : total s (m + 1) x < 2 ^ s) :
    x * ones s (m + 1) % 2 ^ (s * (m + 1)) / 2 ^ (s * m) = total s (m + 1) x := by
  obtain ⟨hdiv, hlt⟩ := prefixSums_top (s := s) m 0 x (by omega)
  have hmod := mul_ones_modEq (s := s) (m + 1) 0 x
  rw [Nat.ModEq, Nat.zero_add, Nat.mod_eq_of_lt hlt] at hmod
  rw [hmod, hdiv, Nat.zero_add]

/-- The total of one-bit fields is the number of set bits. -/
theorem total_one (m : Nat) : ∀ x,
    total 1 m x = ((Finset.range m).filter fun i => x.testBit i = true).card := by
  induction m with
  | zero => simp [total]
  | succ m ih =>
    intro x
    rw [total, ih, Finset.card_filter, Finset.card_filter, Finset.sum_range_succ']
    simp only [Nat.testBit_succ, Nat.pow_one, Nat.testBit_zero]
    rw [Nat.add_comm]
    congr 1
    rcases Nat.mod_two_eq_zero_or_one x with h | h <;> simp [h]

end Toolkit.Fields
