import CanonC.Toolkit.Rejection
import CanonC.Util.Random.Period

/-!
# The rejection test of the range function

A draw below the threshold is rejected. Among all 32-bit values the test leaves every
remainder equally often. Whether the loop stops depends on the orbit of the generator,
which is an arithmetic progression of states: one whose first move has few enough powers of
two reaches an output in the upper half, which no bound rejects, and the others are short.
-/

namespace CanonC

open Toolkit Toolkit.FullPeriod Toolkit.Rejection

variable {bound : BitVec 32}

/-- What one round of `random_range` makes of a value that is drawn: absent when it is rejected. -/
def randomRangeDraw (bound value : BitVec 32) : Option (BitVec 32) :=
  if value < -bound % bound then none else some (value % bound)

/-- With a single draw allowed, `random_range` makes that of the output of the generator. -/
theorem randomRange_one (h : bound ≠ 0#32) (r : Random) : randomRange 1 (some r) bound =
    .ok ((randomRangeDraw bound (randomOutput r.state)).map fun value =>
      (value, randomAdvance r)) := by
  rw [randomRange, if_neg h, randomRangeDraw]
  by_cases hlt : randomOutput r.state < -bound % bound
  · rw [if_pos hlt]
    simp only [randomRangeLoop, randomU32, ok_bind, if_pos hlt, Option.map_none]
  · rw [if_neg hlt]
    simp only [randomRangeLoop, randomU32, ok_bind, if_neg hlt, Option.map_some]

/-- The threshold is what is left of all values by the bound. -/
theorem toNat_threshold (h : bound ≠ 0#32) : (-bound % bound).toNat = 2 ^ 32 % bound.toNat := by
  have hlt := bound.isLt
  have hpos : 0 < bound.toNat := Nat.pos_of_ne_zero fun h0 => h (BitVec.eq_of_toNat_eq h0)
  rw [BitVec.toNat_umod, BitVec.toNat_neg, Nat.mod_eq_of_lt (a := 2 ^ 32 - bound.toNat) (by omega),
    ← Nat.mod_eq_sub_mod hlt.le]

/-- A value is accepted from the threshold on. -/
theorem randomRangeDraw_eq_some (h : bound ≠ 0#32) {value residue : BitVec 32} :
    randomRangeDraw bound value = some residue ↔
      value.toNat ∈ accepted (2 ^ 32) bound.toNat ∧
        value.toNat % bound.toNat = residue.toNat := by
  have hlt := value.isLt
  rw [randomRangeDraw, accepted, Finset.mem_Ico, ← toNat_threshold h]
  by_cases hreject : value < -bound % bound
  · rw [if_pos hreject]
    exact iff_of_false (Option.some_ne_none _).symm fun hin =>
      absurd hreject (Nat.not_lt.mpr hin.1.1)
  · rw [if_neg hreject, Option.some.injEq, ← BitVec.toNat_inj, BitVec.toNat_umod]
    exact ⟨fun heq => ⟨⟨Nat.le_of_not_lt hreject, hlt⟩, heq⟩, fun hin => hin.2⟩

/-- Words are counted by their values. -/
theorem card_toNat_mem {w : Nat} (s : Finset Nat) (hs : ∀ n ∈ s, n < 2 ^ w) :
    Nat.card {value : BitVec w // value.toNat ∈ s} = s.card := by
  rw [← Nat.card_eq_finsetCard]
  refine Nat.card_eq_of_bijective (fun value => ⟨value.1.toNat, value.2⟩) ⟨?_, fun n => ?_⟩
  · intro x y hxy
    exact Subtype.ext (BitVec.eq_of_toNat_eq (congrArg Subtype.val hxy))
  · have hn : (BitVec.ofNat w n.1).toNat = n.1 := by
      rw [BitVec.toNat_ofNat, Nat.mod_eq_of_lt (hs n.1 n.2)]
    exact ⟨⟨BitVec.ofNat w n.1, by rw [hn]; exact n.2⟩, Subtype.ext hn⟩

/-- An accepted value is one of the values. -/
theorem lt_of_mem_accepted {n b value : Nat} (h : value ∈ accepted n b) : value < n :=
  (Finset.mem_Ico.mp h).2

/-- Every remainder is left by as many of the accepted draws as another, and no fewer than half
of all draws are accepted. -/
theorem randomRange_unbiased (bound : BitVec 32) (h : bound ≠ 0#32) :
    (∀ r : Random, randomRange 1 (some r) bound =
      .ok ((randomRangeDraw bound (randomOutput r.state)).map fun value =>
        (value, randomAdvance r))) ∧
    (∀ residue : BitVec 32, residue < bound →
      Nat.card {value // randomRangeDraw bound value = some residue} = 2 ^ 32 / bound.toNat) ∧
    2 ^ 31 ≤ Nat.card {value // randomRangeDraw bound value ≠ none} := by
  refine ⟨randomRange_one h, fun residue hlt => ?_, ?_⟩
  · rw [BitVec.lt_def] at hlt
    have hfilter : ∀ value, randomRangeDraw bound value = some residue ↔ value.toNat ∈
        (accepted (2 ^ 32) bound.toNat).filter (· % bound.toNat = residue.toNat) := fun value => by
      rw [randomRangeDraw_eq_some h, Finset.mem_filter]
    simp only [hfilter]
    rw [card_toNat_mem, card_accepted_filter hlt]
    exact fun n hn => lt_of_mem_accepted (Finset.mem_filter.mp hn).1
  · have hpos : 0 < bound.toNat := Nat.pos_of_ne_zero fun h0 => h (BitVec.eq_of_toNat_eq h0)
    have haccepted : ∀ value, randomRangeDraw bound value ≠ none ↔
        value.toNat ∈ accepted (2 ^ 32) bound.toNat := fun value => by
      rw [Option.ne_none_iff_exists']
      simp only [randomRangeDraw_eq_some h]
      refine ⟨fun ⟨_, hin, _⟩ => hin, fun hin => ⟨value % bound, hin, ?_⟩⟩
      rw [BitVec.toNat_umod]
    simp only [haccepted]
    rw [card_toNat_mem _ fun n hn => lt_of_mem_accepted hn]
    have hhalf := half_le_card_accepted hpos bound.isLt.le
    omega

/-- Three remainders share the accepted draws equally. -/
theorem randomRange_unbiased_three :
    Nat.card {value // randomRangeDraw 3#32 value = some 1#32} = 1431655765 ∧
      2 ^ 31 ≤ Nat.card {value // randomRangeDraw 3#32 value ≠ none} :=
  ⟨(randomRange_unbiased 3#32 (by decide)).2.1 1#32 (by decide),
    (randomRange_unbiased 3#32 (by decide)).2.2⟩

/-- The move of the state in the first draw. -/
def randomMove (r : Random) : BitVec 64 := r.state * (randomMultiplier - 1) + r.inc

/-- The states that draws lead to lie at the multiples of the first move. -/
theorem exists_iterate_iff (r : Random) (p : BitVec 64 → Prop) :
    (∃ n, p ((randomStep r.inc)^[n] r.state)) ↔
      ∃ k : BitVec 64, p (r.state + k * randomMove r) := by
  have hmove (n : Nat) : (randomStep r.inc)^[n] r.state =
      r.state + (randomStep 1)^[n] 0 * randomMove r := iterate_affine _ _ _ n
  constructor
  · rintro ⟨n, hn⟩
    exact ⟨_, by rwa [← hmove]⟩
  · rintro ⟨k, hk⟩
    -- Every multiple is met, because the generator with constant one meets every state.
    have hperiod := @minimalPeriod_randomStep 1 (by decide) 0
    obtain ⟨n, ⟨-, hn⟩, -⟩ := existsUnique_iterate hperiod k
    exact ⟨n, by rwa [hmove, hn]⟩

/-- The loop stops with enough draws when one of them passes the test. -/
theorem randomRangeLoop_stops {threshold : BitVec 32} {s inc : BitVec 64} :
    (∃ fuel value r', randomRangeLoop threshold fuel ⟨s, inc⟩ = .ok (some (value, r'))) ↔
      ∃ n, ¬ randomOutput ((randomStep inc)^[n] s) < threshold := by
  constructor
  · rintro ⟨fuel, value, r', h⟩
    induction fuel generalizing s with
    | zero => cases h
    | succ fuel ih =>
      by_cases hlt : randomOutput s < threshold
      · have hrun : randomRangeLoop threshold (fuel + 1) ⟨s, inc⟩ =
            randomRangeLoop threshold fuel ⟨randomStep inc s, inc⟩ := if_pos hlt
        obtain ⟨n, hn⟩ := ih (hrun.symm.trans h)
        exact ⟨n + 1, by rwa [Function.iterate_succ_apply]⟩
      · exact ⟨0, hlt⟩
  · rintro ⟨n, hn⟩
    exact ⟨n + 1, randomRangeLoop_eq n.lt_succ_self hn⟩

/-- For a bound other than zero the accepted draw is reduced. -/
theorem randomRange_eq (h : bound ≠ 0#32) (fuel : Nat) (r : Random) :
    randomRange fuel (some r) bound = randomRangeLoop (-bound % bound) fuel r >>= fun result =>
      .ok (result.map (Prod.map (· % bound) id)) :=
  if_neg h

/-- `random_range` returns for a bound that is not zero when its loop stops. -/
theorem randomRange_returns (h : bound ≠ 0#32) (r : Random) :
    (∃ fuel value r', randomRange fuel (some r) bound = .ok (some (value, r'))) ↔
      ∃ n, ¬ randomOutput ((randomStep r.inc)^[n] r.state) < -bound % bound := by
  rw [← randomRangeLoop_stops]
  refine exists_congr fun fuel => ?_
  rw [randomRange_eq h]
  constructor
  · rintro ⟨value, r', heq⟩
    obtain ⟨result, hloop, hresult⟩ := bind_eq_ok.mp heq
    cases result with
    | none => cases hresult
    | some result => exact ⟨result.1, result.2, hloop⟩
  · rintro ⟨value, r', hloop⟩
    exact ⟨value % bound, r', by rw [hloop]; rfl⟩

/-- Every threshold is in the lower half. -/
theorem two_mul_threshold_lt (h : bound ≠ 0#32) : 2 * (-bound % bound).toNat < 2 ^ 32 := by
  have hpos : 0 < bound.toNat := Nat.pos_of_ne_zero fun h0 => h (BitVec.eq_of_toNat_eq h0)
  have hmod := Nat.mod_lt (2 ^ 32) hpos
  have hperiods := Nat.mul_le_mul_left bound.toNat (Nat.div_pos bound.isLt.le hpos)
  have hsplit := Nat.mod_add_div (2 ^ 32) bound.toNat
  rw [toNat_threshold h]
  omega

/-- A state that rotates nothing and has bit 58 set puts out a value in the upper half. -/
theorem two_pow_le_randomOutput {s : BitVec 64} (hlow : 2 ^ 58 ≤ s.toNat)
    (hhigh : s.toNat < 2 ^ 59) : 2 ^ 31 ≤ (randomOutput s).toNat := by
  have hrot : (s >>> 59).toNat = 0 := by
    rw [BitVec.toNat_ushiftRight, Nat.shiftRight_eq_div_pow]
    exact Nat.div_eq_of_lt hhigh
  have hbit : s.getLsbD 58 = true := by
    rw [BitVec.getLsbD, Nat.testBit_eq_decide_div_mod_eq]
    exact decide_eq_true (by omega)
  have hmsb : (randomOutput s).msb = true := by
    rw [randomOutput_eq, hrot, BitVec.rotateRight_def, BitVec.msb_eq_getLsbD_last]
    simp [hbit]
  exact BitVec.toNat_ge_of_msb_true hmsb

/-- A first move that is no multiple of `2 ^ 59` leads to an output in the upper half. -/
theorem exists_upper_output {r : Random} (hmove : ¬ 2 ^ 59 ∣ (randomMove r).toNat) :
    ∃ k, 2 ^ 31 ≤ (randomOutput (r.state + k * randomMove r)).toNat := by
  -- The state with the same low bits, bit 58 set and no rotation.
  obtain ⟨target, htarget⟩ : ∃ t : BitVec 64, t.toNat = r.state.toNat % 2 ^ 58 + 2 ^ 58 :=
    ⟨BitVec.ofNat 64 (r.state.toNat % 2 ^ 58 + 2 ^ 58),
      by rw [BitVec.toNat_ofNat, Nat.mod_eq_of_lt (by omega)]⟩
  have hdiff : 2 ^ 58 ∣ (target - r.state).toNat := by
    rw [BitVec.toNat_sub, htarget]
    have hlt := r.state.isLt
    omega
  obtain ⟨k, hk⟩ := exists_mul_eq (by decide) hmove hdiff
  refine ⟨k, ?_⟩
  rw [hk, add_sub_cancel]
  exact two_pow_le_randomOutput (by omega) (by omega)

/-- The rejection loop stops for a bound: the first move of the generator is no multiple of
`2 ^ 59`, or one of the at most 32 states that it then runs through has an output that is not
below the threshold. -/
def RandomRangeStops (r : Random) (bound : BitVec 32) : Prop :=
  ¬ 2 ^ 59 ∣ (randomMove r).toNat ∨
    ∃ k < 32, ¬ randomOutput (r.state + BitVec.ofNat 64 k * randomMove r) < -bound % bound

/-- Among the states at multiples of the first move is one whose output is accepted exactly then. -/
theorem exists_accepted_iff (h : bound ≠ 0#32) (r : Random) :
    (∃ k : BitVec 64, ¬ randomOutput (r.state + k * randomMove r) < -bound % bound) ↔
      RandomRangeStops r bound := by
  by_cases hmove : 2 ^ 59 ∣ (randomMove r).toNat
  · rw [RandomRangeStops, or_iff_right (not_not_intro hmove)]
    exact exists_mul_iff (i := 5) rfl hmove
      fun s => ¬ randomOutput (r.state + s) < -bound % bound
  · refine iff_of_true ?_ (.inl hmove)
    obtain ⟨k, hk⟩ := exists_upper_output hmove
    have hthreshold := two_mul_threshold_lt h
    exact ⟨k, fun hlt => absurd (BitVec.lt_def.mp hlt) (by omega)⟩

/-- For a bound that is not zero `random_range` returns exactly then. -/
theorem randomRange_stops_iff (h : bound ≠ 0#32) (r : Random) :
    (∃ fuel value r', randomRange fuel (some r) bound = .ok (some (value, r'))) ↔
      RandomRangeStops r bound := by
  rw [randomRange_returns h, exists_iterate_iff r fun s => ¬ randomOutput s < -bound % bound,
    exists_accepted_iff h]

/-- `random_range` returns exactly for the bound zero, from a generator whose first move is no
multiple of `2 ^ 59`, and when one of the at most 32 states of the others has an output that is
not rejected. -/
theorem randomRange_terminates (r : Random) (bound : BitVec 32) :
    (∃ fuel value r', randomRange fuel (some r) bound = .ok (some (value, r'))) ↔
      bound = 0#32 ∨ RandomRangeStops r bound := by
  by_cases h : bound = 0#32
  · exact iff_of_true ⟨0, 0#32, r, if_pos h⟩ (Or.inl h)
  · rw [randomRange_stops_iff h, or_iff_right h]

/-- The generator that is all zeros draws zero forever, which the bound three rejects. -/
theorem randomRange_hangs_zero :
    ¬ ∃ fuel value r', randomRange fuel (some ⟨0#64, 0#64⟩) 3#32 = .ok (some (value, r')) := by
  rw [randomRange_returns (by decide)]
  rintro ⟨n, hn⟩
  have hfix : Function.IsFixedPt (randomStep 0#64) 0#64 := by decide
  rw [Function.iterate_fixed hfix] at hn
  exact hn (by decide)

/-- A generator with an odd stream constant is never stuck. -/
theorem randomRange_returns_of_odd {r : Random} (hinc : r.inc.toNat % 2 = 1) (bound : BitVec 32) :
    ∃ fuel value r', randomRange fuel (some r) bound = .ok (some (value, r')) :=
  ⟨_, randomRange_of_odd_inc hinc r.state bound⟩

end CanonC
