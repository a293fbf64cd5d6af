import CanonC.Util.Random.Model
import CanonC.Toolkit.FullPeriod
import CanonC.Toolkit.Scramble

/-!
# The period of the random generator

With an odd stream constant the state runs through all 64-bit words. The state is
recovered from the output, the rotation and the folded bits the output drops, so each
output belongs to `2 ^ 32` states, and the rejection loop meets a value it keeps.
-/

namespace CanonC

open Toolkit Toolkit.FullPeriod Toolkit.Scramble

variable {s inc : BitVec 64}

/-- The state transition of the generators with a stream constant. -/
def randomStep (inc : BitVec 64) : BitVec 64 → BitVec 64 := affine randomMultiplier inc

/-- The values and the generator left by `n` draws. -/
theorem randomDraws_eq (n : Nat) (s inc : BitVec 64) : randomDraws n ⟨s, inc⟩ =
    .ok ((List.range n).map fun k => randomOutput ((randomStep inc)^[k] s),
      ⟨(randomStep inc)^[n] s, inc⟩) := by
  induction n generalizing s with
  | zero => rfl
  | succ n ih =>
    have hstep : randomDraws (n + 1) ⟨s, inc⟩ = randomDraws n ⟨randomStep inc s, inc⟩ >>=
        fun p => .ok (randomOutput s :: p.1, p.2) := rfl
    rw [hstep, ih, ok_bind, map_iterate_succ, Function.iterate_succ_apply]

private theorem eq_of_odd {c : BitVec 64} (h : c.toNat % 2 = 1) :
    ∃ s, c = 1 + 2 * s := by
  refine ⟨c >>> 1, ?_⟩
  apply BitVec.eq_of_toNat_eq
  have hlt := c.isLt
  have h1 : (1 : BitVec 64).toNat = 1 := rfl
  have h2 : (2 : BitVec 64).toNat = 2 := rfl
  rw [BitVec.toNat_add, BitVec.toNat_mul, BitVec.toNat_ushiftRight, h1, h2,
    Nat.shiftRight_eq_div_pow, pow_one]
  omega

/-- The state runs through all words. -/
theorem minimalPeriod_randomStep (h : inc.toNat % 2 = 1) (s : BitVec 64) :
    Function.minimalPeriod (randomStep inc) s = Nat.card (BitVec 64) := by
  obtain ⟨c, hc⟩ := eq_of_odd h
  have ha : randomMultiplier = 1 + 4 * 1591034055961698251#64 := by decide
  rw [natCard_bitVec]
  exact minimalPeriod_affine ha hc (two_pow_self 64) (two_pow_ne_zero (by decide)) s

/-- The rotation is by the five topmost bits of the state. -/
theorem randomOutput_eq (s : BitVec 64) : randomOutput s =
    (((s >>> 18 ^^^ s) >>> 27).setWidth 32).rotateRight (s >>> 59).toNat := by
  have hlt : (s >>> 59).toNat < 32 := by
    have := s.isLt
    rw [BitVec.toNat_ushiftRight, Nat.shiftRight_eq_div_pow]
    omega
  have hrot : ((s >>> 59).setWidth 32).toNat = (s >>> 59).toNat := by
    rw [BitVec.toNat_setWidth]
    exact Nat.mod_eq_of_lt (by omega)
  rw [randomOutput, rotateRight_eq (by omega), hrot]

/-- What the output leaves out: the rotation and the folded bits below it. -/
def randomDropped (s : BitVec 64) : BitVec 5 × BitVec 27 :=
  ((s >>> 59).setWidth 5, (s >>> 18 ^^^ s).setWidth 27)

/-- The state is recovered from the output and what the output leaves out. -/
theorem randomOutput_injective :
    Function.Injective fun s => (randomOutput s, randomDropped s) := by
  intro s t h
  obtain ⟨hout, hrot, hlow⟩ : randomOutput s = randomOutput t ∧
      (s >>> 59).setWidth 5 = (t >>> 59).setWidth 5 ∧
      (s >>> 18 ^^^ s).setWidth 27 = (t >>> 18 ^^^ t).setWidth 27 := by
    simpa [randomDropped] using h
  have htop : ∀ i, 59 ≤ i → s.getLsbD i = t.getLsbD i := by
    intro i hi
    by_cases hlt : i < 64
    · have := congrArg (fun z : BitVec 5 => z.getLsbD (i - 59)) hrot
      simpa [show i - 59 < 5 by omega, show 59 + (i - 59) = i by omega] using this
    · rw [BitVec.getLsbD_of_ge s i (by omega), BitVec.getLsbD_of_ge t i (by omega)]
  have heq : s >>> 59 = t >>> 59 := by
    apply BitVec.eq_of_getLsbD_eq
    intro i hi
    rw [BitVec.getLsbD_ushiftRight, BitVec.getLsbD_ushiftRight, htop _ (by omega)]
  rw [randomOutput_eq, randomOutput_eq, heq] at hout
  have hmid := rotateRight_injective _ hout
  refine xorshift_injective (s := 18) (by decide) (BitVec.eq_of_getLsbD_eq fun i hi => ?_)
  -- The folded words agree on the bits dropped, on the output and on the rotation.
  rcases Nat.lt_or_ge i 27 with h27 | h27
  · have := congrArg (fun z : BitVec 27 => z.getLsbD i) hlow
    simpa only [BitVec.getLsbD_setWidth, h27, decide_true, Bool.true_and] using this
  · rcases Nat.lt_or_ge i 59 with h59 | h59
    · have := congrArg (fun z : BitVec 32 => z.getLsbD (i - 27)) hmid
      simpa only [BitVec.getLsbD_setWidth, BitVec.getLsbD_ushiftRight, show i - 27 < 32 by omega,
        decide_true, Bool.true_and, show 27 + (i - 27) = i by omega] using this
    · rw [BitVec.getLsbD_xor, BitVec.getLsbD_xor, BitVec.getLsbD_ushiftRight,
        BitVec.getLsbD_ushiftRight, htop i h59, htop _ (by omega)]

/-- Every output belongs to `2 ^ 32` states. -/
theorem card_randomOutput (value : BitVec 32) :
    Nat.card {s // randomOutput s = value} = 2 ^ 32 := by
  have hdropped : Nat.card (BitVec 5 × BitVec 27) = 2 ^ 32 := by
    rw [Nat.card_prod, natCard_bitVec, natCard_bitVec, ← pow_add]
  have hcard : Nat.card (BitVec 32) * Nat.card (BitVec 5 × BitVec 27) ≤ Nat.card (BitVec 64) := by
    rw [hdropped, natCard_bitVec, natCard_bitVec, ← pow_add]
  rw [card_fiber randomOutput_injective hcard, hdropped]

/-- The rejection loop keeps the first value that is not below the threshold, if that many
draws are allowed. -/
theorem randomRangeLoop_eq {threshold : BitVec 32} {n fuel : Nat} (hlt : n < fuel)
    (hn : ¬ randomOutput ((randomStep inc)^[n] s) < threshold) :
    ∃ value r, randomRangeLoop threshold fuel ⟨s, inc⟩ = .ok (some (value, r)) := by
  induction n generalizing s fuel with
  | zero =>
    obtain ⟨fuel, rfl⟩ : ∃ k, fuel = k + 1 := ⟨fuel - 1, by omega⟩
    exact ⟨randomOutput s, ⟨randomStep inc s, inc⟩, if_neg hn⟩
  | succ n ih =>
    obtain ⟨fuel, rfl⟩ : ∃ k, fuel = k + 1 := ⟨fuel - 1, by omega⟩
    by_cases h : randomOutput s < threshold
    · rw [Function.iterate_succ_apply] at hn
      obtain ⟨value, r, heq⟩ := ih (Nat.lt_of_succ_lt_succ hlt) hn
      exact ⟨value, r, (if_pos h).trans heq⟩
    · exact ⟨randomOutput s, ⟨randomStep inc s, inc⟩, if_neg h⟩

/-- Every value is the output of some state. -/
theorem exists_state_of_output (value : BitVec 32) : ∃ s, randomOutput s = value := by
  by_contra hnone
  have hempty : IsEmpty {s // randomOutput s = value} := ⟨fun s => hnone ⟨s.1, s.2⟩⟩
  have hcard := card_randomOutput value
  rw [Nat.card_of_isEmpty] at hcard
  exact absurd hcard (Nat.two_pow_pos 32).ne

/-- Every generator with an odd stream constant meets the largest output. -/
theorem exists_largest_output (h : inc.toNat % 2 = 1) (s : BitVec 64) :
    ∃ n < 2 ^ 64, randomOutput ((randomStep inc)^[n] s) = BitVec.allOnes 32 := by
  obtain ⟨t, ht⟩ := exists_state_of_output (BitVec.allOnes 32)
  obtain ⟨n, ⟨hlt, hn⟩, -⟩ := existsUnique_iterate (minimalPeriod_randomStep h s) t
  rw [natCard_bitVec] at hlt
  exact ⟨n, hlt, by rw [hn, ht]⟩

/-- The rejection loop stops for every bound. -/
theorem randomRange_of_odd_inc (h : inc.toNat % 2 = 1) (s : BitVec 64) (bound : BitVec 32) :
    ∃ value r, randomRange (2 ^ 64) (some ⟨s, inc⟩) bound = .ok (some (value, r)) := by
  by_cases h0 : bound = 0#32
  · exact ⟨0#32, ⟨s, inc⟩, if_pos h0⟩
  · obtain ⟨n, hlt, hn⟩ := exists_largest_output h s
    have hkept : ¬ randomOutput ((randomStep inc)^[n] s) < -bound % bound := by
      have := (-bound % bound).isLt
      rw [hn, BitVec.lt_def, BitVec.toNat_allOnes]
      omega
    obtain ⟨value, r, heq⟩ := randomRangeLoop_eq hlt hkept
    refine ⟨value % bound, r, ?_⟩
    rw [randomRange, if_neg h0]
    simp only [heq, ok_bind, Option.map_some]

/-- Seeding makes the stream constant odd. -/
theorem randomSeed_eq (r : Random) (seed seq : BitVec 64) :
    ∃ s inc, randomSeed (some r) seed seq = .ok ⟨s, inc⟩ ∧ inc.toNat % 2 = 1 := by
  refine ⟨randomStep _ (randomStep _ (0#64 + seed)), (seq <<< 1) ||| 1#64, rfl, ?_⟩
  have hbit : ((seq <<< 1) ||| 1#64).getLsbD 0 = true := by simp
  rw [BitVec.getLsbD, Nat.testBit_zero] at hbit
  exact of_decide_eq_true hbit

/-- A generator with an odd stream constant visits every state exactly once in `2 ^ 64`
draws and is then back where it was; these draws contain every value `2 ^ 32` times, and
the rejection loop stops within as many draws for every bound. A seeded generator has an
odd stream constant, and any number of draws keeps it. -/
theorem random_full_period :
    (∀ r : Random, r.inc.toNat % 2 = 1 →
      (∀ s : BitVec 64, ∃! n, n < 2 ^ 64 ∧ ∃ values, randomDraws n r = .ok (values, ⟨s, r.inc⟩)) ∧
      (∃ values, randomDraws (2 ^ 64) r = .ok (values, r) ∧
        ∀ value : BitVec 32, values.count value = 2 ^ 32) ∧
      ∀ bound, ∃ value r', randomRange (2 ^ 64) (some r) bound = .ok (some (value, r'))) ∧
    ∀ (r : Random) (seed seq : BitVec 64), ∃ r', randomSeed (some r) seed seq = .ok r' ∧
      ∀ n, ∃ values r'', randomDraws n r' = .ok (values, r'') ∧ r''.inc.toNat % 2 = 1 := by
  refine ⟨fun r h => ⟨fun s => ?_, ?_, fun bound => randomRange_of_odd_inc h r.state bound⟩,
    fun r seed seq => ?_⟩
  · have hdraws : ∀ n, (∃ values, randomDraws n r = .ok (values, ⟨s, r.inc⟩)) ↔
        (randomStep r.inc)^[n] r.state = s := fun n => by
      rw [randomDraws_eq n r.state r.inc]
      simp
    simp only [hdraws]
    have hvisit := existsUnique_iterate (minimalPeriod_randomStep h r.state) s
    rwa [natCard_bitVec] at hvisit
  · have hback : (randomStep r.inc)^[2 ^ 64] r.state = r.state := by
      rw [← natCard_bitVec, ← minimalPeriod_randomStep h r.state]
      exact Function.iterate_minimalPeriod
    refine ⟨_, (randomDraws_eq (2 ^ 64) r.state r.inc).trans (by rw [hback]), fun value => ?_⟩
    have hcount := count_iterate (minimalPeriod_randomStep h r.state) randomOutput value
    rwa [natCard_bitVec, card_randomOutput] at hcount
  · obtain ⟨s, inc, hseed, hodd⟩ := randomSeed_eq r seed seq
    exact ⟨⟨s, inc⟩, hseed, fun n => ⟨_, _, randomDraws_eq n s inc, hodd⟩⟩

/-- The stream with constant one. -/
theorem random_full_period_one : ∃ values,
    randomDraws (2 ^ 64) ⟨0#64, 1#64⟩ = .ok (values, ⟨0#64, 1#64⟩) ∧
      ∀ value : BitVec 32, values.count value = 2 ^ 32 :=
  (random_full_period.1 ⟨0#64, 1#64⟩ (by decide)).2.1

end CanonC
