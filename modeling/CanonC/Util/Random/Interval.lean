import CanonC.Util.Random.Rejection

/-!
# Random signed integers in an interval

The offset drawn is converted to a signed value before it is added. An interval that spans
fewer than `2 ^ 31` steps leaves it as it is; with a longer one the upper offsets become
negative, and the full span is narrowed to the bound zero.
-/

namespace CanonC

open Toolkit.Rejection

variable {fuel : Nat} {r r' : Random} {bound : BitVec 32} {min max v : I32}

/-- The bound that `random_i32_range` passes on. -/
def i32RangeBound (min max : I32) : BitVec 32 := BitVec.ofInt 32 (max.val - min.val + 1)

/-- The loop of `random_range` does not fail. -/
theorem randomRangeLoop_ok (threshold : BitVec 32) (fuel : Nat) (r : Random) :
    ∃ result, randomRangeLoop threshold fuel r = .ok result := by
  induction fuel generalizing r with
  | zero => exact ⟨none, rfl⟩
  | succ fuel ih =>
    by_cases hlt : randomOutput r.state < threshold
    · obtain ⟨result, hrun⟩ := ih (randomAdvance r)
      exact ⟨result, (if_pos hlt).trans hrun⟩
    · exact ⟨some (randomOutput r.state, randomAdvance r), if_neg hlt⟩

/-- `random_range` does not fail, and what it returns is below a bound that is not zero. -/
theorem randomRange_ok (h : bound ≠ 0#32) (fuel : Nat) (r : Random) :
    ∃ result, randomRange fuel (some r) bound = .ok result ∧
      ∀ value r', result = some (value, r') → value.toNat < bound.toNat := by
  obtain ⟨result, hrun⟩ := randomRangeLoop_ok (-bound % bound) fuel r
  refine ⟨result.map (Prod.map (· % bound) id), ?_, fun value r' hsome => ?_⟩
  · rw [randomRange_eq h, hrun, ok_bind]
  · obtain ⟨drawn, -, hvalue⟩ := Option.map_eq_some_iff.mp hsome
    obtain ⟨rfl, rfl⟩ := Prod.ext_iff.mp hvalue
    rw [Prod.map_fst, BitVec.toNat_umod]
    exact Nat.mod_lt _ (Nat.pos_of_ne_zero fun h0 => h (BitVec.eq_of_toNat_eq h0))

/-- Every value below the bound is what is left of some accepted draw. -/
theorem exists_draw {residue : BitVec 32} (hlt : residue < bound) :
    ∃ value, randomRangeDraw bound value = some residue := by
  have h : bound ≠ 0#32 := by
    rintro rfl
    exact Nat.not_lt_zero _ hlt
  have hcard := card_accepted_filter (n := 2 ^ 32) (BitVec.lt_def.mp hlt)
  have hpos := Nat.div_pos bound.isLt.le (Nat.zero_lt_of_lt (BitVec.lt_def.mp hlt))
  obtain ⟨n, hn⟩ := Finset.card_pos.mp (hcard ▸ hpos)
  obtain ⟨hin, hmod⟩ := Finset.mem_filter.mp hn
  refine ⟨BitVec.ofNat 32 n, (randomRangeDraw_eq_some h).mpr ?_⟩
  rw [BitVec.toNat_ofNat, Nat.mod_eq_of_lt (lt_of_mem_accepted hin)]
  exact ⟨hin, hmod⟩

/-- What is returned is the least value plus the converted offset. -/
theorem randomI32Range_some (h : min.val < max.val)
    (hrun : randomI32Range fuel (some r) min max = .ok (some (v, r'))) :
    ∃ value, randomRange fuel (some r) (i32RangeBound min max) = .ok (some (value, r')) ∧
      v.val = min.val + (i32OfU32 value).val := by
  rw [randomI32Range, if_neg (not_le.mpr h)] at hrun
  obtain ⟨result, hrange, hrest⟩ := bind_eq_ok.mp hrun
  cases result with
  | none => cases hrest
  | some result =>
    obtain ⟨sum, hsum, hlast⟩ := bind_eq_ok.mp hrest
    cases hlast
    refine ⟨result.1, hrange, ?_⟩
    rw [i32Add] at hsum
    split_ifs at hsum with hfits
    cases hsum
    rfl

/-- The bound counts the values of the interval. -/
theorem toNat_i32RangeBound (h : min.val < max.val) (hspan : max.val - min.val < 2 ^ 31) :
    ((i32RangeBound min max).toNat : Int) = max.val - min.val + 1 := by
  rw [i32RangeBound, BitVec.toNat_ofInt]
  omega

/-- The bound of an interval that is not too long is not zero. -/
theorem i32RangeBound_ne_zero (h : min.val < max.val) (hspan : max.val - min.val < 2 ^ 31) :
    i32RangeBound min max ≠ 0#32 := by
  intro h0
  have hbound := toNat_i32RangeBound h hspan
  rw [h0, BitVec.toNat_zero] at hbound
  omega

/-- In an interval that is not too long the offset is the value drawn. -/
theorem randomI32Range_of_lt (h : min.val < max.val) (hspan : max.val - min.val < 2 ^ 31)
    {value : BitVec 32} (hvalue : value.toNat < (i32RangeBound min max).toNat)
    (hrun : randomRange fuel (some r) (i32RangeBound min max) = .ok (some (value, r'))) :
    ∃ v : I32, randomI32Range fuel (some r) min max = .ok (some (v, r')) ∧
      v.val = min.val + value.toNat ∧ v.val ≤ max.val := by
  have hbound := toNat_i32RangeBound h hspan
  have hoffset : (i32OfU32 value).val = value.toNat := i32OfU32_of_lt (by omega)
  have hfits : i32Min ≤ min.val + (i32OfU32 value).val ∧
      min.val + (i32OfU32 value).val ≤ i32Max := by
    have hmin := min.2.1
    have hmax := max.2.2
    omega
  refine ⟨⟨min.val + (i32OfU32 value).val, hfits⟩, ?_, ?_, ?_⟩
  · rw [i32RangeBound] at hrun
    simp only [randomI32Range, if_neg (not_le.mpr h), hrun, ok_bind, i32Add, dif_pos hfits]
  · exact congrArg (min.val + ·) hoffset
  · dsimp only
    omega

/-- In an interval that is not too long nothing fails. -/
theorem randomI32Range_ok (h : min.val < max.val) (hspan : max.val - min.val < 2 ^ 31)
    (fuel : Nat) (r : Random) : ∃ result, randomI32Range fuel (some r) min max = .ok result := by
  obtain ⟨result, hrun, hlt⟩ := randomRange_ok (i32RangeBound_ne_zero h hspan) fuel r
  cases result with
  | none =>
    refine ⟨none, ?_⟩
    rw [i32RangeBound] at hrun
    simp only [randomI32Range, if_neg (not_le.mpr h), hrun, ok_bind]
  | some result =>
    obtain ⟨v, hv, -⟩ := randomI32Range_of_lt h hspan (hlt result.1 result.2 rfl) hrun
    exact ⟨_, hv⟩

/-- Every value of an interval that is not too long is returned for some accepted draw. -/
theorem exists_randomI32Range_eq (h : min.val < max.val) (hspan : max.val - min.val < 2 ^ 31)
    (hlow : min.val ≤ v.val) (hhigh : v.val ≤ max.val) :
    ∃ r r', randomI32Range 1 (some r) min max = .ok (some (v, r')) := by
  have hbound := toNat_i32RangeBound h hspan
  have hresidue : ((BitVec.ofInt 32 (v.val - min.val)).toNat : Int) = v.val - min.val := by
    rw [BitVec.toNat_ofInt]
    omega
  have hlt : BitVec.ofInt 32 (v.val - min.val) < i32RangeBound min max := by
    rw [BitVec.lt_def]
    omega
  obtain ⟨value, hdraw⟩ := exists_draw hlt
  obtain ⟨s, hs⟩ := exists_state_of_output value
  have hone : randomRange 1 (some ⟨s, 0⟩) (i32RangeBound min max) =
      .ok (some (BitVec.ofInt 32 (v.val - min.val), randomAdvance ⟨s, 0⟩)) := by
    rw [randomRange_one (i32RangeBound_ne_zero h hspan), hs, hdraw, Option.map_some]
  obtain ⟨sum, hrun, hsum, -⟩ := randomI32Range_of_lt h hspan (BitVec.lt_def.mp hlt) hone
  obtain rfl : sum = v := Subtype.ext (by omega)
  exact ⟨⟨s, 0⟩, randomAdvance ⟨s, 0⟩, hrun⟩

/-- `random_i32_range` returns a value of the interval without overflow, and has every one among
its results, exactly when the interval spans fewer than `2 ^ 31` steps and the rejection loop
stops. -/
theorem randomI32Range_covers (r : Random) (min max : I32) (h : min.val < max.val) :
    ((∀ fuel e, randomI32Range fuel (some r) min max ≠ .error e) ∧
      (∃ fuel v r', randomI32Range fuel (some r) min max = .ok (some (v, r')) ∧
        min.val ≤ v.val ∧ v.val ≤ max.val) ∧
      ∀ v : I32, min.val ≤ v.val → v.val ≤ max.val →
        ∃ r r', randomI32Range 1 (some r) min max = .ok (some (v, r'))) ↔
    max.val - min.val < 2 ^ 31 ∧ RandomRangeStops r (i32RangeBound min max) := by
  constructor
  · rintro ⟨-, ⟨fuel, v, r', hrun, -, -⟩, hall⟩
    have hspan : max.val - min.val < 2 ^ 31 := by
      obtain ⟨r, r', htop⟩ := hall max h.le le_rfl
      obtain ⟨value, -, hsum⟩ := randomI32Range_some h htop
      have hoffset : (i32OfU32 value).val ≤ 2147483647 := (i32OfU32 value).2.2
      omega
    refine ⟨hspan, (randomRange_stops_iff (i32RangeBound_ne_zero h hspan) r).mp ?_⟩
    obtain ⟨value, hrange, -⟩ := randomI32Range_some h hrun
    exact ⟨fuel, value, r', hrange⟩
  · rintro ⟨hspan, hstops⟩
    refine ⟨fun fuel e herr => ?_, ?_, fun v => exists_randomI32Range_eq h hspan⟩
    · obtain ⟨result, hok⟩ := randomI32Range_ok h hspan fuel r
      rw [hok] at herr
      cases herr
    · have hne := i32RangeBound_ne_zero h hspan
      obtain ⟨fuel, value, r', hrange⟩ := (randomRange_stops_iff hne r).mpr hstops
      obtain ⟨result, hresult, hlt⟩ := randomRange_ok hne fuel r
      obtain rfl := Except.ok.inj (hresult.symm.trans hrange)
      obtain ⟨v, hrun, hsum, hhigh⟩ := randomI32Range_of_lt h hspan (hlt value r' rfl) hrange
      exact ⟨fuel, v, r', hrun, by omega, hhigh⟩

/-- The throw of a die. -/
theorem randomI32Range_covers_die : ∃ fuel v r',
    randomI32Range fuel (some ⟨0, 1⟩) ⟨1, by decide⟩ ⟨6, by decide⟩ = .ok (some (v, r')) ∧
      1 ≤ v.val ∧ v.val ≤ 6 :=
  ((randomI32Range_covers ⟨0, 1⟩ ⟨1, by decide⟩ ⟨6, by decide⟩ (by decide)).mpr
    ⟨by decide, .inl (by decide)⟩).2.1

/-- A seeded generator makes a wide interval overflow, and the full span returns its least value
only. -/
theorem randomI32Range_wide :
    (randomSeed (some ⟨0, 0⟩) 1 1 >>= fun r =>
      randomI32Range 1 (some r) ⟨-2000000000, by decide⟩ ⟨2000000000, by decide⟩) =
        .error signedOverflow ∧
    ∀ fuel r, randomI32Range fuel (some r) ⟨i32Min, by decide⟩ ⟨i32Max, by decide⟩ =
      .ok (some (⟨i32Min, by decide⟩, r)) :=
  ⟨rfl, fun _ _ => rfl⟩

end CanonC
