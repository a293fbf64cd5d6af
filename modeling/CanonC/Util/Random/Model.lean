import CanonC.Core.I32
import Mathlib.Data.BitVec

/-!
# The random generator as the code computes it

A linear congruential generator on 64 bits whose old state is scrambled into 32 output
bits: the upper half is folded over, and the five topmost bits choose a rotation. An
absent generator is a NULL pointer.
-/

namespace CanonC

/-- The generator state. -/
structure Random where
  /-- Current state of the linear congruential generator. -/
  state : BitVec 64
  /-- Stream constant. -/
  inc : BitVec 64
  deriving DecidableEq

/-- The output of `random_u32`, from the state before the step. -/
def randomOutput (oldstate : BitVec 64) : BitVec 32 :=
  let xorshifted := (((oldstate >>> 18) ^^^ oldstate) >>> 27).setWidth 32
  let rot := (oldstate >>> 59).setWidth 32
  (xorshifted >>> rot) ||| (xorshifted <<< (-rot &&& 31#32))

/-- The multiplier of `random_u32`. -/
def randomMultiplier : BitVec 64 := 6364136223846793005#64

/-- The step of `random_u32`. -/
def randomAdvance (r : Random) : Random :=
  { r with state := r.state * randomMultiplier + r.inc }

/-- `random_u32`: the value and the generator left behind. -/
def randomU32 : Option Random → Except String (BitVec 32 × Random)
  | none => .error "random_u32: r is NULL"
  | some r => .ok (randomOutput r.state, randomAdvance r)

/-- `random_seed`: the generator left behind. -/
def randomSeed (p : Option Random) (seed seq : BitVec 64) : Except String Random := do
  requireMsg p.isSome "random_seed: r is NULL"
  let r : Random := ⟨0#64 + seed, (seq <<< 1) ||| 1#64⟩
  let (_, r) ← randomU32 (some r)
  let (_, r) ← randomU32 (some r)
  .ok r

/-- The rejection loop of `random_range`, with at most `fuel` draws: the value that is
kept and the generator left behind. -/
def randomRangeLoop (threshold : BitVec 32) :
    Nat → Random → Except String (Option (BitVec 32 × Random))
  | 0, _ => .ok none
  | fuel + 1, r => do
    let (value, r) ← randomU32 (some r)
    if value < threshold then randomRangeLoop threshold fuel r
    else .ok (some (value, r))

/-- `random_range` with at most `fuel` draws: the value and the generator left behind,
absent when the loop has not stopped by then. -/
def randomRange (fuel : Nat) (p : Option Random) (bound : BitVec 32) :
    Except String (Option (BitVec 32 × Random)) :=
  match p with
  | none => .error "random_range: r is NULL"
  | some r =>
    if bound = 0#32 then .ok (some (0#32, r))
    else do
      let threshold := -bound % bound
      let result ← randomRangeLoop threshold fuel r
      .ok (result.map fun (value, r) => (value % bound, r))

/-- `random_i32_range` with at most `fuel` draws. The span is computed in 64 bits, where it cannot
overflow. -/
def randomI32Range (fuel : Nat) (p : Option Random) (min max : I32) :
    Except String (Option (I32 × Random)) :=
  match p with
  | none => .error "random_i32_range: r is NULL"
  | some r =>
    if min.val ≥ max.val then .ok (some (min, r))
    else do
      let span := (max.val - min.val) + 1
      let range := BitVec.ofInt 32 span
      match ← randomRange fuel (some r) range with
      | none => .ok none
      | some (value, r) => do
        let sum ← i32Add min (i32OfU32 value)
        .ok (some (sum, r))

/-- `n` draws in a row: the values and the generator left behind. -/
def randomDraws : Nat → Random → Except String (List (BitVec 32) × Random)
  | 0, r => .ok ([], r)
  | n + 1, r => do
    let (value, r) ← randomU32 (some r)
    let (values, r) ← randomDraws n r
    .ok (value :: values, r)

end CanonC
