import CanonC.Core.Checked

/-!
# The range as the code computes it

A lazy arithmetic progression with an exclusive bound. The length is accumulated in
`usize` by the signs of the endpoints; a step past the bound, or past what an `isize`
can hold, ends on the bound. An absent range is a NULL pointer.
-/

namespace CanonC

/-- The range structure. -/
structure Range where
  /-- The next value to yield. -/
  current : Isize
  /-- Exclusive bound. -/
  end_ : Isize
  /-- Increment per step. -/
  step : Isize
  deriving DecidableEq

/-- `range_make`. -/
def rangeMake (start end_ step : Isize) : Except String Range := do
  requireMsg (step.val ≠ isizeMin)
    "range_make: step cannot be ISIZE_MIN (would overflow on negation)"
  .ok ⟨start, end_, if step.val = 0 then 1 else step⟩

/-- `range_is_empty`. -/
def rangeIsEmpty : Option Range → Bool
  | none => true
  | some r =>
    if 0 < r.step.val then r.end_.val ≤ r.current.val
    else if r.step.val < 0 then r.current.val ≤ r.end_.val
    else true

/-- `range_has_next`. -/
def rangeHasNext (r : Option Range) : Bool := !rangeIsEmpty r

/-- The magnitude of the step in `range_len`. -/
def rangeAbsStep (step : Isize) : Except String Nat :=
  if 0 < step.val then .ok (isizeToUsize step)
  else do
    let negStep ← isizeNeg step
    .ok (isizeToUsize negStep)

/-- The distance from `lo` up to `hi` in `range_len`, by the signs of the endpoints. -/
def rangeSpan (lo hi : Isize) : Except String Nat :=
  if 0 ≤ lo.val ∨ hi.val < 0 then do
    let diff ← isizeSub hi lo
    .ok (isizeToUsize diff)
  else do
    let lo1 ← isizeAdd lo 1
    let negLoM1 ← isizeNeg lo1
    .ok (usizeAdd (usizeAdd (isizeToUsize hi) (isizeToUsize negLoM1)) 1)

/-- `range_len`. -/
def rangeLen : Option Range → Except String Nat
  | none => .ok 0
  | some r =>
    if rangeIsEmpty (some r) then .ok 0
    else do
      let absStep ← rangeAbsStep r.step
      let lo := if 0 < r.step.val then r.current else r.end_
      let hi := if 0 < r.step.val then r.end_ else r.current
      let span ← rangeSpan lo hi
      .ok (usizeAdd (usizeSub span 1 / absStep) 1)

/-- `range_next`: the value yielded and the range left behind. -/
def rangeNext (p : Option Range) : Except String (Isize × Range) := do
  requireMsg p.isSome "range_next: r cannot be NULL"
  requireMsg (rangeHasNext p) "range_next: called on exhausted range"
  match p with
  | none => .error "range_next: r cannot be NULL"
  | some r =>
    match ← checkedAddIsize r.current r.step with
    | some nextValue =>
      if 0 < r.step.val ∧ r.end_.val ≤ nextValue.val then
        .ok (r.current, { r with current := r.end_ })
      else if r.step.val < 0 ∧ nextValue.val ≤ r.end_.val then
        .ok (r.current, { r with current := r.end_ })
      else .ok (r.current, { r with current := nextValue })
    | none => .ok (r.current, { r with current := r.end_ })

/-- `count` calls of `range_next`, of which only the range left behind is kept. -/
def rangeNextTimes : Nat → Option Range → Except String (Option Range)
  | 0, p => .ok p
  | count + 1, p => do
    let (_, r) ← rangeNext p
    rangeNextTimes count (some r)

/-- The conversion `(isize)` of a size, which has to fit. -/
def usizeToIsize (n : Nat) : Except String Isize := isizeOf n

/-- The two jumps of `range_skip`, in the direction of the step. -/
def rangeJump (move : Isize → Isize → Except String Isize) (current : Isize) (offset : Nat) :
    Except String Isize :=
  let half := isizeToUsize isizeGreatest
  if half < offset then do
    let middle ← move current isizeGreatest
    let rest ← usizeToIsize (usizeSub offset half)
    move middle rest
  else do
    let whole ← usizeToIsize offset
    move current whole

/-- `range_skip`. -/
def rangeSkip : Option Range → Nat → Except String (Option Range)
  | none, _ => .ok none
  | some r, n =>
    if n = 0 ∨ rangeIsEmpty (some r) then .ok (some r)
    else do
      let count ← rangeLen (some r)
      if count ≤ n then .ok (some { r with current := r.end_ })
      else
        let absStep ← rangeAbsStep r.step
        let offset := usizeMul n absStep
        let current ← rangeJump (if 0 < r.step.val then isizeAdd else isizeSub) r.current offset
        .ok (some { r with current := current })

/-- The first `n` rounds of `while (range_has_next(&r)) range_next(&r)`: the values
yielded and the range left behind. -/
def rangeRounds : Nat → Range → Except String (List Isize × Range)
  | 0, r => .ok ([], r)
  | n + 1, r =>
    if rangeHasNext (some r) then do
      let (value, r) ← rangeNext (some r)
      let (values, r) ← rangeRounds n r
      .ok (value :: values, r)
    else .ok ([], r)

end CanonC
