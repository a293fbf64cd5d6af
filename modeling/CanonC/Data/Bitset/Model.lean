import CanonC.Core.BitScan
import CanonC.Core.Bits
import CanonC.Core.Types
import Mathlib.Logic.Function.Basic

/-!
# The bitset as the code computes it

A fixed number of bits in 64-bit words, the last word used in part when the capacity
is not a multiple of 64. Single bits are changed by masks, whole sets word by word.
-/

namespace CanonC

/-- `BITSET_WORD_COUNT`. -/
def bitsetWordCount (n : Nat) : Nat := usizeSub (usizeAdd n 64) 1 / 64

/-- A bitset as `bitset_init` shapes it. -/
structure Bitset where
  /-- Backing word array. -/
  words : Nat → BitVec 64
  /-- Number of usable bits. -/
  capacity : Nat
  /-- Number of words in the backing array. -/
  wordCount : Nat
  /-- The capacity is not zero. -/
  capacity_pos : 0 < capacity
  /-- The capacity lets the word count be computed. -/
  capacity_le : capacity ≤ usizeMax - 63
  /-- The word count is the one for the capacity. -/
  wordCount_eq : wordCount = bitsetWordCount capacity

/-- `bitset_word_of`. -/
def bitsetWordOf (i : Nat) : Nat := i / 64

/-- `bitset_mask_of`. -/
def bitsetMaskOf (i : Nat) : BitVec 64 := 1#64 <<< (i % 64)

/-- `bitset_clear_padding`. -/
def bitsetClearPadding (bs : Bitset) : Bitset :=
  let rem := bs.capacity % 64
  if rem != 0 then
    { bs with
      words := Function.update bs.words (bs.wordCount - 1)
        (bs.words (bs.wordCount - 1) &&& ((1#64 <<< rem) - 1#64)) }
  else bs

/-- Fill the word array with one word, as `mem_zero` and `mem_set` do. -/
def bitsetFill (words : Nat → BitVec 64) (wordCount : Nat) (word : BitVec 64) : Nat → BitVec 64 :=
  fun w => if w < wordCount then word else words w

/-- `bitset_init`; an absent array is a NULL pointer. -/
def bitsetInit (words : Option (Nat → BitVec 64)) (capacity : Nat) : Except String Bitset :=
  match words with
  | none => .error "bitset_init: words cannot be NULL"
  | some words =>
    if hpos : 0 < capacity then
      if hle : capacity ≤ usizeMax - 63 then
        .ok ⟨bitsetFill words (bitsetWordCount capacity) 0, capacity, bitsetWordCount capacity,
          hpos, hle, rfl⟩
      else .error "bitset_init: capacity too large (word count would overflow)"
    else .error "bitset_init: capacity must be > 0"

/-- The common body of `bitset_set`, `bitset_clear` and `bitset_toggle`: check the
index and combine its word with its mask. -/
def bitsetModify (msg : String) (f : BitVec 64 → BitVec 64 → BitVec 64) (bs : Bitset) (i : Nat) :
    Except String Bitset := do
  requireMsg (i < bs.capacity) msg
  .ok { bs with
    words := Function.update bs.words (bitsetWordOf i)
      (f (bs.words (bitsetWordOf i)) (bitsetMaskOf i)) }

/-- `bitset_set`. -/
def bitsetSet : Bitset → Nat → Except String Bitset :=
  bitsetModify "bitset_set: index out of range" fun word mask => word ||| mask

/-- `bitset_clear`. -/
def bitsetClear : Bitset → Nat → Except String Bitset :=
  bitsetModify "bitset_clear: index out of range" fun word mask => word &&& ~~~mask

/-- `bitset_toggle`. -/
def bitsetToggle : Bitset → Nat → Except String Bitset :=
  bitsetModify "bitset_toggle: index out of range" fun word mask => word ^^^ mask

/-- `bitset_test`. -/
def bitsetTest (bs : Bitset) (i : Nat) : Except String Bool := do
  requireMsg (i < bs.capacity) "bitset_test: index out of range"
  .ok (bs.words (bitsetWordOf i) &&& bitsetMaskOf i != 0)

/-- `bitset_assign`. -/
def bitsetAssign (bs : Bitset) (i : Nat) (value : Bool) : Except String Bitset :=
  if value then bitsetSet bs i else bitsetClear bs i

/-- `bitset_clear_all`. -/
def bitsetClearAll (bs : Bitset) : Bitset :=
  { bs with words := bitsetFill bs.words bs.wordCount 0 }

/-- `bitset_set_all`. -/
def bitsetSetAll (bs : Bitset) : Bitset :=
  bitsetClearPadding
    { bs with words := bitsetFill bs.words bs.wordCount 0xFFFFFFFFFFFFFFFF#64 }

/-- `bitset_not`. -/
def bitsetNot (bs : Bitset) : Bitset :=
  bitsetClearPadding
    { bs with words := fun w => if w < bs.wordCount then ~~~bs.words w else bs.words w }

/-- The loop of the binary operations over the words both operands have. -/
def bitsetZip (f : BitVec 64 → BitVec 64 → BitVec 64) (bs other : Bitset) : Bitset :=
  let n := if bs.wordCount < other.wordCount then bs.wordCount else other.wordCount
  { bs with words := fun w => if w < n then f (bs.words w) (other.words w) else bs.words w }

/-- `bitset_and`: the words that `other` does not have become zero. -/
def bitsetAnd (bs other : Bitset) : Bitset :=
  let n := if bs.wordCount < other.wordCount then bs.wordCount else other.wordCount
  let bs := bitsetZip (fun x y => x &&& y) bs other
  { bs with words := fun w => if n ≤ w ∧ w < bs.wordCount then 0 else bs.words w }

/-- `bitset_or`. -/
def bitsetOr (bs other : Bitset) : Bitset := bitsetZip (fun x y => x ||| y) bs other

/-- `bitset_xor`. -/
def bitsetXor (bs other : Bitset) : Bitset :=
  bitsetClearPadding (bitsetZip (fun x y => x ^^^ y) bs other)

/-- `bitset_count`. -/
def bitsetCount (bs : Bitset) : Nat :=
  (List.range bs.wordCount).foldl
    (fun total w => usizeAdd total (bitsPopcount (bs.words w)).toNat) 0

/-- `bitset_is_empty`. -/
def bitsetIsEmpty (bs : Bitset) : Bool := (List.range bs.wordCount).all fun w => bs.words w == 0

/-- `bitset_is_full`. -/
def bitsetIsFull (bs : Bitset) : Bool := bitsetCount bs == bs.capacity

/-- `bitset_is_disjoint`. -/
def bitsetIsDisjoint (bs other : Bitset) : Bool :=
  let n := if bs.wordCount < other.wordCount then bs.wordCount else other.wordCount
  (List.range n).all fun w => bs.words w &&& other.words w == 0

/-- `BITSET_NPOS`. -/
def bitsetNpos : Nat := usizeMax

/-- The loop of `bitset_find_first` and the second one of `bitset_find_next`, at word `w`
with some words left. -/
def bitsetScanUp (bs : Bitset) : Nat → Nat → Nat
  | 0, _ => bitsetNpos
  | left + 1, w =>
    if bs.words w != 0 then
      let bit := usizeAdd (usizeMul w 64) (bitsCtz (bs.words w))
      if bit < bs.capacity then bit else bitsetNpos
    else bitsetScanUp bs left (usizeAdd w 1)

/-- `bitset_find_first`. -/
def bitsetFindFirst (bs : Bitset) : Nat := bitsetScanUp bs bs.wordCount 0

/-- `bitset_find_next`. -/
def bitsetFindNext (bs : Bitset) (prev : Nat) : Nat :=
  if prev ≥ bs.capacity then bitsetNpos
  else
    let start := usizeAdd prev 1
    if start ≥ bs.capacity then bitsetNpos
    else
      let w := bitsetWordOf start
      let bit := start % 64
      let word := bs.words w >>> bit
      if word != 0 then
        let found := usizeAdd (usizeAdd (usizeMul w 64) bit) (bitsCtz word)
        if found < bs.capacity then found else bitsetNpos
      else bitsetScanUp bs (bs.wordCount - usizeAdd w 1) (usizeAdd w 1)

/-- The loop of `bitset_find_last` below word `w`. -/
def bitsetScanDown (bs : Bitset) : Nat → Nat
  | 0 => bitsetNpos
  | w + 1 =>
    if bs.words w != 0 then
      let bit := usizeAdd (usizeMul w 64) (usizeSub (usizeSub 64 1) (bitsClz (bs.words w)))
      if bit < bs.capacity then bit else bitsetNpos
    else bitsetScanDown bs w

/-- `bitset_find_last`. -/
def bitsetFindLast (bs : Bitset) : Nat := bitsetScanDown bs bs.wordCount

/-- The loop of `BITSET_FOR_EACH` from the index `idx` on: the indices it visits, unless it
has not ended within the rounds allotted. -/
def bitsetForEachFrom (bs : Bitset) : Nat → Nat → Option (List Nat)
  | 0, _ => none
  | rounds + 1, idx =>
    if idx != bitsetNpos then
      (bitsetForEachFrom bs rounds (bitsetFindNext bs idx)).map fun visited => idx :: visited
    else some []

/-- `BITSET_FOR_EACH`. -/
def bitsetForEach (bs : Bitset) (rounds : Nat) : Option (List Nat) :=
  bitsetForEachFrom bs rounds (bitsetFindFirst bs)

/-- The mutating calls on a collection of bitsets named by `ι`. -/
inductive BitsetOp (ι : Type*) where
  /-- `bitset_set` -/
  | set (t : ι) (i : Nat)
  /-- `bitset_clear` -/
  | clear (t : ι) (i : Nat)
  /-- `bitset_toggle` -/
  | toggle (t : ι) (i : Nat)
  /-- `bitset_assign` -/
  | assign (t : ι) (i : Nat) (value : Bool)
  /-- `bitset_set_all` -/
  | setAll (t : ι)
  /-- `bitset_clear_all` -/
  | clearAll (t : ι)
  /-- `bitset_not` -/
  | not (t : ι)
  /-- `bitset_and` -/
  | and (t other : ι)
  /-- `bitset_or` -/
  | or (t other : ι)
  /-- `bitset_xor` -/
  | xor (t other : ι)

/-- The bitset a call changes. -/
def BitsetOp.target {ι : Type*} : BitsetOp ι → ι
  | .set t _ | .clear t _ | .toggle t _ | .assign t _ _ | .setAll t | .clearAll t | .not t
  | .and t _ | .or t _ | .xor t _ => t

/-- The bitset a call leaves in place of its target. -/
def BitsetOp.apply {ι : Type*} (sets : ι → Bitset) : BitsetOp ι → Except String Bitset
  | .set t i => bitsetSet (sets t) i
  | .clear t i => bitsetClear (sets t) i
  | .toggle t i => bitsetToggle (sets t) i
  | .assign t i value => bitsetAssign (sets t) i value
  | .setAll t => .ok (bitsetSetAll (sets t))
  | .clearAll t => .ok (bitsetClearAll (sets t))
  | .not t => .ok (bitsetNot (sets t))
  | .and t other => .ok (bitsetAnd (sets t) (sets other))
  | .or t other => .ok (bitsetOr (sets t) (sets other))
  | .xor t other => .ok (bitsetXor (sets t) (sets other))

/-- One call on the collection. -/
def bitsetStep {ι : Type*} [DecidableEq ι] (sets : ι → Bitset) (op : BitsetOp ι) :
    Except String (Unit × (ι → Bitset)) :=
  match op.apply sets with
  | .error msg => .error msg
  | .ok bs => .ok ((), Function.update sets op.target bs)

end CanonC
