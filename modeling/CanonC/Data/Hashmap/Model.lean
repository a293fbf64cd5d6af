import CanonC.Core.Bits
import CanonC.Core.Types
import Mathlib.Logic.Function.Basic

/-!
# The Robin Hood hash map as the code computes it

Open addressing with linear probing over a power-of-two slot array. Insertion
lets an element that has travelled farther take the slot of one that has
travelled less and carries the displaced element on; removal shifts the run
behind the removed element back by one slot. The hash and equality functions are
the instantiation's, and the context pointer is handed to both.
-/

namespace CanonC

/-- `HASHMAP_HASH_FN` and `HASHMAP_EQ_FN` of one instantiation. -/
structure HashFns (K Ctx : Type*) where
  /-- The raw 64-bit hash of a key. -/
  hash : K → Ctx → UInt64
  /-- Key equality. -/
  eq : K → K → Ctx → Bool

/-- One slot of the table. -/
structure Slot (K V : Type*) where
  /-- Cached hash, not zero in an occupied slot. -/
  hash : UInt64
  /-- Probe sequence length, the distance from the home slot. -/
  psl : Nat
  /-- Occupancy flag. -/
  occupied : Bool
  /-- Stored key, stale in an unoccupied slot. -/
  key : K
  /-- Stored value, stale in an unoccupied slot. -/
  value : V

/-- The map: a slot array of `capacity` entries, the element count and the context. -/
structure HashMap (K V Ctx : Type*) where
  /-- The slot array in the caller's buffer. -/
  slots : Nat → Slot K V
  /-- Total slot count, a power of two. -/
  capacity : Nat
  /-- Number of elements. -/
  len : Nat
  /-- Caller context forwarded to the hash and equality functions. -/
  ctx : Ctx

variable {K V Ctx : Type*}

/-- `_hm_home`: the home slot of a hash. -/
def hmHome (hash : UInt64) (capacity : Nat) : Nat := hash.toNat &&& (capacity - 1)

/-- `_hm_wrap`: reduce an index into the table. -/
def hmWrap (index capacity : Nat) : Nat := index &&& (capacity - 1)

/-- `_hm_normalize_hash`: zero is not a cached hash. -/
def hmNormalizeHash (h : UInt64) : UInt64 := if h == 0 then 1 else h

/-- The normalised hash of a key under the map's context. -/
def hmHash (fns : HashFns K Ctx) (map : HashMap K V Ctx) (key : K) : UInt64 :=
  hmNormalizeHash (fns.hash key map.ctx)

/-- An unsigned 32-bit increment of a probe distance. -/
def pslSucc (psl : Nat) : Nat := (psl + 1) % 2 ^ 32

/-- A slot with its flag, hash and distance cleared, its key and value left as they were. -/
def Slot.emptied (s : Slot K V) : Slot K V := { s with occupied := false, hash := 0, psl := 0 }

/-- `empty_slots_`: empty every slot of the table. -/
def emptySlots (slots : Nat → Slot K V) (capacity : Nat) : Nat → Slot K V :=
  fun j => if j < capacity then (slots j).emptied else slots j

/-- `hashmap_buffer_size`: the bytes for `capacity` slots, or zero on overflow. -/
def hashmapBufferSize (slotSize capacity : Nat) : Nat :=
  if capacity * slotSize < usizeSize then capacity * slotSize else 0

/-- A byte buffer handed to `hashmap_init`: its address, its length in bytes and
its contents read as slots. -/
structure SlotBuffer (K V : Type*) where
  /-- Address of the first byte, absent for NULL. -/
  ptr : Option Nat
  /-- Length in bytes. -/
  len : Nat
  /-- Uninitialised contents. -/
  contents : Nat → Slot K V

/-- `hashmap_init` over a slot type of the given size and alignment. -/
def hashmapInit (slotSize slotAlign : Nat) (buf : SlotBuffer K V) (capacity : Nat) (ctx : Ctx) :
    Except Error (HashMap K V Ctx) :=
  match buf.ptr with
  | none => .error .invalidArg
  | some addr =>
    if capacity == 0 then .error .invalidArg
    else if !bitsIsPowerOfTwo capacity then .error .invalidArg
    else
      let required := hashmapBufferSize slotSize capacity
      if required == 0 || buf.len < required then .error .bufferTooSmall
      else if addr % slotAlign != 0 then .error .invalidArg
      else .ok ⟨emptySlots buf.contents capacity, capacity, 0, ctx⟩

/-- `hashmap_clear`. -/
def hashmapClear (map : HashMap K V Ctx) : HashMap K V Ctx :=
  { map with slots := emptySlots map.slots map.capacity, len := 0 }

/-- The insertion loop with `fuel` iterations left. The flag is absent when the
loop runs out of iterations, which loses the element then in hand. -/
def hmInsertLoop (fns : HashFns K Ctx) : Nat → HashMap K V Ctx → Nat → Nat → Slot K V →
    HashMap K V Ctx × Option Bool
  | 0, map, _, _, _ => (map, none)
  | fuel + 1, map, probeIdx, psl, incoming =>
    let slot := map.slots probeIdx
    if !slot.occupied then
      ({ map with slots := Function.update map.slots probeIdx incoming, len := map.len + 1 },
        some true)
    else if slot.hash == incoming.hash && fns.eq slot.key incoming.key map.ctx then
      ({ map with
          slots := Function.update map.slots probeIdx { slot with value := incoming.value } },
        some false)
    else if slot.psl < psl then
      -- Robin Hood: the displaced element goes on from its own distance.
      hmInsertLoop fns fuel { map with slots := Function.update map.slots probeIdx incoming }
        (hmWrap (probeIdx + 1) map.capacity) (pslSucc slot.psl)
        { slot with psl := pslSucc slot.psl }
    else
      hmInsertLoop fns fuel map (hmWrap (probeIdx + 1) map.capacity) (pslSucc psl)
        { incoming with psl := pslSucc psl }

/-- The slot contents a fresh insertion carries. -/
def hmIncoming (fns : HashFns K Ctx) (map : HashMap K V Ctx) (key : K) (val : V) : Slot K V :=
  ⟨hmHash fns map key, 0, true, key, val⟩

/-- `hashmap_insert`; an absent key or value is a NULL pointer. -/
def hashmapInsert (fns : HashFns K Ctx) (map : HashMap K V Ctx) (key : Option K)
    (val : Option V) : HashMap K V Ctx × Except Error Bool :=
  match key, val with
  | some key, some val =>
    if map.len ≥ map.capacity - map.capacity / 4 then (map, .error .capacityExceeded)
    else
      let incoming := hmIncoming fns map key val
      match hmInsertLoop fns map.capacity map (hmHome incoming.hash map.capacity) 0 incoming with
      | (map, some isNewKey) => (map, .ok isNewKey)
      | (map, none) => (map, .error .capacityExceeded)
  | _, _ => (map, .error .invalidArg)

/-- The lookup loop with `fuel` iterations left: stop at an empty slot, at an
element nearer its home than the probe, or at the key. -/
def hmProbeLoop (fns : HashFns K Ctx) (map : HashMap K V Ctx) (h : UInt64) (key : K) :
    Nat → Nat → Nat → Option Nat
  | 0, _, _ => none
  | fuel + 1, probeIdx, psl =>
    let slot := map.slots probeIdx
    if !slot.occupied then none
    else if slot.psl < psl then none
    else if slot.hash == h && fns.eq slot.key key map.ctx then some probeIdx
    else hmProbeLoop fns map h key fuel (hmWrap (probeIdx + 1) map.capacity) (pslSucc psl)

/-- The index of the slot that holds the key, as every lookup searches for it. -/
def hmProbe (fns : HashFns K Ctx) (map : HashMap K V Ctx) (key : K) : Option Nat :=
  let h := hmHash fns map key
  hmProbeLoop fns map h key map.capacity (hmHome h map.capacity) 0

/-- `hashmap_get`. -/
def hashmapGet (fns : HashFns K Ctx) (map : HashMap K V Ctx) (key : K) : Option V :=
  (hmProbe fns map key).map fun i => (map.slots i).value

/-- `hashmap_get_or_null`: the index whose value field the returned pointer
addresses, absent for NULL. -/
def hashmapGetOrNull (fns : HashFns K Ctx) (map : HashMap K V Ctx) (key : K) : Option Nat :=
  hmProbe fns map key

/-- `hashmap_contains_key`. -/
def hashmapContainsKey (fns : HashFns K Ctx) (map : HashMap K V Ctx) (key : K) : Bool :=
  (hashmapGet fns map key).isSome

/-- The backward shift with `fuel` iterations left: the slots and the index the
shift ends at. -/
def hmShiftLoop (capacity : Nat) : Nat → (Nat → Slot K V) → Nat → (Nat → Slot K V) × Nat
  | 0, slots, curr => (slots, curr)
  | fuel + 1, slots, curr =>
    let next := hmWrap (curr + 1) capacity
    let nextSlot := slots next
    if !nextSlot.occupied || nextSlot.psl == 0 then (slots, curr)
    else
      hmShiftLoop capacity fuel
        (Function.update slots curr { nextSlot with psl := nextSlot.psl - 1 }) next

/-- `hashmap_remove`; an absent key is a NULL pointer. -/
def hashmapRemove (fns : HashFns K Ctx) (map : HashMap K V Ctx) (key : Option K) :
    HashMap K V Ctx × Except Error V :=
  match key with
  | none => (map, .error .invalidArg)
  | some key =>
    let foundIdx := (hmProbe fns map key).getD map.capacity
    if foundIdx == map.capacity then (map, .error .notFound)
    else
      let oldValue := (map.slots foundIdx).value
      let (slots, curr) := hmShiftLoop map.capacity (map.capacity - 1) map.slots foundIdx
      ({ map with
          slots := Function.update slots curr (slots curr).emptied
          len := if map.len > 0 then map.len - 1 else map.len },
        .ok oldValue)

/-- The loop of `hashmap_iter_next` with `left` slots to go: the slot whose key and value are
pointed to, absent when it returns false, and the index left behind. -/
def hmIterLoop (map : HashMap K V Ctx) : Nat → Nat → Option Nat × Nat
  | 0, iter => (none, iter)
  | left + 1, iter =>
    let slot := map.slots iter
    if slot.occupied then (some iter, iter + 1) else hmIterLoop map left (iter + 1)

/-- `hashmap_iter_next`. -/
def hashmapIterNext (map : HashMap K V Ctx) (iter : Nat) : Option Nat × Nat :=
  hmIterLoop map (map.capacity - iter) iter

/-- The mutating calls on a map. -/
inductive HashmapOp (K V : Type*) where
  /-- `hashmap_insert` -/
  | insert (key : Option K) (val : Option V)
  /-- `hashmap_remove` -/
  | remove (key : Option K)
  /-- `hashmap_clear` -/
  | clear

/-- What a mutating call answers. -/
inductive HashmapOut (V : Type*) where
  /-- Result of `hashmap_insert`. -/
  | inserted (r : Except Error Bool)
  /-- Result of `hashmap_remove`. -/
  | removed (r : Except Error V)
  /-- `hashmap_clear` returns nothing. -/
  | cleared

/-- One call on the map. No call of these aborts on an initialised map. -/
def hashmapStep (fns : HashFns K Ctx) (map : HashMap K V Ctx) :
    HashmapOp K V → Except String (HashmapOut V × HashMap K V Ctx)
  | .insert key val =>
    .ok (.inserted (hashmapInsert fns map key val).2, (hashmapInsert fns map key val).1)
  | .remove key => .ok (.removed (hashmapRemove fns map key).2, (hashmapRemove fns map key).1)
  | .clear => .ok (.cleared, hashmapClear map)

end CanonC
