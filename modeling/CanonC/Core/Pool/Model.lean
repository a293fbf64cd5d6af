import CanonC.Core.Arena.Regions
import CanonC.Core.Checked

/-!
# The pool as the code computes it

A pool reserves one region of an arena and hands out its slots in order. The mark of the
region is taken from the address that the arena returned, behind the padding. A reset
rolls the arena back to that mark and reserves the region again.
-/

namespace CanonC

open Toolkit

/-- The pool structure over a given arena. -/
structure Pool where
  /-- Aligned size of an object in bytes. -/
  objectSize : Nat
  /-- Number of objects. -/
  capacity : Nat
  /-- Number of objects handed out. -/
  used : Nat
  /-- Offset of the first slot in the buffer of the arena. -/
  baseMark : Nat
  /-- Offset behind the last slot. -/
  endMark : Nat

/-- `pool_init` of a pool structure with any content. -/
def poolInit (pool : Pool) (arena : Arena) (objectSize maxObjects : Nat) :
    Except String (Pool × Arena × Bool) := do
  requireMsg (0 < objectSize) "pool_init: object_size must be > 0"
  requireMsg (0 < maxObjects) "pool_init: max_objects must be > 0"
  let alignedSize ← memAlign objectSize
  if alignedSize = usizeMax then .ok (pool, arena, false)
  else
    match checkedMul alignedSize maxObjects with
    | none => .ok (pool, arena, false)
    | some needed =>
      if needed > arenaRemaining arena then .ok (pool, arena, false)
      else do
        let pool := { pool with objectSize := alignedSize, capacity := maxObjects, used := 0 }
        let (arena, region) ← arenaAlloc arena needed
        if region = 0 then .ok (pool, arena, false)
        else
          let regionOff := usizeSub region arena.buffer
          .ok ({ pool with baseMark := regionOff, endMark := arenaMark arena }, arena, true)

/-- `pool_alloc`: the pool left and the address of the slot, zero when the pool is full. -/
def poolAlloc (pool : Pool) (arena : Arena) : Except String (Pool × Nat) :=
  if pool.used ≥ pool.capacity then .ok (pool, 0)
  else do
    let base ← ptrOffset arena.buffer pool.baseMark
    let slot ← ptrElem base pool.used pool.objectSize
    .ok ({ pool with used := pool.used + 1 }, slot)

/-- `pool_reset`. -/
def poolReset (pool : Pool) (arena : Arena) : Except String (Pool × Arena) := do
  let arena ← arenaResetTo arena pool.baseMark
  let pool := { pool with used := 0 }
  let needed := usizeMul pool.objectSize pool.capacity
  let (arena, region) ← arenaAlloc arena needed
  requireMsg (region ≠ 0) "pool_reset: failed to re-reserve pool region after rollback"
  .ok (pool, arena)

/-- The region that a pool has in a buffer. -/
def Pool.region (buffer : Nat) (pool : Pool) : Block :=
  ⟨buffer + pool.baseMark, pool.objectSize * pool.capacity⟩

/-- The slots of a pool in a buffer. -/
def Pool.slots (buffer : Nat) (pool : Pool) : List Block :=
  Block.array (buffer + pool.baseMark) pool.objectSize pool.capacity

/-- The calls on the pools of an arena and on the arena itself; a pool is named by the number of
pools that were initialised after it and are still in use. -/
inductive PoolOp where
  /-- `pool_init` of one more pool, in a structure with any content -/
  | init (pool : Pool) (objectSize maxObjects : Usize)
  /-- `pool_alloc` -/
  | alloc (k : Nat)
  /-- `pool_reset` -/
  | reset (k : Nat)
  /-- A call on the arena. -/
  | arena (op : ArenaOp)

/-- What a call answers. -/
inductive PoolOut where
  /-- A flag. -/
  | flag (ok : Bool)
  /-- The address returned, zero for NULL. -/
  | ptr (p : Nat)
  /-- The answer of the arena. -/
  | arena (o : ArenaOut)
  /-- Nothing. -/
  | done

/-- An arena and the pools on it that are in use, the newest first. -/
structure PoolState where
  /-- The arena with its allocations in use. -/
  arena : ArenaState
  /-- The pools whose regions are in use. -/
  pools : List Pool

/-- The fault of a call on a pool that is not in use. -/
def poolNotInUse : String := "pool is not in use"

/-- The pools that stay in use after a call on the arena: a rollback takes back the regions that
reach past the mark. -/
def ArenaOp.keepPools (pools : List Pool) : ArenaOp → List Pool
  | .resetTo m => pools.filter fun pool => pool.baseMark + pool.objectSize * pool.capacity ≤ m
  | .reset => []
  | _ => pools

/-- One call, with the allocations and the pools in use kept track of. A reset takes back what was
allocated after the pool, later pools included. -/
def poolStep (s : PoolState) : PoolOp → Except String (PoolOut × PoolState)
  | .init pool objectSize maxObjects => do
    let (pool, arena, ok) ← poolInit pool s.arena.arena objectSize maxObjects
    if ok then
      .ok (.flag true,
        ⟨⟨arena, s.arena.mem, pool.region arena.buffer :: s.arena.live⟩, pool :: s.pools⟩)
    else .ok (.flag false, ⟨{ s.arena with arena }, s.pools⟩)
  | .alloc k =>
    match s.pools[k]? with
    | none => .error poolNotInUse
    | some pool => do
      let (pool, p) ← poolAlloc pool s.arena.arena
      .ok (.ptr p, { s with pools := s.pools.set k pool })
  | .reset k =>
    match s.pools[k]? with
    | none => .error poolNotInUse
    | some pool => do
      let older := s.arena.live.filter fun b => b.stop ≤ s.arena.arena.buffer + pool.baseMark
      let (pool, arena) ← poolReset pool s.arena.arena
      .ok (.done, ⟨⟨arena, s.arena.mem, pool.region arena.buffer :: older⟩,
        pool :: s.pools.drop (k + 1)⟩)
  | .arena op => do
    let (o, arena) ← arenaLiveStep s.arena op
    .ok (.arena o, ⟨arena, op.keepPools s.pools⟩)

end CanonC
