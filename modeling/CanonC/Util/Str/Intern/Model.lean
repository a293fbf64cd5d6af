import CanonC.Core.Arena.Model
import CanonC.Core.Memory
import CanonC.Util.Str.View

/-!
# The string intern pool as the code computes it

An open-addressing table of views into an arena. A search starts at the hash of the
string and steps to the next slot; the first empty slot ends it with an insertion.
-/

namespace CanonC

open Toolkit

/-- The pool, with the arena it allocates from and the memory both lie in. -/
structure InternPool where
  /-- All interned string data lives here. -/
  arena : Arena
  /-- The memory of the arena's buffer. -/
  mem : Memory
  table : Nat
  /-- The views in the table. -/
  entries : Nat → StrView
  /-- Total number of slots. -/
  capacity : Nat
  /-- Number of strings interned. -/
  count : Nat

/-- `intern_hash_`: FNV-1a, with zero mapped to one. -/
def internHash (s : List UInt8) : BitVec 64 :=
  let h := s.foldl (fun h b => (h ^^^ b.toBitVec.setWidth 64) * 1099511628211#64)
    14695981039346656037#64
  if h != 0 then h else 1

/-- The insertion of `intern_string` at an empty slot. -/
def internInsert (pool : InternPool) (str : CString) (index : Nat) :
    Except String (StrView × InternPool) :=
  if pool.count ≥ pool.capacity then .ok (strViewNull, pool)
  else do
    let (arena, copy) ← arenaAlloc pool.arena (usizeAdd (strLen str) 1)
    if copy = 0 then .ok (strViewNull, { pool with arena })
    else
      let mem := memCopy pool.mem copy str.bytes
      let mem := Function.update mem (copy + strLen str) 0
      let entry : StrView := ⟨copy, strLen str⟩
      .ok (entry, { pool with
        arena, mem, entries := Function.update pool.entries index entry, count := pool.count + 1 })

/-- The slots of the table that lie in the memory allocated for it. -/
def InternPool.tableSlots (pool : InternPool) : Nat :=
  usizeMul pool.capacity sizeofStrView / sizeofStrView

/-- A table whose size did not wrap has all its slots in its memory. -/
theorem InternPool.tableSlots_eq {pool : InternPool}
    (hreal : pool.capacity * sizeofStrView < usizeSize) : pool.tableSlots = pool.capacity := by
  rw [tableSlots, usizeMul_of_lt hreal, Nat.mul_div_cancel _ (by decide)]

/-- The loop of `intern_string`, with the number of probes left. A slot outside the memory of the
table is a fault. -/
def internLoop (pool : InternPool) (str : CString) : Nat → Nat →
    Except String (StrView × InternPool)
  | 0, _ => .ok (strViewNull, pool)
  | probes + 1, index =>
    if index < pool.tableSlots then
      let entry := pool.entries index
      if entry.ptr = 0 then internInsert pool str index
      else if entry.len = strLen str ∧
          memCompare (Cells.read pool.mem entry.ptr (strLen str)) str.bytes = 0 then
        .ok (entry, pool)
      else internLoop pool str probes (usizeAdd index 1 % pool.capacity)
    else .error outOfBounds

/-- `intern_string`; an absent string is a NULL pointer. -/
def internString (pool : InternPool) (s : Option CString) :
    Except String (StrView × InternPool) :=
  if pool.table = 0 then .error "intern_string: pool->entries is NULL"
  else
    let str := s.getD .empty
    internLoop pool str pool.capacity ((internHash str.bytes).toNat % pool.capacity)

/-- `intern_pool_init`, absent where it returns false. -/
def internPoolInit (arena : Arena) (mem : Memory) (capacity : Nat) :
    Except String (Option InternPool) := do
  requireMsg (0 < capacity) "intern_pool_init: capacity is 0"
  let (arena, entries) ← arenaAlloc arena (usizeMul capacity sizeofStrView)
  if entries = 0 then .ok none
  else
    let mem := memSet mem entries 0 (usizeMul capacity sizeofStrView)
    let (_, pool) ← internString ⟨arena, mem, entries, fun _ => strViewNull, capacity, 0⟩
      (some .empty)
    .ok (some pool)

/-- What may happen to a pool and its arena. -/
inductive InternOp where
  /-- `intern_string` -/
  | intern (s : Option CString)
  /-- `arena_alloc` by another user of the arena, who fills the memory obtained -/
  | allocate (size : Usize) (contents : List UInt8)

/-- One event; a call on the pool answers with a view. -/
def internStep (pool : InternPool) : InternOp → Except String (Option StrView × InternPool)
  | .intern s => do
    let (view, pool) ← internString pool s
    .ok (some view, pool)
  | .allocate size contents => do
    let (arena, p) ← arenaAlloc pool.arena size
    let mem := if p = 0 then pool.mem else memCopy pool.mem p (contents.take size)
    .ok (none, { pool with arena, mem })

/-- `intern_equals`. -/
def internEquals (a b : StrView) : Bool := a.ptr == b.ptr

/-- `intern_count`. -/
def internCount (pool : InternPool) : Nat := pool.count

end CanonC
