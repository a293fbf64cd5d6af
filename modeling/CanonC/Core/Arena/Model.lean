import CanonC.Core.Bytes
import CanonC.Core.Ptr

/-!
# The arena as the code computes it

A bump allocator over a caller-owned buffer. The padding comes from the address of the
next free byte; sums of `usize` values wrap and are guarded before they are used. A
returned address of zero is NULL.
-/

namespace CanonC

/-- `CANON_ARENA_MAX_SIZE`. -/
def arenaMaxSize : Nat := 2 ^ 30

/-- The arena over a buffer that is an object in the address space. -/
structure Arena where
  /-- Address of the first byte of the buffer. -/
  buffer : Nat
  /-- Number of bytes in the buffer. -/
  capacity : Nat
  /-- Number of bytes consumed. -/
  offset : Nat
  /-- Alignment padding since the last reset. -/
  paddingAccum : Nat
  /-- The buffer is not NULL. -/
  buffer_pos : 0 < buffer
  /-- The end of the buffer is an address. -/
  capacity_fits : buffer + capacity ≤ usizeMax
  /-- The bytes consumed are bytes of the buffer. -/
  offset_le : offset ≤ capacity

/-- `arena_init`, over an object of `capacity` bytes. -/
def arenaInit (buffer capacity : Nat) (hobj : buffer + capacity ≤ usizeMax) :
    Except String Arena :=
  if hbuf : 0 < buffer then do
    requireMsg (0 < capacity) "arena_init: capacity must be > 0"
    requireMsg (capacity ≤ arenaMaxSize) "arena_init: capacity exceeds CANON_ARENA_MAX_SIZE"
    .ok ⟨buffer, capacity, 0, 0, hbuf, hobj, Nat.zero_le _⟩
  else .error "arena_init: buffer cannot be NULL"

/-- `arena_reset`. -/
def arenaReset (arena : Arena) : Arena :=
  { arena with offset := 0, paddingAccum := 0, offset_le := Nat.zero_le _ }

/-- The common body of `arena_alloc` and `arena_alloc_aligned` for a size that is not zero. -/
def arenaBump (arena : Arena) (size alignment : Nat) : Except String (Arena × Nat) := do
  let current ← ptrOffset arena.buffer arena.offset
  let pad := ptrAlignPadding current alignment
  if h : arena.offset > usizeSub usizeMax pad ∨
      usizeAdd arena.offset pad > usizeSub usizeMax size ∨
      usizeAdd (usizeAdd arena.offset pad) size > arena.capacity then
    .ok (arena, 0)
  else
    let result ← ptrOffset arena.buffer (usizeAdd arena.offset pad)
    .ok ({ arena with
      offset := usizeAdd (usizeAdd arena.offset pad) size
      paddingAccum := usizeAdd arena.paddingAccum pad
      offset_le := Nat.le_of_not_lt fun h' => h (Or.inr (Or.inr h')) }, result)

/-- `arena_alloc`. -/
def arenaAlloc (arena : Arena) (size : Nat) : Except String (Arena × Nat) :=
  if size = 0 then .ok (arena, 0) else arenaBump arena size defaultAlign

/-- `arena_alloc_aligned`. -/
def arenaAllocAligned (arena : Arena) (size alignment : Nat) : Except String (Arena × Nat) := do
  requireMsg (isPowerOfTwo alignment) "arena_alloc_aligned: alignment must be a power of 2"
  if size = 0 then .ok (arena, 0) else arenaBump arena size alignment

/-- `arena_alloc_zero`. -/
def arenaAllocZero (arena : Arena) (mem : Memory) (size : Nat) :
    Except String (Arena × Memory × Nat) := do
  let (arena, p) ← arenaAlloc arena size
  .ok (arena, if p ≠ 0 then memZero mem p size else mem, p)

/-- `arena_alloc_aligned_zero`. -/
def arenaAllocAlignedZero (arena : Arena) (mem : Memory) (size alignment : Nat) :
    Except String (Arena × Memory × Nat) := do
  let (arena, p) ← arenaAllocAligned arena size alignment
  .ok (arena, if p ≠ 0 then memZero mem p size else mem, p)

/-- `arena_remaining`. -/
def arenaRemaining (arena : Arena) : Nat := usizeSub arena.capacity arena.offset

/-- `arena_mark`. -/
def arenaMark (arena : Arena) : Nat := arena.offset

/-- `arena_reset_to`. -/
def arenaResetTo (arena : Arena) (mark : Nat) : Except String Arena :=
  if h : mark ≤ arena.offset then
    .ok { arena with offset := mark, offset_le := Nat.le_trans h arena.offset_le }
  else .error "arena_reset_to: mark is ahead of current offset"

/-- The calls on an arena. -/
inductive ArenaOp where
  /-- `arena_alloc` -/
  | alloc (size : Usize)
  /-- `arena_alloc_aligned` -/
  | allocAligned (size alignment : Usize)
  /-- `arena_alloc_zero` -/
  | allocZero (size : Usize)
  /-- `arena_alloc_aligned_zero` -/
  | allocAlignedZero (size alignment : Usize)
  /-- `arena_mark` -/
  | mark
  /-- `arena_reset_to` -/
  | resetTo (mark : Usize)
  /-- `arena_reset` -/
  | reset

/-- What a call answers. -/
inductive ArenaOut where
  /-- The address returned, zero for NULL. -/
  | ptr (p : Nat)
  /-- The mark taken. -/
  | mark (m : Nat)
  /-- Nothing. -/
  | done

/-- One call on the arena and the memory its buffer lies in. -/
def arenaStep (arena : Arena) (mem : Memory) :
    ArenaOp → Except String (ArenaOut × Arena × Memory)
  | .alloc size => do
    let (arena, p) ← arenaAlloc arena size
    .ok (.ptr p, arena, mem)
  | .allocAligned size alignment => do
    let (arena, p) ← arenaAllocAligned arena size alignment
    .ok (.ptr p, arena, mem)
  | .allocZero size => do
    let (arena, mem, p) ← arenaAllocZero arena mem size
    .ok (.ptr p, arena, mem)
  | .allocAlignedZero size alignment => do
    let (arena, mem, p) ← arenaAllocAlignedZero arena mem size alignment
    .ok (.ptr p, arena, mem)
  | .mark => .ok (.mark (arenaMark arena), arena, mem)
  | .resetTo mark => do
    let arena ← arenaResetTo arena mark
    .ok (.done, arena, mem)
  | .reset => .ok (.done, arenaReset arena, mem)

end CanonC
