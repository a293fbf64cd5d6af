import CanonC.Core.Memory
import Mathlib.Logic.Function.Basic

/-!
# The deque as the code computes it

A ring over a caller-owned buffer: `head` is the index of the front element, `tail`
the index of the next slot at the back. The three tiers of the push operations are
written out separately in the source, and so they are here.
-/

namespace CanonC

/-- `CANON_DEQUE_MAX_CAPACITY`, in bytes. -/
def dequeMaxCapacity : Nat := 2 ^ 30

/-- The deque structure; an absent buffer is a NULL pointer. -/
structure Deque (α : Type*) where
  /-- Element storage. -/
  buffer : Option (Nat → α)
  /-- Number of slots. -/
  capacity : Nat
  /-- Index of the front element. -/
  head : Nat
  /-- Index of the next slot at the back. -/
  tail : Nat
  /-- Number of elements. -/
  size : Nat

variable {α : Type*}

/-- `deque_init`. -/
def dequeInit (fn : String) (buffer : Option (Nat → α)) (capacity elemSize : Nat) :
    Except String (Deque α) := do
  requireMsg buffer.isSome (fn ++ ": buffer cannot be NULL")
  requireMsg (0 < capacity) (fn ++ ": capacity must be > 0")
  requireMsg (capacity ≤ dequeMaxCapacity / elemSize)
    (fn ++ ": capacity exceeds CANON_DEQUE_MAX_CAPACITY")
  .ok ⟨buffer, capacity, 0, 0, 0⟩

/-- `deque_push_front`. -/
def dequePushFront (d : Deque α) (item : α) : Deque α × Except Error Bool :=
  match d.buffer with
  | none => (d, .error .invalidArg)
  | some buffer =>
    if d.size ≥ d.capacity then (d, .error .capacityExceeded)
    else
      let head := if d.head = 0 then d.capacity - 1 else d.head - 1
      ({ d with buffer := some (Function.update buffer head item), head, size := d.size + 1 },
        .ok true)

/-- `deque_push_back`. -/
def dequePushBack (d : Deque α) (item : α) : Deque α × Except Error Bool :=
  match d.buffer with
  | none => (d, .error .invalidArg)
  | some buffer =>
    if d.size ≥ d.capacity then (d, .error .capacityExceeded)
    else
      ({ d with
        buffer := some (Function.update buffer d.tail item)
        tail := usizeAdd d.tail 1 % d.capacity
        size := d.size + 1 }, .ok true)

/-- `deque_try_push_front`. -/
def dequeTryPushFront (d : Deque α) (item : α) : Deque α × Bool :=
  match d.buffer with
  | none => (d, false)
  | some buffer =>
    if d.size ≥ d.capacity then (d, false)
    else
      let head := if d.head = 0 then d.capacity - 1 else d.head - 1
      ({ d with buffer := some (Function.update buffer head item), head, size := d.size + 1 },
        true)

/-- `deque_try_push_back`. -/
def dequeTryPushBack (d : Deque α) (item : α) : Deque α × Bool :=
  match d.buffer with
  | none => (d, false)
  | some buffer =>
    if d.size ≥ d.capacity then (d, false)
    else
      ({ d with
        buffer := some (Function.update buffer d.tail item)
        tail := usizeAdd d.tail 1 % d.capacity
        size := d.size + 1 }, true)

/-- `deque_push_front_unchecked`, with its assertions. -/
def dequePushFrontUnchecked (fn : String) (d : Deque α) (item : α) : Except String (Deque α) :=
  match d.buffer with
  | none => .error (fn ++ ": d->buffer cannot be NULL")
  | some buffer => do
    requireMsg (d.size < d.capacity) (fn ++ ": deque is full")
    let head := if d.head = 0 then d.capacity - 1 else d.head - 1
    .ok { d with buffer := some (Function.update buffer head item), head, size := d.size + 1 }

/-- `deque_push_back_unchecked`, with its assertions. -/
def dequePushBackUnchecked (fn : String) (d : Deque α) (item : α) : Except String (Deque α) :=
  match d.buffer with
  | none => .error (fn ++ ": d->buffer cannot be NULL")
  | some buffer => do
    requireMsg (d.size < d.capacity) (fn ++ ": deque is full")
    .ok { d with
      buffer := some (Function.update buffer d.tail item)
      tail := usizeAdd d.tail 1 % d.capacity
      size := d.size + 1 }

/-- `deque_pop_front`: its result and what is written through `out`, if anything. -/
def dequePopFront (d : Deque α) (out : Bool) : Deque α × Except Error Bool × Option α :=
  if !out then (d, .error .invalidArg, none)
  else
    match d.buffer with
    | none => (d, .error .invalidArg, none)
    | some buffer =>
      if d.size = 0 then (d, .error .invalidState, none)
      else
        ({ d with head := usizeAdd d.head 1 % d.capacity, size := d.size - 1 },
          .ok true, some (buffer d.head))

/-- `deque_pop_back`: its result and what is written through `out`, if anything. -/
def dequePopBack (d : Deque α) (out : Bool) : Deque α × Except Error Bool × Option α :=
  if !out then (d, .error .invalidArg, none)
  else
    match d.buffer with
    | none => (d, .error .invalidArg, none)
    | some buffer =>
      if d.size = 0 then (d, .error .invalidState, none)
      else
        let tail := if d.tail = 0 then d.capacity - 1 else d.tail - 1
        ({ d with tail, size := d.size - 1 }, .ok true, some (buffer tail))

/-- `deque_pop_front_option`. -/
def dequePopFrontOption (d : Deque α) : Deque α × Option α :=
  let (d, result, out) := dequePopFront d true
  if result.isOk then (d, out) else (d, none)

/-- `deque_pop_back_option`. -/
def dequePopBackOption (d : Deque α) : Deque α × Option α :=
  let (d, result, out) := dequePopBack d true
  if result.isOk then (d, out) else (d, none)

/-- `deque_peek_front`: the flag returned and what is written through `out`, if anything. -/
def dequePeekFront (fn : String) (d : Deque α) (out : Bool) : Except String (Bool × Option α) := do
  requireMsg out (fn ++ ": out cannot be NULL")
  if d.size = 0 then .ok (false, none)
  else
    match d.buffer with
    | none => .error outOfBounds
    | some buffer => .ok (true, some (buffer d.head))

/-- `deque_peek_back`: the flag returned and what is written through `out`, if anything. -/
def dequePeekBack (fn : String) (d : Deque α) (out : Bool) : Except String (Bool × Option α) := do
  requireMsg out (fn ++ ": out cannot be NULL")
  if d.size = 0 then .ok (false, none)
  else
    let backIdx := if d.tail = 0 then d.capacity - 1 else d.tail - 1
    match d.buffer with
    | none => .error outOfBounds
    | some buffer => .ok (true, some (buffer backIdx))

/-- `deque_peek_front_option`. -/
def dequePeekFrontOption (fn : String) (d : Deque α) : Except String (Option α) := do
  let (found, out) ← dequePeekFront fn d true
  .ok (if found then out else none)

/-- `deque_peek_back_option`. -/
def dequePeekBackOption (fn : String) (d : Deque α) : Except String (Option α) := do
  let (found, out) ← dequePeekBack fn d true
  .ok (if found then out else none)

/-- `deque_len`. -/
def dequeLen (d : Deque α) : Nat := d.size

/-- `deque_capacity`. -/
def dequeCapacity (d : Deque α) : Nat := d.capacity

/-- `deque_remaining`. -/
def dequeRemaining (d : Deque α) : Nat := usizeSub d.capacity d.size

/-- `deque_is_empty`. -/
def dequeIsEmpty (d : Deque α) : Bool := d.size = 0

/-- `deque_is_full`. -/
def dequeIsFull (d : Deque α) : Bool := d.size ≥ d.capacity

/-- `deque_clear`. -/
def dequeClear (d : Deque α) : Deque α := { d with size := 0, head := 0, tail := 0 }

/-- The two ends of a deque. -/
inductive DequeEnd where
  /-- The end of `head`. -/
  | front
  /-- The end of `tail`. -/
  | back

/-- The calls on a deque. -/
inductive DequeOp (α : Type*) where
  /-- `deque_push_front`, `deque_push_back` -/
  | push (side : DequeEnd) (item : α)
  /-- `deque_try_push_front`, `deque_try_push_back` -/
  | tryPush (side : DequeEnd) (item : α)
  /-- `deque_push_front_unchecked`, `deque_push_back_unchecked` -/
  | pushUnchecked (side : DequeEnd) (item : α)
  /-- `deque_pop_front`, `deque_pop_back`, with or without a place for the element -/
  | pop (side : DequeEnd) (out : Bool)
  /-- `deque_pop_front_option`, `deque_pop_back_option` -/
  | popOption (side : DequeEnd)
  /-- `deque_peek_front`, `deque_peek_back`, with or without a place for the element -/
  | peek (side : DequeEnd) (out : Bool)
  /-- `deque_peek_front_option`, `deque_peek_back_option` -/
  | peekOption (side : DequeEnd)
  /-- `deque_clear` -/
  | clear

/-- What a call answers. -/
inductive DequeOut (α : Type*) where
  /-- A result and the element written, if any. -/
  | result (r : Except Error Bool) (out : Option α)
  /-- A flag and the element written, if any. -/
  | flag (ok : Bool) (out : Option α)
  /-- An optional element. -/
  | option (item : Option α)
  /-- Nothing. -/
  | done

/-- One call on the deque; `mangle` is the naming scheme of the generated functions. -/
def dequeStep (mangle : String → String) (d : Deque α) :
    DequeOp α → Except String (DequeOut α × Deque α)
  | .push .front item => .ok (.result (dequePushFront d item).2 none, (dequePushFront d item).1)
  | .push .back item => .ok (.result (dequePushBack d item).2 none, (dequePushBack d item).1)
  | .tryPush .front item =>
    .ok (.flag (dequeTryPushFront d item).2 none, (dequeTryPushFront d item).1)
  | .tryPush .back item => .ok (.flag (dequeTryPushBack d item).2 none, (dequeTryPushBack d item).1)
  | .pushUnchecked .front item => do
    let d ← dequePushFrontUnchecked (mangle "push_front_unchecked") d item
    .ok (.done, d)
  | .pushUnchecked .back item => do
    let d ← dequePushBackUnchecked (mangle "push_back_unchecked") d item
    .ok (.done, d)
  | .pop .front out => .ok (.result (dequePopFront d out).2.1 (dequePopFront d out).2.2,
      (dequePopFront d out).1)
  | .pop .back out => .ok (.result (dequePopBack d out).2.1 (dequePopBack d out).2.2,
      (dequePopBack d out).1)
  | .popOption .front => .ok (.option (dequePopFrontOption d).2, (dequePopFrontOption d).1)
  | .popOption .back => .ok (.option (dequePopBackOption d).2, (dequePopBackOption d).1)
  | .peek .front out => do
    let (found, item) ← dequePeekFront (mangle "peek_front") d out
    .ok (.flag found item, d)
  | .peek .back out => do
    let (found, item) ← dequePeekBack (mangle "peek_back") d out
    .ok (.flag found item, d)
  | .peekOption .front => do
    let item ← dequePeekFrontOption (mangle "peek_front") d
    .ok (.option item, d)
  | .peekOption .back => do
    let item ← dequePeekBackOption (mangle "peek_back") d
    .ok (.option item, d)
  | .clear => .ok (.done, dequeClear d)

end CanonC
