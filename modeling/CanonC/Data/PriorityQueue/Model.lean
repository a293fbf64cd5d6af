import CanonC.Core.Compare
import Mathlib.Logic.Function.Basic

/-!
# The priority queue as the code computes it

A binary heap in a caller-owned buffer. Child indices are `usize` arithmetic, and the
contract of `pq_init` bounds the capacity so that they do not wrap; a queue carries
that bound and `len <= capacity` with it. Both sifts exchange elements in place.
-/

namespace CanonC

/-- The largest capacity that `pq_init` admits: `(CANON_USIZE_MAX - 2) / 2`. -/
def pqMaxCapacity : Nat := (usizeMax - 2) / 2

/-- The queue over a caller-owned buffer. -/
structure PriorityQueue (α Ctx : Type*) where
  /-- The buffer. -/
  data : Nat → α
  /-- Number of live elements. -/
  len : Nat
  /-- Number of slots. -/
  capacity : Nat
  /-- Three-way comparator. -/
  cmp : AlgoCmpFn α Ctx
  /-- Context forwarded to `cmp`. -/
  ctx : Ctx
  /-- Child indices do not wrap. -/
  capacity_le : capacity ≤ pqMaxCapacity
  /-- The live elements fit. -/
  len_le : len ≤ capacity

variable {α Ctx : Type*}

/-- `pq_parent_`, which requires `i > 0`. -/
def pqParent (i : Nat) (_ : 0 < i) : Nat := (i - 1) / 2

/-- `pq_left_child_`. -/
def pqLeftChild (i : Nat) : Nat := usizeAdd (usizeMul 2 i) 1

/-- `pq_right_child_`. -/
def pqRightChild (i : Nat) : Nat := usizeAdd (usizeMul 2 i) 2

/-- `pq_swap_`. -/
def pqSwap (data : Nat → α) (a b : Nat) : Nat → α :=
  if a == b then data
  else Function.update (Function.update data a (data b)) b (data a)

/-- The loop of `pq_sift_up_`. -/
def pqSiftUpLoop (cmp : AlgoCmpFn α Ctx) (ctx : Ctx) (data : Nat → α) (idx : Nat) : Nat → α :=
  if h : 0 < idx then
    let p := pqParent idx h
    if cmp (data p) (data idx) ctx ≤ 0 then data
    else pqSiftUpLoop cmp ctx (pqSwap data p idx) p
  else data
termination_by idx
decreasing_by simp only [pqParent]; omega

/-- The child that `pq_sift_down_` exchanges with, or `idx` where it stops. -/
def pqSmallest (cmp : AlgoCmpFn α Ctx) (ctx : Ctx) (data : Nat → α) (len idx : Nat) : Nat :=
  let left := pqLeftChild idx
  let right := pqRightChild idx
  let smallest := if left < len ∧ cmp (data left) (data idx) ctx < 0 then left else idx
  if right < len ∧ cmp (data right) (data smallest) ctx < 0 then right else smallest

/-- The index of a left child does not wrap. -/
theorem pqLeftChild_eq {len idx : Nat} (hlen : len ≤ pqMaxCapacity) (hidx : idx < len) :
    pqLeftChild idx = 2 * idx + 1 := by
  unfold pqMaxCapacity usizeMax at hlen
  rw [pqLeftChild, usizeMul_of_lt (by omega), usizeAdd_of_lt (by omega)]

/-- The index of a right child does not wrap. -/
theorem pqRightChild_eq {len idx : Nat} (hlen : len ≤ pqMaxCapacity) (hidx : idx < len) :
    pqRightChild idx = 2 * idx + 2 := by
  unfold pqMaxCapacity usizeMax at hlen
  rw [pqRightChild, usizeMul_of_lt (by omega), usizeAdd_of_lt (by omega)]

/-- The exchange goes strictly down and stays among the live elements. -/
theorem pqSmallest_lt {cmp : AlgoCmpFn α Ctx} {ctx : Ctx} {data : Nat → α} {len idx : Nat}
    (hlen : len ≤ pqMaxCapacity) (hidx : idx < len)
    (hne : pqSmallest cmp ctx data len idx ≠ idx) :
    idx < pqSmallest cmp ctx data len idx ∧ pqSmallest cmp ctx data len idx < len := by
  simp only [pqSmallest, pqLeftChild_eq hlen hidx, pqRightChild_eq hlen hidx] at hne ⊢
  split_ifs at hne ⊢ <;> omega

/-- The loop of `pq_sift_down_`. -/
def pqSiftDownLoop (cmp : AlgoCmpFn α Ctx) (ctx : Ctx) (len : Nat) (hlen : len ≤ pqMaxCapacity)
    (data : Nat → α) (idx : Nat) (hidx : idx < len) : Nat → α :=
  let smallest := pqSmallest cmp ctx data len idx
  if h : smallest = idx then data
  else
    pqSiftDownLoop cmp ctx len hlen (pqSwap data idx smallest) smallest
      (pqSmallest_lt hlen hidx h).2
termination_by len - idx
decreasing_by
  have hlt := pqSmallest_lt hlen hidx h
  omega

/-- `pq_sift_up_`. -/
def pqSiftUp (pq : PriorityQueue α Ctx) (i : Nat) : PriorityQueue α Ctx :=
  { pq with data := pqSiftUpLoop pq.cmp pq.ctx pq.data i }

/-- `pq_sift_down_`, which requires `i < pq->len`. -/
def pqSiftDown (pq : PriorityQueue α Ctx) (i : Nat) (hi : i < pq.len) : PriorityQueue α Ctx :=
  { pq with
    data := pqSiftDownLoop pq.cmp pq.ctx pq.len (Nat.le_trans pq.len_le pq.capacity_le) pq.data i
      hi }

/-- `pq_init`. The contract bounds the capacity; the code checks the rest. -/
def pqInit (buffer : Option (Nat → α)) (capacity elemSize : Nat)
    (cmp : Option (AlgoCmpFn α Ctx)) (ctx : Ctx) (hcap : capacity ≤ pqMaxCapacity) :
    Except String (PriorityQueue α Ctx) :=
  match buffer with
  | none => .error "pq_init: buffer cannot be NULL"
  | some data => do
    requireMsg (0 < capacity) "pq_init: capacity must be > 0"
    requireMsg (0 < elemSize) "pq_init: elem_size must be > 0"
    match cmp with
    | none => .error "pq_init: cmp cannot be NULL"
    | some cmp => .ok ⟨data, 0, capacity, cmp, ctx, hcap, Nat.zero_le _⟩

/-- The loop of `pq_heapify`, counting `i` down to zero. -/
def pqHeapifyLoop (pq : PriorityQueue α Ctx) : (i : Nat) → i ≤ pq.len → PriorityQueue α Ctx
  | 0, _ => pq
  | i + 1, hi => pqHeapifyLoop (pqSiftDown pq i hi) i (Nat.le_of_succ_le hi)

/-- `pq_heapify`. -/
def pqHeapify (pq : PriorityQueue α Ctx) (len : Nat) : Except String (PriorityQueue α Ctx) := do
  requireMsg (0 < pq.capacity) "pq_heapify: pq not initialized (capacity is 0)"
  if len = 0 then .ok { pq with len := 0, len_le := Nat.zero_le _ }
  else
    let n := if len > pq.capacity then pq.capacity else len
    let pq : PriorityQueue α Ctx :=
      { pq with len := n, len_le := by simp only [n]; split <;> omega }
    if h : 2 ≤ n then
      .ok (pqHeapifyLoop pq (pqParent (n - 1) (by omega) + 1)
        (by simp only [pqParent, pq]; omega))
    else .ok pq

/-- `pq_push_result`; an absent element is a NULL pointer. -/
def pqPushResult (pq : PriorityQueue α Ctx) (elem : Option α) :
    PriorityQueue α Ctx × Except Error Bool :=
  match elem with
  | none => (pq, .error .invalidArg)
  | some elem =>
    if h : pq.len ≥ pq.capacity then (pq, .error .capacityExceeded)
    else
      let pq : PriorityQueue α Ctx :=
        { pq with
          data := Function.update pq.data pq.len elem
          len := pq.len + 1
          len_le := Nat.lt_of_not_le h }
      (pqSiftUp pq (pq.len - 1), .ok true)

/-- `pq_pop_raw`: the flag returned and what is written through `out`, if anything. -/
def pqPopRaw (pq : PriorityQueue α Ctx) (out : Bool) :
    PriorityQueue α Ctx × Bool × Option α :=
  if pq.len = 0 then (pq, false, none)
  else
    let top := if out then some (pq.data 0) else none
    let pq : PriorityQueue α Ctx :=
      { pq with len := pq.len - 1, len_le := Nat.le_trans (Nat.sub_le _ _) pq.len_le }
    if h : 0 < pq.len then
      (pqSiftDown { pq with data := Function.update pq.data 0 (pq.data pq.len) } 0 h, true, top)
    else (pq, true, top)

/-- `pq_peek_raw`: the element at the returned pointer, absent for NULL. -/
def pqPeekRaw (pq : PriorityQueue α Ctx) : Option α :=
  if pq.len = 0 then none else some (pq.data 0)

/-- `pq_remove_at_result`. -/
def pqRemoveAtResult (pq : PriorityQueue α Ctx) (i : Nat) :
    PriorityQueue α Ctx × Except Error Bool :=
  if hi : i ≥ pq.len then (pq, .error .outOfRange)
  else
    let pq' : PriorityQueue α Ctx :=
      { pq with len := pq.len - 1, len_le := Nat.le_trans (Nat.sub_le _ _) pq.len_le }
    if h : i = pq'.len then (pq', .ok true)
    else
      let pq'' := { pq' with data := Function.update pq'.data i (pq'.data pq'.len) }
      (pqSiftDown (pqSiftUp pq'' i) i (by simp only [pqSiftUp, pq'', pq'] at h ⊢; omega), .ok true)

/-- The calls on a queue. -/
inductive PqOp (α : Type*) where
  /-- `pq_push_result` -/
  | push (elem : Option α)
  /-- `pq_pop_raw`, with or without a place for the element -/
  | pop (out : Bool)
  /-- `pq_peek_raw` -/
  | peek
  /-- `pq_remove_at_result` -/
  | removeAt (i : Nat)
  /-- `pq_heapify`, possibly after the caller has filled its buffer -/
  | heapify (filled : Option (Nat → α)) (len : Nat)

/-- What a call answers. -/
inductive PqOut (α : Type*) where
  /-- Result of `pq_push_result`. -/
  | pushed (r : Except Error Bool)
  /-- Flag of `pq_pop_raw` and the element written. -/
  | popped (ok : Bool) (out : Option α)
  /-- Element at the pointer of `pq_peek_raw`. -/
  | peeked (top : Option α)
  /-- Result of `pq_remove_at_result`. -/
  | removed (r : Except Error Bool)
  /-- `pq_heapify` returns nothing. -/
  | heapified

/-- One call on the queue. -/
def pqStep (pq : PriorityQueue α Ctx) :
    PqOp α → Except String (PqOut α × PriorityQueue α Ctx)
  | .push elem => .ok (.pushed (pqPushResult pq elem).2, (pqPushResult pq elem).1)
  | .pop out => .ok (.popped (pqPopRaw pq out).2.1 (pqPopRaw pq out).2.2, (pqPopRaw pq out).1)
  | .peek => .ok (.peeked (pqPeekRaw pq), pq)
  | .removeAt i => .ok (.removed (pqRemoveAtResult pq i).2, (pqRemoveAtResult pq i).1)
  | .heapify filled len => do
    let pq ← pqHeapify { pq with data := filled.getD pq.data } len
    .ok (.heapified, pq)

end CanonC
