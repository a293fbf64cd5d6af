import CanonC.Core.Lifetime
import Mathlib.Logic.Function.Basic

/-!
# The region as the code computes it

A lifetime token with an identifier, an optional arena and a table of cleanup hooks. The
identifier is the address of the object, and an address of zero is NULL. What a hook does
to the region while `region_end` runs it is a list of calls; the hooks are told apart by
the order in which they are run.
-/

namespace CanonC

/-- A registered cleanup hook. -/
structure RegionCleanup where
  /-- Address of the cleanup function. -/
  fn : Nat
  /-- Context given by the caller. -/
  ctx : Nat
  deriving DecidableEq

/-- The region structure. -/
structure Region where
  /-- Identifier set by `region_begin`. -/
  id : Nat
  /-- The region is between `region_begin` and `region_end`. -/
  isOpen : Bool
  /-- Address of the attached arena. -/
  arena : Nat
  /-- The table of hooks. -/
  cleanups : Nat → RegionCleanup
  /-- Number of registered hooks. -/
  numHooks : Nat

/-- What happens to the hooks and the arena of a region. -/
inductive RegionEvent where
  /-- `region_register` was called and answered. -/
  | registered (hook : RegionCleanup) (accepted : Bool)
  /-- `region_end` called a hook. -/
  | called (hook : RegionCleanup)
  /-- `region_end` reset the arena at this address. -/
  | arenaReset (arena : Nat)
  deriving DecidableEq

/-- `region_begin` on the object at address `self`. -/
def regionBegin (self : Nat) : Except String Region := do
  requireMsg (self ≠ 0) "region_begin: r cannot be NULL"
  .ok ⟨self, true, 0, fun _ => ⟨0, 0⟩, 0⟩

/-- `region_attach_arena`. -/
def regionAttachArena (r : Region) (arena : Nat) : Except String Region := do
  requireMsg r.isOpen "region_attach_arena: region is not open"
  requireMsg (arena ≠ 0) "region_attach_arena: arena cannot be NULL"
  .ok { r with arena }

/-- `region_register`, with a table of `maxCleanup` slots. -/
def regionRegister (maxCleanup : Nat) (r : Region) (hook : RegionCleanup) :
    Except String (Region × Bool) := do
  requireMsg r.isOpen "region_register: region is not open"
  requireMsg (hook.fn ≠ 0) "region_register: fn cannot be NULL"
  if r.numHooks ≥ maxCleanup then .ok (r, false)
  else .ok ({ r with
    cleanups := Function.update r.cleanups r.numHooks hook
    numHooks := r.numHooks + 1 }, true)

/-- The calls on an open region that neither open nor close it. -/
inductive RegionCall where
  /-- `region_register` -/
  | register (hook : RegionCleanup)
  /-- `region_attach_arena` -/
  | attachArena (arena : Nat)

/-- Calls in a row: the region they leave and what happened. -/
def regionCalls (maxCleanup : Nat) :
    List RegionCall → Region → Except String (Region × List RegionEvent)
  | [], r => .ok (r, [])
  | .register hook :: calls, r => do
    let (r, accepted) ← regionRegister maxCleanup r hook
    let (r, log) ← regionCalls maxCleanup calls r
    .ok (r, .registered hook accepted :: log)
  | .attachArena arena :: calls, r => do
    let r ← regionAttachArena r arena
    regionCalls maxCleanup calls r

/-- The loop of `region_end` over the slots below `i`, with `k` hooks called before; the
hook called next makes the calls `hookCalls k`. -/
def regionWalk (maxCleanup : Nat) (hookCalls : Nat → List RegionCall) :
    Nat → Nat → Region → Except String (Region × List RegionEvent)
  | 0, _, r => .ok (r, [])
  | i + 1, k, r =>
    let hook := r.cleanups i
    if hook.fn = 0 then regionWalk maxCleanup hookCalls i k r
    else do
      let (r, log) ← regionCalls maxCleanup (hookCalls k) r
      let r := { r with cleanups := Function.update r.cleanups i ⟨0, 0⟩ }
      let (r, rest) ← regionWalk maxCleanup hookCalls i (k + 1) r
      .ok (r, .called hook :: log ++ rest)

/-- `region_end`: the region left behind and what happened. -/
def regionEnd (maxCleanup : Nat) (hookCalls : Nat → List RegionCall) (r : Region) :
    Except String (Region × List RegionEvent) := do
  requireMsg r.isOpen "region_end: region is already closed"
  let savedArena := r.arena
  let (r, log) ← regionWalk maxCleanup hookCalls r.numHooks 0 r
  .ok ({ r with numHooks := 0, arena := 0, isOpen := false },
    if savedArena ≠ 0 then log ++ [.arenaReset savedArena] else log)

/-- A whole lifetime: `region_begin`, calls on the open region and `region_end`. -/
def regionLifetime (maxCleanup self : Nat) (calls : List RegionCall)
    (hookCalls : Nat → List RegionCall) : Except String (Region × List RegionEvent) := do
  let r ← regionBegin self
  let (r, before) ← regionCalls maxCleanup calls r
  let (r, log) ← regionEnd maxCleanup hookCalls r
  .ok (r, before ++ log)

/-- The calls that drive the lifetimes of a region object. -/
inductive RegionOp where
  /-- `region_begin` -/
  | begin
  /-- `region_register`, `region_attach_arena` -/
  | call (call : RegionCall)
  /-- `region_end`, with the calls its hooks make -/
  | close (hookCalls : Nat → List RegionCall)

/-- One call on the region object at an address, among all such objects. -/
def regionStep (maxCleanup : Nat) (regions : Nat → Region) :
    Nat × RegionOp → Except String (List RegionEvent × (Nat → Region))
  | (self, .begin) => do
    let r ← regionBegin self
    .ok ([], Function.update regions self r)
  | (self, .call call) => do
    let (r, log) ← regionCalls maxCleanup [call] (regions self)
    .ok (log, Function.update regions self r)
  | (self, .close hookCalls) => do
    let (r, log) ← regionEnd maxCleanup hookCalls (regions self)
    .ok (log, Function.update regions self r)

/-- `region_id`; an absent region is a NULL pointer. -/
def regionId (r : Option Region) : Nat := (r.map Region.id).getD regionIdStatic

/-- `region_assert_borrow_valid`, in a build that keeps its checks; an absent region is a
NULL pointer. -/
def regionAssertBorrowValid (p : Option Region) (borrowRid : Nat) : Except String Unit :=
  if borrowRid = regionIdStatic then .ok ()
  else
    match p with
    | none => .error "region_assert_borrow_valid: r cannot be NULL"
    | some r => do
      requireMsg r.isOpen "region_assert_borrow_valid: region is closed"
      requireMsg (r.id = borrowRid) "region_assert_borrow_valid: ID mismatch — wrong region"

end CanonC
