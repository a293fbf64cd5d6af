import CanonC.Core.Types

/-!
# Lifetime tokens

An owner that tracks its lifetime carries an identifier and a flag. Identifiers are drawn
from a counter and the address of the owner, and the identifier of static data is never
drawn.
-/

namespace CanonC

/-- `REGION_ID_STATIC`. -/
def regionIdStatic : Nat := 0

/-- `lifetime_t`. An owner that was zeroed and never opened has the identifier of static data. -/
structure LifetimeT where
  /-- Identifier drawn last. -/
  id : Nat
  /-- The owner was opened, and not closed since. -/
  isOpen : Bool

/-- `canon_lifetime_next_id_`, when the counter stands at `c`. -/
def canonLifetimeNextId (c owner : Nat) : Nat :=
  let id := c ^^^ owner
  if id = regionIdStatic then 1 else id

/-- The token of an owner that is opened when the counter stands at `c`. -/
def lifetimeOpen (c owner : Nat) : LifetimeT := ⟨canonLifetimeNextId c owner, true⟩

/-- The token of an owner that is restamped when the counter stands at `c`. -/
def lifetimeRestamp (c owner : Nat) (lt : LifetimeT) : LifetimeT :=
  { lt with id := canonLifetimeNextId c owner }

/-- The token of an owner that is closed. -/
def lifetimeClose (lt : LifetimeT) : LifetimeT := { lt with isOpen := false }

/-- `lifetime_assert_valid`. -/
def lifetimeAssertValid (sourceId : Nat) (sourceOpen : Bool) (borrowId : Nat) (site : String) :
    Except String Unit :=
  if borrowId = regionIdStatic then .ok ()
  else do
    requireMsg sourceOpen site
    requireMsg (sourceId = borrowId) site

/-- The identifier of static data is never checked. -/
@[simp]
theorem lifetimeAssertValid_static {sourceId : Nat} {sourceOpen : Bool} {site : String} :
    lifetimeAssertValid sourceId sourceOpen regionIdStatic site = .ok () := if_pos rfl

/-- The check passes for an identifier that is not static exactly when the source is open and
has it. -/
theorem lifetimeAssertValid_eq {sourceId borrowId : Nat} {sourceOpen : Bool} {site : String}
    (hid : borrowId ≠ regionIdStatic) : lifetimeAssertValid sourceId sourceOpen borrowId site =
      if sourceOpen = true ∧ sourceId = borrowId then .ok () else .error site := by
  rw [lifetimeAssertValid, if_neg hid]
  cases sourceOpen
  · simp
  · by_cases h : sourceId = borrowId <;> simp [h]

end CanonC
