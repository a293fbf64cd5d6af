import CanonC.Core.Lifetime
import CanonC.Core.Slice
import CanonC.Core.Checked
import Mathlib.Logic.Function.Basic

/-!
# Borrows as the code computes them

In a build that tracks lifetimes a borrow carries the address of the token of its owner and
the identifier captured when it was built; views derived from it inherit both. Tokens are
found by their addresses, an address of zero is NULL, and an absent borrow is a NULL
pointer.
-/

namespace CanonC

/-- The borrow types, by what they wrap. -/
structure Borrowed (β : Type) where
  /-- The wrapped pointer or view. -/
  view : β
  /-- Address of the owning object, a tag. -/
  source : Nat
  /-- Address of the token of the owner. -/
  sourceLt : Nat
  /-- Identifier captured when the borrow was built. -/
  capturedId : Nat

/-- `borrowed_ptr`. -/
abbrev BorrowedPtr : Type := Borrowed Nat

/-- `borrowed_str`. -/
abbrev BorrowedStr : Type := Borrowed StrT

/-- `borrowed_bytes`. -/
abbrev BorrowedBytes : Type := Borrowed CbytesT

/-- `borrowed_slice_<T>`. -/
abbrev BorrowedSlice : Type := Borrowed SliceT

/-- The element type of a typed slice. -/
structure ElemType where
  name : String
  /-- The size of an element in bytes. -/
  size : Nat

variable {β γ : Type}

/-- `BORROW_LT_INIT_`: a borrow that captures the lifetime of its owner. -/
def borrowLtInit (lifetimes : Nat → LifetimeT) (view : β) (sourceLt source : Nat) : Borrowed β :=
  ⟨view, source, sourceLt, if sourceLt ≠ 0 then (lifetimes sourceLt).id else regionIdStatic⟩

/-- `BORROW_LT_INIT_NONE_`: a borrow without a lifetime. -/
def borrowLtInitNone (view : β) (source : Nat) : Borrowed β := ⟨view, source, 0, regionIdStatic⟩

/-- `BORROW_LT_INHERIT_`: a view with the tag and the lifetime of a borrow. -/
def borrowLtInherit (view : γ) (b : Borrowed β) : Borrowed γ :=
  ⟨view, b.source, b.sourceLt, b.capturedId⟩

/-- `BORROW_LT_CHECK_`. -/
def borrowLtCheck (lifetimes : Nat → LifetimeT) (b : Borrowed β) (site : String) :
    Except String Unit :=
  if b.sourceLt ≠ 0 then
    lifetimeAssertValid (lifetimes b.sourceLt).id (lifetimes b.sourceLt).isOpen b.capturedId site
  else .ok ()

/-- The common body of the `_get` functions. -/
def borrowedGet (lifetimes : Nat → LifetimeT) (fn : String) : Option (Borrowed β) → Except String β
  | none => .error (fn ++ ": b must not be NULL")
  | some b => do
    borrowLtCheck lifetimes b fn
    .ok b.view

/-- `borrowed_ptr_from_lifetime`. -/
def borrowedPtrFromLifetime (lifetimes : Nat → LifetimeT) (ptr sourceLt source : Nat) :
    BorrowedPtr :=
  borrowLtInit lifetimes ptr sourceLt source

/-- `borrowed_str_from_lifetime`. -/
def borrowedStrFromLifetime (lifetimes : Nat → LifetimeT) (s : StrT) (sourceLt source : Nat) :
    BorrowedStr :=
  borrowLtInit lifetimes s sourceLt source

/-- `borrowed_bytes_from_lifetime`. -/
def borrowedBytesFromLifetime (lifetimes : Nat → LifetimeT) (ptr len sourceLt source : Nat) :
    Except String BorrowedBytes := do
  let bytes ← cbytesFrom ptr len
  .ok (borrowLtInit lifetimes bytes sourceLt source)

/-- `borrowed_slice_<T>_from_lifetime`. -/
def borrowedSliceFromLifetime (lifetimes : Nat → LifetimeT) (s : SliceT) (sourceLt source : Nat) :
    BorrowedSlice :=
  borrowLtInit lifetimes s sourceLt source

/-- `borrowed_ptr_get`. -/
def borrowedPtrGet (lifetimes : Nat → LifetimeT) : Option BorrowedPtr → Except String Nat :=
  borrowedGet lifetimes "borrowed_ptr_get"

/-- `borrowed_str_get`. -/
def borrowedStrGet (lifetimes : Nat → LifetimeT) : Option BorrowedStr → Except String StrT :=
  borrowedGet lifetimes "borrowed_str_get"

/-- `borrowed_bytes_get`. -/
def borrowedBytesGet (lifetimes : Nat → LifetimeT) : Option BorrowedBytes → Except String CbytesT :=
  borrowedGet lifetimes "borrowed_bytes_get"

/-- `borrowed_slice_<T>_get`. -/
def borrowedSliceGet (lifetimes : Nat → LifetimeT) (t : ElemType) :
    Option BorrowedSlice → Except String SliceT :=
  borrowedGet lifetimes ("borrowed_slice_" ++ t.name ++ "_get")

/-- `borrowed_str_slice`. -/
def borrowedStrSlice (b : BorrowedStr) (start stop : Nat) : BorrowedStr :=
  borrowLtInherit (strSlice b.view start stop) b

/-- `borrowed_bytes_empty`. -/
def borrowedBytesEmpty : BorrowedBytes := borrowLtInitNone ⟨0, 0⟩ 0

/-- `borrowed_bytes_slice`. -/
def borrowedBytesSlice (b : BorrowedBytes) (start stop : Nat) : BorrowedBytes :=
  if b.view.ptr = 0 ∨ start ≥ b.view.len then borrowedBytesEmpty
  else
    let e := if stop > b.view.len then b.view.len else stop
    if start ≥ e then borrowedBytesEmpty
    else borrowLtInherit ⟨b.view.ptr + start, e - start⟩ b

/-- `borrowed_slice_<T>_at`: the address of the element, zero for NULL. -/
def borrowedSliceAt (t : ElemType) (p : Option BorrowedSlice) (i : Nat) : Nat :=
  match p with
  | none => 0
  | some b => if b.view.ptr = 0 ∨ i ≥ b.view.len then 0 else b.view.ptr + i * t.size

/-- `borrowed_slice_<T>_slice`. -/
def borrowedSliceSlice (t : ElemType) (b : BorrowedSlice) (start stop : Nat) : BorrowedSlice :=
  borrowLtInherit (sliceSlice t.size b.view start stop) b

/-- `borrowed_slice_<T>_as_bytes`. -/
def borrowedSliceAsBytes (t : ElemType) (p : Option BorrowedSlice) : BorrowedBytes :=
  match p with
  | none => borrowedBytesEmpty
  | some b =>
    if b.view.ptr = 0 then borrowedBytesEmpty
    else
      match checkedMul b.view.len t.size with
      | none => borrowedBytesEmpty
      | some byteLen => borrowLtInherit ⟨b.view.ptr, byteLen⟩ b

/-- A borrow of any of the types. -/
inductive Borrow where
  /-- `borrowed_ptr` -/
  | ptr (b : BorrowedPtr)
  /-- `borrowed_str` -/
  | str (b : BorrowedStr)
  /-- `borrowed_bytes` -/
  | bytes (b : BorrowedBytes)
  /-- `borrowed_slice_<T>` -/
  | slice (t : ElemType) (b : BorrowedSlice)

/-- What a borrow is built over. -/
inductive BorrowRoot where
  /-- A pointer. -/
  | ptr (ptr : Nat)
  /-- A string view. -/
  | str (s : StrT)
  /-- A run of bytes. -/
  | bytes (ptr len : Nat)
  /-- A typed slice. -/
  | slice (t : ElemType) (s : SliceT)

/-- The `_from_lifetime` constructors. -/
def borrowFromLifetime (lifetimes : Nat → LifetimeT) (sourceLt source : Nat) :
    BorrowRoot → Except String Borrow
  | .ptr ptr => .ok (.ptr (borrowedPtrFromLifetime lifetimes ptr sourceLt source))
  | .str s => .ok (.str (borrowedStrFromLifetime lifetimes s sourceLt source))
  | .bytes ptr len => do
    let b ← borrowedBytesFromLifetime lifetimes ptr len sourceLt source
    .ok (.bytes b)
  | .slice t s => .ok (.slice t (borrowedSliceFromLifetime lifetimes s sourceLt source))

/-- The `_slice` functions, on the types that have one. -/
def borrowSlice (start stop : Nat) : Borrow → Option Borrow
  | .ptr _ => none
  | .str b => some (.str (borrowedStrSlice b start stop))
  | .bytes b => some (.bytes (borrowedBytesSlice b start stop))
  | .slice t b => some (.slice t (borrowedSliceSlice t b start stop))

/-- The `_as_bytes` function, on the type that has one. -/
def borrowAsBytes : Borrow → Option Borrow
  | .slice t b => some (.bytes (borrowedSliceAsBytes t (some b)))
  | _ => none

/-- What a call on an owner or a borrow answers. -/
inductive BorrowOut where
  /-- Nothing. -/
  | done
  /-- A pointer, zero for NULL. -/
  | ptr (ptr : Nat)
  /-- A view. -/
  | view (s : StrT)
  /-- The lifetime check failed at this site. -/
  | fired (site : String)

/-- The `_get` functions. -/
def borrowGet (lifetimes : Nat → LifetimeT) : Borrow → Except String BorrowOut
  | .ptr b => (borrowedPtrGet lifetimes (some b)).map .ptr
  | .str b => (borrowedStrGet lifetimes (some b)).map .view
  | .bytes b => (borrowedBytesGet lifetimes (some b)).map .view
  | .slice t b => (borrowedSliceGet lifetimes t (some b)).map .view

/-- The `_at` function, on the type that has one. -/
def borrowAt (i : Nat) : Borrow → BorrowOut
  | .slice t b => .ptr (borrowedSliceAt t (some b) i)
  | _ => .done

/-- Where a borrow comes from. -/
structure BorrowOrigin where
  /-- Address of the token its root was built from. -/
  owner : Nat
  /-- The identifier of the owner when the root was built. -/
  id : Nat
  /-- The borrow is not the root itself. -/
  derived : Bool

/-- The owners and the borrows made so far, each with its origin. -/
structure BorrowWorld where
  /-- The tokens, by address. -/
  lifetimes : Nat → LifetimeT
  /-- The borrows in the order in which they were made. -/
  borrows : List (Borrow × BorrowOrigin)

/-- The calls on owners and borrows; a borrow is named by its place in the list. -/
inductive BorrowOp where
  /-- An owner is opened when the counter stands at `counter`. -/
  | openOwner (owner counter : Nat)
  /-- An owner is restamped when the counter stands at `counter`. -/
  | restamp (owner counter : Nat)
  /-- An owner is closed. -/
  | closeOwner (owner : Nat)
  /-- A `_from_lifetime` constructor. -/
  | fromLifetime (root : BorrowRoot) (owner source : Nat)
  /-- A `_slice` function. -/
  | slice (borrow start stop : Nat)
  /-- The `_as_bytes` function. -/
  | asBytes (borrow : Nat)
  /-- A `_get` function. -/
  | get (borrow : Nat)
  /-- The `_at` function. -/
  | element (borrow i : Nat)

/-- The world with a borrow derived from another, if there is one. -/
def borrowDerive (w : BorrowWorld) (derived : Option Borrow) (origin : BorrowOrigin) :
    BorrowWorld :=
  match derived with
  | none => w
  | some b => { w with borrows := w.borrows ++ [(b, { origin with derived := true })] }

/-- One call; a failed lifetime check is an answer, so that a run goes on after it. -/
def borrowStep (w : BorrowWorld) : BorrowOp → Except String (BorrowOut × BorrowWorld)
  | .openOwner owner counter => .ok (.done, { w with
      lifetimes := Function.update w.lifetimes owner (lifetimeOpen counter owner) })
  | .restamp owner counter => .ok (.done, { w with
      lifetimes := Function.update w.lifetimes owner
        (lifetimeRestamp counter owner (w.lifetimes owner)) })
  | .closeOwner owner => .ok (.done, { w with
      lifetimes := Function.update w.lifetimes owner (lifetimeClose (w.lifetimes owner)) })
  | .fromLifetime root owner source => do
    let b ← borrowFromLifetime w.lifetimes owner source root
    .ok (.done, { w with
      borrows := w.borrows ++ [(b, ⟨owner, (w.lifetimes owner).id, false⟩)] })
  | .slice borrow start stop =>
    match w.borrows[borrow]? with
    | none => .ok (.done, w)
    | some (b, origin) => .ok (.done, borrowDerive w (borrowSlice start stop b) origin)
  | .asBytes borrow =>
    match w.borrows[borrow]? with
    | none => .ok (.done, w)
    | some (b, origin) => .ok (.done, borrowDerive w (borrowAsBytes b) origin)
  | .get borrow =>
    match w.borrows[borrow]? with
    | none => .ok (.done, w)
    | some (b, _) =>
      match borrowGet w.lifetimes b with
      | .ok out => .ok (out, w)
      | .error site => .ok (.fired site, w)
  | .element borrow i =>
    match w.borrows[borrow]? with
    | none => .ok (.done, w)
    | some (b, _) => .ok (borrowAt i b, w)

end CanonC
