import CanonC.Semantics.Borrow.Model
import CanonC.Toolkit.Run

/-!
# Which reads of a borrow are checked

The root of a chain of borrows captures the identifier of its owner, and every derived view
that is not empty carries the same token and identifier. A read through `_get` therefore
fails its check exactly when the owner was closed or restamped since; `_at` has no check, and
a borrow that captured the identifier of static data is never checked.
-/

namespace CanonC

open Toolkit

variable {w w' : BorrowWorld} {b b' : Borrow} {origin : BorrowOrigin} {start stop : Nat}

/-- The token address and the identifier that a borrow carries. -/
def Borrow.lt : Borrow → Nat × Nat
  | .ptr b => (b.sourceLt, b.capturedId)
  | .str b => (b.sourceLt, b.capturedId)
  | .bytes b => (b.sourceLt, b.capturedId)
  | .slice _ b => (b.sourceLt, b.capturedId)

/-- The length of a view. -/
def Borrow.len : Borrow → Nat
  | .ptr _ => 0
  | .str b => b.view.len
  | .bytes b => b.view.len
  | .slice _ b => b.view.len

/-- The owner is closed, or its identifier is not the one captured by the root. -/
def Stale (w : BorrowWorld) (origin : BorrowOrigin) : Prop :=
  (w.lifetimes origin.owner).isOpen = false ∨ (w.lifetimes origin.owner).id ≠ origin.id

/-- The borrow was built from a token, and it is the root or a derived view that is not empty. -/
def Tracked (b : Borrow) (origin : BorrowOrigin) : Prop :=
  origin.owner ≠ 0 ∧ (origin.derived = true → b.len ≠ 0)

/-- The call is an access that hands out data of the borrow if no check fails. -/
def HandsOut (w : BorrowWorld) (b : Borrow) (origin : BorrowOrigin) : BorrowOp → Prop
  | .get borrow => w.borrows[borrow]? = some (b, origin)
  | .element borrow i => w.borrows[borrow]? = some (b, origin) ∧
      ∃ t s, b = .slice t s ∧ s.view.ptr ≠ 0 ∧ i < s.view.len
  | _ => False

/-- The lifetime check of the call fails. -/
def Fires (w : BorrowWorld) (op : BorrowOp) : Prop :=
  ∃ site w', borrowStep w op = .ok (.fired site, w')

/-- Every access to a tracked borrow fails its lifetime check exactly when the borrow is stale. -/
def ChecksStale (w : BorrowWorld) (op : BorrowOp) : Prop :=
  ∀ b origin, HandsOut w b origin op → Tracked b origin → (Fires w op ↔ Stale w origin)

/-- The call skips the lifetime check: it reads an element, or the root captured the identifier
of static data, as from an owner that was zeroed and never opened. -/
def Unchecked (origin : BorrowOrigin) : BorrowOp → Prop
  | .element _ _ => True
  | _ => origin.id = regionIdStatic

/-- No access that skips the check reaches a tracked borrow that is stale. -/
def ReadsFresh (w : BorrowWorld) (op : BorrowOp) : Prop :=
  ∀ b origin, HandsOut w b origin op → Tracked b origin → Unchecked origin op → ¬ Stale w origin

/-- Every tracked borrow carries what its root captured. -/
def Captured (w : BorrowWorld) : Prop :=
  ∀ b origin, (b, origin) ∈ w.borrows → Tracked b origin → b.lt = (origin.owner, origin.id)

/-- A constructor captures the token of the owner and its identifier. -/
theorem borrowFromLifetime_lt {root : BorrowRoot} {owner source : Nat} (howner : owner ≠ 0)
    (h : borrowFromLifetime w.lifetimes owner source root = .ok b) :
    b.lt = (owner, (w.lifetimes owner).id) := by
  have hid : (if owner ≠ 0 then (w.lifetimes owner).id else regionIdStatic) =
      (w.lifetimes owner).id := if_pos howner
  cases root with
  | ptr p =>
    rw [← Except.ok.inj h]
    exact congrArg (Prod.mk owner) hid
  | str s =>
    rw [← Except.ok.inj h]
    exact congrArg (Prod.mk owner) hid
  | bytes p len =>
    obtain ⟨bytes, hbytes, h⟩ := bind_eq_ok.mp h
    obtain ⟨view, -, hview⟩ := bind_eq_ok.mp hbytes
    rw [← Except.ok.inj h, ← Except.ok.inj hview]
    exact congrArg (Prod.mk owner) hid
  | slice t s =>
    rw [← Except.ok.inj h]
    exact congrArg (Prod.mk owner) hid

/-- A part of a byte view is empty and untracked, or inherits the lifetime. -/
theorem borrowedBytesSlice_cases (b : BorrowedBytes) (start stop : Nat) :
    borrowedBytesSlice b start stop = borrowedBytesEmpty ∨
      b.view.len ≠ 0 ∧ ∃ v, borrowedBytesSlice b start stop = borrowLtInherit v b := by
  by_cases h : b.view.ptr = 0 ∨ start ≥ b.view.len
  · exact .inl (if_pos h)
  · rw [borrowedBytesSlice, if_neg h]
    by_cases he : start ≥ if stop > b.view.len then b.view.len else stop
    · exact .inl (if_pos he)
    · exact .inr ⟨by omega, _, if_neg he⟩

/-- A part that is not empty is part of a view that is not empty, and inherits its lifetime. -/
theorem borrowSlice_lt (h : borrowSlice start stop b = some b') (hlen : b'.len ≠ 0) :
    b'.lt = b.lt ∧ b.len ≠ 0 := by
  cases b with
  | ptr b => cases h
  | str b =>
    obtain rfl := Option.some.inj h
    exact ⟨rfl, viewSlice_len hlen⟩
  | slice t b =>
    obtain rfl := Option.some.inj h
    exact ⟨rfl, viewSlice_len hlen⟩
  | bytes b =>
    obtain rfl := Option.some.inj h
    rcases borrowedBytesSlice_cases b start stop with hempty | ⟨hne, v, hview⟩
    · exact absurd (congrArg (fun c => c.view.len) hempty) hlen
    · exact ⟨congrArg (fun c => (c.sourceLt, c.capturedId)) hview, hne⟩

/-- The bytes of a slice inherit its lifetime, unless they are none. -/
theorem borrowAsBytes_lt (h : borrowAsBytes b = some b') (hlen : b'.len ≠ 0) :
    b'.lt = b.lt ∧ b.len ≠ 0 := by
  cases b with
  | ptr b => cases h
  | str b => cases h
  | bytes b => cases h
  | slice t b =>
    obtain rfl := Option.some.inj h
    simp only [Borrow.len, Borrow.lt, borrowedSliceAsBytes, checkedMul_eq] at hlen ⊢
    by_cases hptr : b.view.ptr = 0
    · rw [if_pos hptr] at hlen
      exact absurd rfl hlen
    · rw [if_neg hptr] at hlen ⊢
      by_cases hfits : b.view.len * t.size < usizeSize
      · simp only [if_pos hfits] at hlen ⊢
        exact ⟨rfl, fun h0 => hlen (by simp [borrowLtInherit, h0])⟩
      · simp only [if_neg hfits] at hlen
        exact absurd rfl hlen

/-- Deriving a view keeps what the borrows carry. -/
theorem captured_derive {derived : Option Borrow} (hw : Captured w) (hmem : (b, origin) ∈ w.borrows)
    (hlt : ∀ b', derived = some b' → b'.len ≠ 0 → b'.lt = b.lt ∧ b.len ≠ 0) :
    Captured (borrowDerive w derived origin) := by
  cases derived with
  | none => exact hw
  | some b' =>
    intro c o hc htracked
    rcases List.mem_append.mp hc with hold | hnew
    · exact hw c o hold htracked
    · obtain ⟨rfl, rfl⟩ := Prod.mk.inj (List.mem_singleton.mp hnew)
      obtain ⟨heq, hne⟩ := hlt c rfl (htracked.2 rfl)
      rw [heq]
      exact hw b origin hmem ⟨htracked.1, fun _ => hne⟩

/-- Every call keeps what the borrows carry. -/
theorem borrowStep_captured {op : BorrowOp} {out : BorrowOut} (hw : Captured w)
    (h : borrowStep w op = .ok (out, w')) : Captured w' := by
  cases op with
  | openOwner owner counter =>
    obtain ⟨-, rfl⟩ := Prod.mk.inj (Except.ok.inj h)
    exact hw
  | restamp owner counter =>
    obtain ⟨-, rfl⟩ := Prod.mk.inj (Except.ok.inj h)
    exact hw
  | closeOwner owner =>
    obtain ⟨-, rfl⟩ := Prod.mk.inj (Except.ok.inj h)
    exact hw
  | fromLifetime root owner source =>
    obtain ⟨b, hb, h⟩ := bind_eq_ok.mp h
    obtain ⟨-, rfl⟩ := Prod.mk.inj (Except.ok.inj h)
    intro c o hc htracked
    rcases List.mem_append.mp hc with hold | hnew
    · exact hw c o hold htracked
    · obtain ⟨rfl, rfl⟩ := Prod.mk.inj (List.mem_singleton.mp hnew)
      exact borrowFromLifetime_lt htracked.1 hb
  | slice borrow start stop =>
    cases hget : w.borrows[borrow]? with
    | none =>
      simp only [borrowStep, hget] at h
      obtain ⟨-, rfl⟩ := Prod.mk.inj (Except.ok.inj h)
      exact hw
    | some p =>
      simp only [borrowStep, hget] at h
      obtain ⟨-, rfl⟩ := Prod.mk.inj (Except.ok.inj h)
      exact captured_derive hw (List.mem_of_getElem? hget) fun b' => borrowSlice_lt
  | asBytes borrow =>
    cases hget : w.borrows[borrow]? with
    | none =>
      simp only [borrowStep, hget] at h
      obtain ⟨-, rfl⟩ := Prod.mk.inj (Except.ok.inj h)
      exact hw
    | some p =>
      simp only [borrowStep, hget] at h
      obtain ⟨-, rfl⟩ := Prod.mk.inj (Except.ok.inj h)
      exact captured_derive hw (List.mem_of_getElem? hget) fun b' => borrowAsBytes_lt
  | get borrow =>
    have hsame : w' = w := by
      simp only [borrowStep] at h
      split at h
      · exact (Prod.mk.inj (Except.ok.inj h)).2.symm
      · split at h <;> exact (Prod.mk.inj (Except.ok.inj h)).2.symm
    rwa [hsame]
  | element borrow i =>
    have hsame : w' = w := by
      simp only [borrowStep] at h
      split at h <;> exact (Prod.mk.inj (Except.ok.inj h)).2.symm
    rwa [hsame]

/-- The check of a `_get` function, on a borrow with a lifetime. -/
theorem borrowedGet_eq {β : Type} {lifetimes : Nat → LifetimeT} {fn : String} {b : Borrowed β}
    (howner : b.sourceLt ≠ 0) (hid : b.capturedId ≠ regionIdStatic) :
    borrowedGet lifetimes fn (some b) = if (lifetimes b.sourceLt).isOpen = true ∧
      (lifetimes b.sourceLt).id = b.capturedId then .ok b.view else .error fn := by
  rw [borrowedGet, borrowLtCheck, if_pos howner, lifetimeAssertValid_eq hid]
  split <;> rfl

/-- A read through `_get` hands out data exactly when the token carried is open and has the
identifier carried, and fails its check otherwise. -/
theorem borrowGet_eq (lifetimes : Nat → LifetimeT) (howner : b.lt.1 ≠ 0)
    (hid : b.lt.2 ≠ regionIdStatic) : ∃ out site, (∀ site', out ≠ .fired site') ∧
      borrowGet lifetimes b = if (lifetimes b.lt.1).isOpen = true ∧
        (lifetimes b.lt.1).id = b.lt.2 then .ok out else .error site := by
  cases b with
  | ptr b =>
    refine ⟨.ptr b.view, "borrowed_ptr_get", fun _ => nofun, ?_⟩
    rw [borrowGet, borrowedPtrGet, borrowedGet_eq howner hid, apply_ite (Except.map _)]
    rfl
  | str b =>
    refine ⟨.view b.view, "borrowed_str_get", fun _ => nofun, ?_⟩
    rw [borrowGet, borrowedStrGet, borrowedGet_eq howner hid, apply_ite (Except.map _)]
    rfl
  | bytes b =>
    refine ⟨.view b.view, "borrowed_bytes_get", fun _ => nofun, ?_⟩
    rw [borrowGet, borrowedBytesGet, borrowedGet_eq howner hid, apply_ite (Except.map _)]
    rfl
  | slice t b =>
    refine ⟨.view b.view, "borrowed_slice_" ++ t.name ++ "_get", fun _ => nofun, ?_⟩
    rw [borrowGet, borrowedSliceGet, borrowedGet_eq howner hid, apply_ite (Except.map _)]
    rfl

/-- An access through `_get` to a borrow that carries what its root captured fails its check
exactly when the borrow is stale. -/
theorem fires_get_iff {borrow : Nat} (hget : w.borrows[borrow]? = some (b, origin))
    (hlt : b.lt = (origin.owner, origin.id)) (howner : origin.owner ≠ 0)
    (hid : origin.id ≠ regionIdStatic) : Fires w (.get borrow) ↔ Stale w origin := by
  have hlt₁ : b.lt.1 = origin.owner := congrArg Prod.fst hlt
  have hlt₂ : b.lt.2 = origin.id := congrArg Prod.snd hlt
  obtain ⟨out, site, hout, heq⟩ := borrowGet_eq w.lifetimes (hlt₁ ▸ howner) (hlt₂ ▸ hid)
  rw [hlt₁, hlt₂] at heq
  have hstale : Stale w origin ↔ ¬ ((w.lifetimes origin.owner).isOpen = true ∧
      (w.lifetimes origin.owner).id = origin.id) := by
    rw [not_and_or, Bool.not_eq_true]
    rfl
  rw [hstale]
  by_cases hfresh : (w.lifetimes origin.owner).isOpen = true ∧
      (w.lifetimes origin.owner).id = origin.id
  · rw [if_pos hfresh] at heq
    refine iff_of_false ?_ (not_not_intro hfresh)
    rintro ⟨site', w', h⟩
    simp only [borrowStep, hget, heq] at h
    exact hout site' (Prod.mk.inj (Except.ok.inj h)).1
  · rw [if_neg hfresh] at heq
    exact iff_of_true ⟨site, w, by simp only [borrowStep, hget, heq]⟩ hfresh

/-- A borrow that captured the identifier of static data hands out its data whatever its owner
does. -/
theorem borrowedGet_static {β : Type} {lifetimes : Nat → LifetimeT} {fn : String} {b : Borrowed β}
    (hid : b.capturedId = regionIdStatic) : borrowedGet lifetimes fn (some b) = .ok b.view := by
  rw [borrowedGet, borrowLtCheck, hid, lifetimeAssertValid_static, ite_self]
  rfl

/-- An access through `_get` to such a borrow never fails a check. -/
theorem not_fires_get {borrow : Nat} (hget : w.borrows[borrow]? = some (b, origin))
    (hid : b.lt.2 = regionIdStatic) : ¬ Fires w (.get borrow) := by
  rintro ⟨site, w', h⟩
  simp only [borrowStep, hget] at h
  cases b <;>
    simp [borrowGet, borrowedPtrGet, borrowedStrGet, borrowedBytesGet, borrowedSliceGet,
      borrowedGet_static hid, Except.map] at h

/-- An element access never fails a check. -/
theorem not_fires_element {borrow i : Nat} : ¬ Fires w (.element borrow i) := by
  rintro ⟨site, w', h⟩
  simp only [borrowStep] at h
  split at h
  · simp at h
  · rename_i c o hget
    cases c <;> simp [borrowAt] at h

/-- Where every tracked borrow carries what its root captured, an access is checked as it should
be exactly when it does not skip the check while the borrow is stale. -/
theorem checksStale_iff {op : BorrowOp} (hw : Captured w) : ChecksStale w op ↔ ReadsFresh w op := by
  constructor
  · intro h b origin hhands htracked hunchecked hstale
    have hfires := (h b origin hhands htracked).mpr hstale
    cases op with
    | get borrow =>
      have hlt := hw b origin (List.mem_of_getElem? hhands) htracked
      exact not_fires_get hhands (by rw [hlt]; exact hunchecked) hfires
    | element borrow i => exact not_fires_element hfires
    | openOwner | restamp | closeOwner | fromLifetime | slice | asBytes => exact hhands.elim
  · intro h b origin hhands htracked
    cases op with
    | get borrow =>
      have hlt := hw b origin (List.mem_of_getElem? hhands) htracked
      by_cases hid : origin.id = regionIdStatic
      · exact iff_of_false (not_fires_get hhands (by rw [hlt]; exact hid))
          (h b origin hhands htracked hid)
      · exact fires_get_iff hhands hlt htracked.1 hid
    | element borrow i =>
      exact iff_of_false not_fires_element (h b origin hhands htracked trivial)
    | openOwner | restamp | closeOwner | fromLifetime | slice | asBytes => exact hhands.elim

/-- In every run from a world without borrows, every access to the root or a derived view that
is not empty fails its lifetime check exactly when the owner is closed or has another
identifier than the root captured, exactly when no such stale borrow is reached by an element
access through `_at`, or through `_get` after its root captured the identifier of static data. -/
theorem borrow_checks_iff (lifetimes : Nat → LifetimeT) (ops : List BorrowOp) :
    Meets borrowStep ChecksStale ⟨lifetimes, []⟩ ops ↔
      Meets borrowStep ReadsFresh ⟨lifetimes, []⟩ ops :=
  meets_congr (I := Captured) (fun _ _ _ _ hw h => borrowStep_captured hw h)
    (fun _ _ hw => checksStale_iff hw) ops (fun _ _ h => absurd h List.not_mem_nil)

/-- An element of a closed owner's slice is handed out without a check. -/
theorem borrow_at_unchecked : ¬ ∀ (lifetimes : Nat → LifetimeT) (ops : List BorrowOp),
    Meets borrowStep ChecksStale ⟨lifetimes, []⟩ ops := by
  intro h
  have hrun := h (fun _ => ⟨1, true⟩)
    [.fromLifetime (.slice ⟨"int", 4⟩ ⟨8192, 4⟩) 4096 4096, .closeOwner 4096, .element 0 0]
  have hat := ((((hrun _ _ rfl).2 _ _ rfl).2) _ _ rfl).1
  have hfires := (hat (.slice ⟨"int", 4⟩ ⟨⟨8192, 4⟩, 4096, 4096, 1⟩) ⟨4096, 1, false⟩
    ⟨rfl, _, _, rfl, by decide, by decide⟩ ⟨by decide, nofun⟩).mpr (.inl rfl)
  exact not_fires_element hfires

end CanonC
