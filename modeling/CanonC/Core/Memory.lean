import CanonC.Core.Types
import Mathlib.Data.List.Basic

/-!
# Checked access to an object in memory

An object of `n` elements is a list of length `n`. An access outside it is a fault,
reported like a failed contract, so a computation that succeeds has stayed inside
every object it touched.
-/

namespace CanonC

variable {α : Type*}

/-- The fault of an access outside an object. -/
def outOfBounds : String := "access out of bounds"

/-- Read the element at an index. -/
def readElem (base : List α) (i : Nat) : Except String α :=
  match base[i]? with
  | some x => .ok x
  | none => .error outOfBounds

/-- Write the element at an index. -/
def writeElem (base : List α) (i : Nat) (x : α) : Except String (List α) :=
  if i < base.length then .ok (base.set i x) else .error outOfBounds

/-- `mem_copy` of the first `count` elements of one object to an index of another. -/
def copyElems (dst : List α) (start : Nat) (src : List α) (count : Nat) :
    Except String (List α) :=
  if start + count ≤ dst.length ∧ count ≤ src.length then
    .ok (dst.take start ++ src.take count ++ dst.drop (start + count))
  else .error outOfBounds

/-- The loop of `scanWhile`, over the elements from the pointer on. -/
def scanFrom (test : α → Bool) : List α → Nat → Except String Nat
  | [], _ => .error outOfBounds
  | x :: xs, p => if test x then scanFrom test xs (p + 1) else .ok p

/-- A loop that advances a pointer while the element it points to passes a test. -/
def scanWhile (test : α → Bool) (base : List α) (p : Nat) : Except String Nat :=
  scanFrom test (base.drop p) p

/-- `mem_regions_overlap` of two regions of the same size that is not zero, at addresses that are
not NULL. -/
def memRegionsOverlap (a b size : Nat) : Bool := if a ≤ b then b - a < size else a - b < size

/-- Regions do not overlap when one ends before the other starts. -/
theorem memRegionsOverlap_eq_false {a b size : Nat} :
    memRegionsOverlap a b size = false ↔ a + size ≤ b ∨ b + size ≤ a := by
  rw [memRegionsOverlap]
  split <;> simp <;> omega

/-- The element after a prefix is read at the length of the prefix. -/
theorem readElem_append {a b : List α} {x : α} {i : Nat} (hi : i = a.length) :
    readElem (a ++ x :: b) i = .ok x := by
  subst hi
  simp [readElem]

/-- The element after a prefix is written at the length of the prefix. -/
theorem writeElem_append {a b : List α} {x y : α} {i : Nat} (hi : i = a.length) :
    writeElem (a ++ x :: b) i y = .ok (a ++ y :: b) := by
  subst hi
  simp [writeElem]

/-- The first element of a part of the array is read where the part starts. -/
theorem readElem_front {base p s q : List α} {x : α} (h : base = p ++ (x :: s) ++ q) :
    readElem base p.length = .ok x := by
  rw [h, List.append_assoc, List.cons_append]
  exact readElem_append rfl

/-- A write where the filled part of a buffer ends extends it by the element. -/
theorem writeElem_push (out rest : List α) (z w : α) :
    writeElem (out ++ z :: rest) out.length w = .ok ((out ++ [w]) ++ rest) := by
  rw [writeElem_append rfl, List.append_assoc, List.singleton_append]

/-- The scan stops at the first element that fails the test. -/
theorem scanWhile_append {test : α → Bool} {base pre xs post : List α} {y : α}
    (hbase : base = pre ++ xs ++ y :: post) (hxs : ∀ x ∈ xs, test x = true)
    (hy : test y = false) : scanWhile test base pre.length = .ok (pre ++ xs).length := by
  have hfrom : ∀ p, scanFrom test (xs ++ y :: post) p = .ok (p + xs.length) := by
    clear hbase
    induction xs with
    | nil => simp [scanFrom, hy]
    | cons x xs ih =>
      obtain ⟨hx, hxs⟩ := List.forall_mem_cons.mp hxs
      intro p
      rw [List.cons_append, scanFrom, if_pos hx, ih hxs, List.length_cons]
      congr 1
      omega
  rw [scanWhile, hbase, List.append_assoc, List.drop_left, hfrom, List.length_append]

/-- A copy replaces a middle part of the destination. -/
theorem copyElems_append {a b c src rest : List α} {start count : Nat} (hs : start = a.length)
    (hb : b.length = count) (hc : src.length = count) :
    copyElems (a ++ b ++ c) start (src ++ rest) count = .ok (a ++ src ++ c) := by
  subst hs hc
  have hd : List.drop (a.length + src.length) (a ++ b ++ c) = c := by
    rw [← hb, ← List.length_append, List.drop_left]
  have ht : List.take a.length (a ++ b ++ c) = a := by rw [List.append_assoc, List.take_left]
  rw [copyElems, if_pos (by simp only [List.length_append]; omega), hd, ht, List.take_left]

/-- A write into the first of the free elements of a buffer extends the filled part by it. -/
theorem writeElem_free {out free : List α} (h : 0 < free.length) (w : α) :
    writeElem (out ++ free) out.length w = .ok (out ++ [w] ++ free.drop 1) := by
  obtain ⟨z, rest, rfl⟩ := List.exists_cons_of_length_pos h
  exact writeElem_push out rest z w

/-- A copy into the free elements of a buffer extends the filled part by what is copied. -/
theorem copyElems_free {out free src base : List α} (hsrc : src <+: base)
    (h : src.length ≤ free.length) :
    copyElems (out ++ free) out.length base src.length =
      .ok (out ++ src ++ free.drop src.length) := by
  obtain ⟨rest, rfl⟩ := hsrc
  have hcopy := @copyElems_append _ out (free.take src.length) (free.drop src.length) src rest
    _ _ rfl (List.length_take_of_le h) rfl
  rwa [List.append_assoc, List.take_append_drop] at hcopy

end CanonC
