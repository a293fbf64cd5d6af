import CanonC.Data.Stringbuf.Format
import CanonC.Data.Vec.Refinement

/-!
# Vectors as text

The elements of a vector are written one behind the other, by a formatted append or by a
callback. Both stop at the first element that fails and keep what was written before.
-/

namespace CanonC

open Toolkit

variable {α : Type*}

/-- The loop of both functions over the elements left from index `i` on. -/
def vecFmtLoop (write : α → Writer) (items : Nat → α) : Nat → Nat → Writer
  | 0, _ => fun s => .ok (true, s)
  | left + 1, i => orReturn (write (items i)) (vecFmtLoop write items left (i + 1))

/-- `vec_to_stringbuf`, with the text that the format string makes of an element. -/
def vecToStringbuf (v : Option (Vec α)) (sb : Option StringBufState)
    (fmt : Option (α → Option (List UInt8))) : Except String (Bool × Option StringBufState) :=
  match v, sb, fmt with
  | some v, some s, some fmt =>
    if v.len = 0 then .ok (true, some s)
    else if s.1.data = 0 then .ok (false, some s)
    else
      match v.items with
      | none => .error outOfBounds
      | some items => do
        let print := fun item s => .ok (stringbufAppendFmt s.1 s.2 (fmt item))
        let (ok, s) ← vecFmtLoop print items v.len 0 s
        .ok (ok, some s)
  | _, sb, _ => .ok (false, sb)

/-- `vec_to_stringbuf_cb`. -/
def vecToStringbufCb (v : Option (Vec α)) (sb : Option StringBufState)
    (cb : Option (α → Writer)) : Except String (Bool × Option StringBufState) :=
  match v, sb, cb with
  | some v, some s, some cb =>
    if v.len = 0 then .ok (true, some s)
    else
      match v.items with
      | none => .error outOfBounds
      | some items => do
        let (ok, s) ← vecFmtLoop cb items v.len 0 s
        .ok (ok, some s)
  | _, sb, _ => .ok (false, sb)

section Loop

variable {data capacity : Nat} {I : Memory → Prop} {write : α → Writer}
  {text : α → Option (List UInt8)} {present : Bool} {room : Nat} {v : Vec α} {xs : List α}
  {s : StringBufState} {a : ByteString}

/-- The loop writes the texts of the elements left. -/
theorem vecFmtLoop_writes (hI : Around data capacity I)
    (hwrite : ∀ x, Writes data capacity I (write x) [text x]) (items : Nat → α) (left i : Nat) :
    Writes data capacity I (vecFmtLoop write items left i)
      ((Cells.read items i left).map text) := by
  induction left generalizing i with
  | zero => exact Writes.done
  | succ left ih =>
    rw [Cells.read_succ, List.map_cons]
    exact Writes.orReturn hI (hwrite (items i)) (ih (i + 1))

/-- A callback that writes one text for each element leaves those that fit. -/
theorem vecToStringbufCb_emits (hv : v.Holds present room xs) (hs : s.Holds data capacity a)
    (hI : Around data capacity I) (hwrite : ∀ x, Writes data capacity I (write x) [text x])
    (ha : I a.2) :
    ∃ r, vecToStringbufCb (some v) (some s) (some write) = .ok (r.1, some r.2) ∧
      Appends data capacity r (a.emitAll data capacity (xs.map text)) := by
  have hlen := hv.len_eq
  rw [vecToStringbufCb]
  by_cases hempty : v.len = 0
  · obtain rfl : xs = [] := List.length_eq_zero_iff.mp (by omega)
    exact ⟨(true, s), if_pos hempty, rfl, hs⟩
  · simp only [if_neg hempty]
    cases hitems : v.items with
    | none =>
      obtain ⟨-, -, rfl⟩ := hv.of_none hitems
      exact absurd hlen hempty
    | some items =>
      obtain ⟨r, hr, hemits⟩ := vecFmtLoop_writes hI hwrite items v.len 0 s a hs ha
      rw [hv.contents items hitems] at hemits
      exact ⟨r, by simp only [hr, ok_bind], hemits⟩

/-- Printing with a format string is the callback that appends the formatted element. -/
theorem vecToStringbuf_eq (hs : s.Holds data capacity a) (fmt : α → Option (List UInt8)) :
    vecToStringbuf (some v) (some s) (some fmt) = vecToStringbufCb (some v) (some s)
      (some fun item s => .ok (stringbufAppendFmt s.1 s.2 (fmt item))) := by
  rw [vecToStringbuf, vecToStringbufCb]
  simp only [if_neg hs.data_ne_zero]

/-- A format string leaves the texts of the elements that fit. -/
theorem vecToStringbuf_emits (hv : v.Holds present room xs) (hs : s.Holds data capacity a)
    (fmt : α → Option (List UInt8)) :
    ∃ r, vecToStringbuf (some v) (some s) (some fmt) = .ok (r.1, some r.2) ∧
      Appends data capacity r (a.emitAll data capacity (xs.map fun x => counted (fmt x))) := by
  rw [vecToStringbuf_eq hs]
  exact vecToStringbufCb_emits hv hs (fun _ _ _ h => h)
    (fun x => writes_appendFmt data capacity (fun _ => True) (fmt x)) trivial

/-- For every vector and every builder, and every format string as the texts of the elements:
`vec_to_stringbuf` appends the texts of the first elements, up to the first one that is missing or
does not fit with a terminator behind the ones before it, and nothing of that one. It returns true
exactly when no text is missing and all of them fit. The bytes outside the buffer stay. Every
callback that appends the same texts, as far as they fit, makes `vec_to_stringbuf_cb` return the
same and leave the same. -/
theorem vecToStringbuf_fits (hv : v.Holds present room xs) (hs : s.Holds data capacity a)
    (fmt : α → Option (List UInt8)) :
    ∃ ok s' a', vecToStringbuf (some v) (some s) (some fmt) = .ok (ok, some s') ∧
      s'.Holds data capacity a' ∧
      a'.1 = a.1 ++ (fitting (capacity - 1 - a.1.length)
        (xs.map fun x => counted (fmt x))).flatten ∧
      (ok = true ↔ (∀ x ∈ xs, counted (fmt x) ≠ none) ∧
        a.1.length + (xs.filterMap fun x => counted (fmt x)).flatten.length < capacity) ∧
      (∀ i, i < data ∨ data + capacity ≤ i → a'.2 i = a.2 i) ∧
      ∀ cb (J : Memory → Prop), Around data capacity J → J a.2 →
        (∀ x, Writes data capacity J (cb x) [counted (fmt x)]) →
        vecToStringbufCb (some v) (some s) (some cb) = .ok (ok, some s') := by
  have hlt := hs.length_lt
  obtain ⟨hbytes, hflag, hmem⟩ := ByteString.emitAll_spec data hlt
    (xs.map fun x => counted (fmt x))
  obtain ⟨r, hr, hok, hholds⟩ := vecToStringbuf_emits hv hs fmt
  refine ⟨r.1, r.2, _, hr, hholds, hbytes, ?_, hmem, ?_⟩
  · rw [hok, hflag, map_fitting_eq_iff, List.reduceOption, List.filterMap_map, Function.id_comp]
    refine and_congr ?_ ?_
    · rw [List.mem_map, not_exists]
      exact forall_congr' fun x => not_and
    · omega
  · intro cb J hJ ha hcb
    obtain ⟨r', hr', hok', hholds'⟩ := vecToStringbufCb_emits hv hs hJ hcb ha
    rw [hr', hok'.trans hok.symm, hholds.unique hholds']

end Loop

/-- Three digits go into a buffer of three bytes. -/
theorem vecToStringbuf_fits_cut : ∃ s' a',
    vecToStringbuf (some ⟨some UInt8.ofNat, 3, 3⟩) (some (⟨4096, 0, 3⟩, fun _ => 0))
      (some fun d => some [48 + d]) = .ok (false, some s') ∧
    s'.Holds 4096 3 a' ∧ a'.1 = [48, 49] ∧
    vecToStringbufCb (some ⟨some UInt8.ofNat, 3, 3⟩) (some (⟨4096, 0, 3⟩, fun _ => 0))
      (some fun d s => .ok (stringbufAppendFmt s.1 s.2 (some [48 + d]))) =
        .ok (false, some s') := by
  have hv : Vec.Holds true 3 ⟨some UInt8.ofNat, 3, 3⟩ [(0 : UInt8), 1, 2] :=
    ⟨rfl, nofun, fun items h => by obtain rfl := Option.some.inj h; rfl, rfl, by decide, rfl,
      le_rfl⟩
  have hs : StringBufState.Holds 4096 3 (⟨4096, 0, 3⟩, fun _ => 0) ([], fun _ => 0) :=
    ⟨rfl, rfl, by decide, rfl, by decide, rfl, by decide, rfl⟩
  obtain ⟨ok, s', a', hprint, hholds, hbytes, hok, -, hcb⟩ :=
    vecToStringbuf_fits hv hs fun d => some [48 + d]
  have hfalse : ok = false := by
    rw [← Bool.not_eq_true, hok]
    exact fun h => absurd h.2 (by decide)
  rw [hfalse] at hprint hcb
  refine ⟨s', a', hprint, hholds, hbytes.trans (by decide), ?_⟩
  exact hcb _ (fun _ => True) (fun _ _ _ h => h) trivial
    fun d => writes_appendFmt 4096 3 _ (some [48 + d])

end CanonC
