import CanonC.Data.Vec.Format
import CanonC.Util.Parse.RoundTrip

/-!
# Reading back a printed vector

The header of the vector formatting prints a vector of integers with a space behind each. The
chained parsing of the other header recovers from the buffer the elements that fit into it.
-/

namespace CanonC

open Toolkit

/-- The texts of `int` values under the format string of the header. -/
def fmtInt (i : Int) : Option (List UInt8) := some (formatText "%d ".toList [.d i])

/-- The values of an `int`. -/
def IsInt (i : Int) : Prop := -2 ^ 31 ≤ i ∧ i < 2 ^ 31

instance (i : Int) : Decidable (IsInt i) := inferInstanceAs (Decidable (_ ∧ _))

/-- The integers with a space behind each. -/
def spaced (xs : List Int) : List UInt8 := xs.flatMap fun i => signedDecimal i ++ [ascii ' ']

/-- An integer is printed with a space behind it. -/
theorem fmtInt_eq (i : Int) : fmtInt i = some (signedDecimal i ++ [ascii ' ']) := rfl

/-- An `int` is an `i64`. -/
theorem IsInt.isI64 {i : Int} (h : IsInt i) : IsI64 i := by
  rw [IsInt] at h
  rw [IsI64, i64Min, i64Max]
  omega

/-- The text of an integer is short enough to be counted. -/
theorem counted_fmtInt {i : Int} (h : IsInt i) : counted (fmtInt i) = fmtInt i := by
  have hdigits : (decimal i.natAbs).length ≤ 10 := by
    rw [IsInt] at h
    exact length_decimal_le (by decide) (by omega)
  have hlen : (signedDecimal i).length ≤ 11 := by
    rw [signedDecimal]
    split
    · exact Nat.succ_le_succ hdigits
    · exact hdigits.trans (Nat.le_succ 10)
  rw [fmtInt_eq, counted, Option.filter_some, if_pos]
  rw [decide_eq_true_eq, List.length_append, List.length_singleton, intMax]
  omega

/-- There is no terminator among printed integers. -/
theorem spaced_ne_zero (xs : List Int) : ∀ b ∈ spaced xs, b ≠ 0 := by
  intro b hb
  obtain ⟨i, -, hb⟩ := List.mem_flatMap.mp hb
  rcases List.mem_append.mp hb with hb | hb
  · have hbyte := (literal_signedDecimal i).bytes b hb
    rintro rfl
    cases hbyte
  · rw [List.mem_singleton.mp hb]
    decide

/-- No integer stands in front of nothing. -/
theorem parseI64_nil {s : CString} (hs : s.bytes = []) (endptr : Bool) :
    parseI64 (some s) endptr = .ok (.error .parseFailed, storeEnd endptr 0) := by
  refine parseI64_of_none (fun t v h => ?_) endptr
  obtain ⟨c, cs, rfl, -⟩ := h.value.head
  have hnil := h.munch.start
  rw [hs, List.prefix_nil] at hnil
  cases hnil

/-- Chained parsing recovers integers with a space behind each, and stops when there are no more
of them. -/
theorem parseChain_spaced {xs : List Int} (hxs : ∀ i ∈ xs, IsInt i) (ws : List UInt8)
    (hws : ∀ c ∈ ws, parseIsWs c) {s : CString} (hs : s.bytes = ws ++ spaced xs) (n : Nat) :
    ∃ rest, parseChain n s = .ok (xs.take n, rest) := by
  induction xs generalizing ws s n with
  | nil =>
    cases n with
    | zero => exact ⟨s, rfl⟩
    | succ n =>
      rw [spaced, List.flatMap_nil, List.append_nil] at hs
      have hskip := parseSkipWs_eq s
      rw [hs, List.takeWhile_eq_self_iff.mpr hws] at hskip
      have hrest : (s.drop ws.length).bytes = [] := CString.bytes_drop (by rw [hs, List.append_nil])
      refine ⟨s.drop ws.length, ?_⟩
      rw [parseChain, hskip, ok_bind]
      simp only [Option.getD_some, parseI64_nil hrest, ok_bind, List.take_nil]
  | cons i xs ih =>
    cases n with
    | zero => exact ⟨s, rfl⟩
    | succ n =>
      have hspace : ∀ c ∈ [ascii ' '], parseIsWs c := by
        intro c hc
        rw [List.mem_singleton.mp hc]
        rfl
      have hsplit : s.bytes = ws ++ (signedDecimal i ++ ([ascii ' '] ++ spaced xs)) := by
        rw [hs, spaced, List.flatMap_cons, List.append_assoc, spaced]
      obtain ⟨s', hbytes, hstep⟩ := parseChain_step hws (literal_signedDecimal i)
        (hxs i List.mem_cons_self).isI64
        (fun c hc => isNumberByte_of_space (hspace c
          (List.mem_singleton.mpr (Option.mem_some_iff.mp hc).symm))) hsplit n
      obtain ⟨rest, hchain⟩ := ih (fun j hj => hxs j (List.mem_cons_of_mem i hj)) _ hspace hbytes n
      exact ⟨rest, by rw [hstep, hchain, ok_bind, List.take_succ_cons]⟩

/-- For every vector of `int` values and every builder: with the format string of the header the
vector is printed up to the first element that does not fit, true is returned when all of them do,
and from the end of what the builder held before the chained parsing recovers the printed elements
in order, at most as many as asked for, and never another number. -/
theorem vec_int_read_back {present : Bool} {room data capacity : Nat} {v : Vec Int}
    {xs : List Int} {s : StringBufState} {a : ByteString} (hv : v.Holds present room xs)
    (hs : s.Holds data capacity a) (hspan : data + capacity ≤ usizeSize)
    (hxs : ∀ i ∈ xs, IsInt i) :
    ∃ ok s' k text, vecToStringbuf (some v) (some s) (some fmtInt) = .ok (ok, some s') ∧
      (∀ j, j ≤ k ↔ j ≤ xs.length ∧ a.1.length + (spaced (xs.take j)).length < capacity) ∧
      (ok = true ↔ k = xs.length) ∧
      cString s'.2 (data + a.1.length) = some text.bytes ∧
      ∀ n, ∃ rest, parseChain n text = .ok ((xs.take k).take n, rest) := by
  have hlt := hs.length_lt
  let print : Int → List UInt8 := fun i => signedDecimal i ++ [ascii ' ']
  have htexts : (xs.map fun i => counted (fmtInt i)) = (xs.map print).map some := by
    rw [List.map_map]
    exact List.map_congr_left fun i hi => counted_fmtInt (hxs i hi)
  obtain ⟨hbytes, hflag, -⟩ := ByteString.emitAll_spec data hlt
    (xs.map fun i => counted (fmtInt i))
  obtain ⟨r, hr, hok, hholds⟩ := vecToStringbuf_emits hv hs fmtInt
  rw [htexts] at hbytes hflag hok hholds
  have hfit := fitting_map_some (capacity - 1 - a.1.length) (xs.map print)
  have hmost := fun j => @le_length_fitting_map_some _ (capacity - 1 - a.1.length)
    (xs.map print) j
  have hpre := map_fitting_start (capacity - 1 - a.1.length) ((xs.map print).map some)
  generalize fitting (capacity - 1 - a.1.length) ((xs.map print).map some) = f at *
  have hprinted : ∀ j, ((xs.map print).take j).flatten = spaced (xs.take j) := fun j => by
    rw [← List.map_take, ← List.flatMap_def, spaced]
  simp only [hprinted, List.length_map] at hmost
  have hk : f.length ≤ xs.length := ((hmost f.length).mp le_rfl).1
  rw [hfit, hprinted] at hbytes
  have hdata := hs.data_pos
  have hmax : usizeMax + 1 = usizeSize := rfl
  have hstored := hholds.stored
  have hroom := hholds.length_lt
  rw [hbytes, List.length_append] at hstored hroom
  refine ⟨r.1, r.2, f.length, ⟨spaced (xs.take f.length), spaced_ne_zero _, by omega⟩, hr,
    fun j => ?_, ?_, ?_, fun n => ?_⟩
  · rw [hmost]
    refine and_congr_right fun _ => ?_
    omega
  · rw [hok, hflag]
    constructor
    · intro heq
      have hlen := congrArg List.length heq
      rwa [List.length_map, List.length_map, List.length_map] at hlen
    · intro heq
      exact hpre.eq_of_length (by rw [List.length_map, List.length_map, List.length_map, heq])
  · rw [cString_eq_some_iff, hholds.mem_eq]
    have haddr : data + a.1.length + (spaced (xs.take f.length)).length < usizeSize := by omega
    refine ⟨?_, spaced_ne_zero _, haddr⟩
    rw [Nat.add_assoc, Cells.read_add, List.append_assoc] at hstored
    exact (List.append_inj hstored Cells.length_read).2
  · exact parseChain_spaced (fun i hi => hxs i (List.mem_of_mem_take hi)) []
      (List.forall_mem_nil _) rfl n

/-- Of `1` and `-20` a buffer of six bytes has room for the first. -/
theorem vec_int_read_back_short : ∃ s' text rest,
    vecToStringbuf (some ⟨some fun i => if i = 0 then 1 else -20, 2, 2⟩)
      (some (⟨4096, 0, 6⟩, fun _ => 0)) (some fmtInt) = .ok (false, some s') ∧
    cString s'.2 4096 = some text.bytes ∧ parseChain 2 text = .ok ([1], rest) := by
  have hv : Vec.Holds true 2 ⟨some fun i => if i = 0 then 1 else -20, 2, 2⟩ [(1 : Int), -20] :=
    ⟨rfl, nofun, fun items h => by obtain rfl := Option.some.inj h; rfl, rfl, by decide, rfl,
      le_rfl⟩
  have hs : StringBufState.Holds 4096 6 (⟨4096, 0, 6⟩, fun _ => 0) ([], fun _ => 0) :=
    ⟨rfl, rfl, by decide, rfl, by decide, rfl, by decide, rfl⟩
  obtain ⟨ok, s', k, text, hprint, hmost, hok, htext, hparse⟩ :=
    vec_int_read_back hv hs (by decide) (by decide)
  have hone : 1 ≤ k := (hmost 1).mpr (by decide)
  have htwo : ¬ 2 ≤ k := fun h => absurd ((hmost 2).mp h) (by decide)
  obtain rfl : k = 1 := by omega
  have hfalse : ok = false := by
    rw [← Bool.not_eq_true, hok]
    decide
  rw [hfalse] at hprint
  obtain ⟨rest, hrest⟩ := hparse 2
  exact ⟨s', text, rest, hprint, htext, hrest⟩

end CanonC
