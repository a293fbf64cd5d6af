import CanonC.Data.Hashmap.Iteration
import CanonC.Data.Hashmap.Layout
import CanonC.Data.Stringbuf.Format

/-!
# Hash maps as text

A header, a line for each binding in slot order, and a footer. The text is written piece by piece
until one does not fit. What the map went through may change the order of the lines but neither
the lines nor whether all of them fit.
-/

namespace CanonC

open Toolkit

variable {K V Ctx : Type*} {fns : HashFns K Ctx} {ctx : Ctx} {capacity : Nat}

/-- Where the constants of `hashmap_to_stringbuf` lie. -/
structure HashmapFmtLiterals where
  /-- In front of a key. -/
  entryStart : Nat
  /-- Between a key and its value. -/
  entryMiddle : Nat
  /-- Behind a value. -/
  entryEnd : Nat
  /-- Behind the entries. -/
  footer : Nat

/-- `"  ["` -/
def entryStart : List UInt8 := formatText "  [".toList []

/-- `"] => "` -/
def entryMiddle : List UInt8 := formatText "] => ".toList []

/-- `"\n"` -/
def entryEnd : List UInt8 := formatText "\n".toList []

/-- `"\x7d\n"` -/
def footer : List UInt8 := formatText "\x7d\n".toList []

/-- The text of the header, given the one of the load factor with three decimals, which is zero
where the capacity is. -/
def hashmapFmtHeader (load : Nat → Nat → Option (List UInt8)) (len capacity : Nat) :
    Option (List UInt8) :=
  (load len capacity).map fun load =>
    formatText "hashmap \x7b len=%zu, cap=%zu, load=%s \x7d \x7b\n".toList
      [.zu len, .zu capacity, .s load]

/-- The loop over the entries, with the rounds left. -/
def hashmapFmtLoop (literals : HashmapFmtLiterals) (keyFn : K → Writer) (valFn : V → Writer)
    (map : HashMap K V Ctx) : Nat → Nat → Writer
  | 0, _ => fun _ => .error "hashmap_to_stringbuf: no round left"
  | rounds + 1, iter =>
    match hashmapIterNext map iter with
    | (none, _) => fun s => .ok (true, s)
    | (some i, iter) =>
      orReturn (appendLiteral literals.entryStart) <|
      orReturn (keyFn (map.slots i).key) <|
      orReturn (appendLiteral literals.entryMiddle) <|
      orReturn (valFn (map.slots i).value) <|
      orReturn (appendLiteral literals.entryEnd) <|
      hashmapFmtLoop literals keyFn valFn map rounds iter

/-- What `hashmap_to_stringbuf` writes. -/
def hashmapFmtBody (load : Nat → Nat → Option (List UInt8)) (literals : HashmapFmtLiterals)
    (keyFn : K → Writer) (valFn : V → Writer) (map : HashMap K V Ctx) : Writer :=
  orReturn (fun s =>
    .ok (stringbufAppendFmt s.1 s.2 (hashmapFmtHeader load map.len map.capacity))) <|
  orReturn (hashmapFmtLoop literals keyFn valFn map (map.capacity + 1) 0) <|
  orReturn (appendLiteral literals.footer) fun s => .ok (true, s)

/-- `hashmap_to_stringbuf`. -/
def hashmapToStringbuf (load : Nat → Nat → Option (List UInt8)) (literals : HashmapFmtLiterals)
    (keyFn : K → Writer) (valFn : V → Writer) (sb : Option StringBufState)
    (map : Option (HashMap K V Ctx)) : Except String (Bool × StringBufState) :=
  match sb, map with
  | none, _ => .error "hashmap_to_stringbuf: sb cannot be NULL"
  | some _, none => .error "hashmap_to_stringbuf: map cannot be NULL"
  | some s, some map => hashmapFmtBody load literals keyFn valFn map s

/-- The constants lie at their addresses, apart from the buffer. -/
structure HashmapFmtLiterals.At (literals : HashmapFmtLiterals) (data size : Nat) (mem : Memory) :
    Prop where
  /-- In front of a key. -/
  start : StringAt data size literals.entryStart CanonC.entryStart mem
  /-- Between a key and its value. -/
  middle : StringAt data size literals.entryMiddle CanonC.entryMiddle mem
  /-- Behind a value. -/
  close : StringAt data size literals.entryEnd CanonC.entryEnd mem
  /-- Behind the entries. -/
  foot : StringAt data size literals.footer CanonC.footer mem

/-- The constants lie outside the buffer. -/
theorem HashmapFmtLiterals.around (literals : HashmapFmtLiterals) (data size : Nat) :
    Around data size (literals.At data size) :=
  fun mem mem' hsame h => ⟨StringAt.around data size _ _ mem mem' hsame h.start,
    StringAt.around data size _ _ mem mem' hsame h.middle,
    StringAt.around data size _ _ mem mem' hsame h.close,
    StringAt.around data size _ _ mem mem' hsame h.foot⟩

/-- The bindings in slot order. -/
def HashMap.bindings (map : HashMap K V Ctx) : List (K × V) :=
  (map.occupiedFrom 0).map fun i => ((map.slots i).key, (map.slots i).value)

/-- The texts of an entry. -/
def entryTexts (keyText : K → Option (List UInt8)) (valText : V → Option (List UInt8))
    (b : K × V) : List (Option (List UInt8)) :=
  [some entryStart, keyText b.1, some entryMiddle, valText b.2, some entryEnd]

/-- The texts of a map. -/
def HashMap.texts (load : Nat → Nat → Option (List UInt8)) (keyText : K → Option (List UInt8))
    (valText : V → Option (List UInt8)) (map : HashMap K V Ctx) : List (Option (List UInt8)) :=
  [counted (hashmapFmtHeader load map.len map.capacity)] ++
    (map.bindings.flatMap (entryTexts keyText valText) ++ [some footer])

section Writes

variable {data size : Nat} {I : Memory → Prop} {literals : HashmapFmtLiterals} {keyFn : K → Writer}
  {valFn : V → Writer} {keyText : K → Option (List UInt8)} {valText : V → Option (List UInt8)}

/-- The loop writes the entries of the occupied slots left. -/
theorem hashmapFmtLoop_writes (map : HashMap K V Ctx) (hI : Around data size I)
    (hlit : ∀ mem, I mem → literals.At data size mem)
    (hkey : ∀ k, Writes data size I (keyFn k) [keyText k])
    (hval : ∀ v, Writes data size I (valFn v) [valText v]) (rounds : Nat) {iter : Nat}
    (h : (map.occupiedFrom iter).length < rounds) :
    Writes data size I (hashmapFmtLoop literals keyFn valFn map rounds iter)
      ((map.occupiedFrom iter).flatMap fun i =>
        entryTexts keyText valText ((map.slots i).key, (map.slots i).value)) := by
  induction rounds generalizing iter with
  | zero => exact absurd h (Nat.not_lt_zero _)
  | succ rounds ih =>
    rw [hashmapFmtLoop]
    rcases hashmapIterNext_cases map iter with ⟨iter', hnext, hnil, -⟩ | ⟨i, hnext, hcons⟩
    · rw [hnext, hnil]
      exact Writes.done
    · rw [hcons, List.length_cons] at h
      rw [hnext, hcons, List.flatMap_cons]
      have hstart := writes_appendLiteral fun mem hm => (hlit mem hm).start
      have hmiddle := writes_appendLiteral fun mem hm => (hlit mem hm).middle
      have hend := writes_appendLiteral fun mem hm => (hlit mem hm).close
      have hrest := ih (Nat.lt_of_succ_lt_succ h)
      have hentry := hstart.orReturn hI ((hkey (map.slots i).key).orReturn hI (hmiddle.orReturn hI
        ((hval (map.slots i).value).orReturn hI (hend.orReturn hI hrest))))
      exact hentry

/-- The function writes the texts of the map. -/
theorem hashmapFmtBody_writes (load : Nat → Nat → Option (List UInt8)) (map : HashMap K V Ctx)
    (hI : Around data size I) (hlit : ∀ mem, I mem → literals.At data size mem)
    (hkey : ∀ k, Writes data size I (keyFn k) [keyText k])
    (hval : ∀ v, Writes data size I (valFn v) [valText v]) :
    Writes data size I (hashmapFmtBody load literals keyFn valFn map)
      (map.texts load keyText valText) := by
  have hrounds : (map.occupiedFrom 0).length < map.capacity + 1 := by
    refine Nat.lt_succ_of_le ((List.length_filter_le _ _).trans ?_)
    rw [List.length_range', Nat.sub_zero]
  have hloop := hashmapFmtLoop_writes map hI hlit hkey hval _ hrounds
  have hfoot := writes_appendLiteral fun mem hm => (hlit mem hm).foot
  rw [HashMap.texts, HashMap.bindings, List.flatMap_map]
  exact (writes_appendFmt data size I _).orReturn hI
    (hloop.orReturn hI (hfoot.orReturn hI Writes.done))

end Writes

/-- The maps that mutating calls lead to from `hashmap_init`. -/
def HashMap.Made (fns : HashFns K Ctx) (ctx : Ctx) (capacity : Nat) (map : HashMap K V Ctx) :
    Prop :=
  ∃ (slotSize slotAlign : Nat) (buf : SlotBuffer K V) (map₀ : HashMap K V Ctx)
    (ops : List (HashmapOp K V)) (outs : List (HashmapOut V)),
    hashmapInit slotSize slotAlign buf capacity ctx = .ok map₀ ∧
      run (hashmapStep fns) map₀ ops = .ok (outs, map)

section History

variable {hl : fns.Lawful ctx} {map map' : HashMap K V Ctx} {m m' : KeyMap V hl}

/-- Such a map stands for a partial map, and counts its bindings. -/
theorem HashMap.Made.represents (h : map.Made fns ctx capacity) (hl : fns.Lawful ctx)
    (hc : capacity ≤ 2 ^ 30) :
    (∃ m, map.Represents hl capacity m) ∧ map.bindings.length = map.len := by
  obtain ⟨slotSize, slotAlign, buf, map₀, ops, outs, hinit, hrun⟩ := h
  refine ⟨((hashmapInit_reached hl hc hinit).run hrun).represents, ?_⟩
  rw [HashMap.bindings, List.length_map]
  exact (run_counted hinit hrun).length_occupied

/-- A lookup finds the bindings. -/
theorem HashMap.Represents.mem_bindings (h : map.Represents hl capacity m) (key : K) (v : V) :
    hashmapGet fns map key = some v ↔ ∃ b ∈ map.bindings, fns.eq b.1 key ctx = true ∧ b.2 = v := by
  rw [h.wellFormed.hashmapGet_iff_occupied h.lawful, h.ctx_eq]
  simp only [HashMap.bindings, List.mem_map, exists_exists_and_eq_and]

/-- A binding with the class of its key. -/
def classBinding (hl : fns.Lawful ctx) (b : K × V) : hl.KeyClass × V := (hl.classOf b.1, b.2)

/-- No two bindings have the same class. -/
theorem HashMap.Represents.nodup_bindings (h : map.Represents hl capacity m) :
    (map.bindings.map (classBinding hl)).Nodup := by
  rw [HashMap.bindings, List.map_map, List.Nodup, List.pairwise_map]
  refine (h.wellFormed.pairwise_keys 0).imp fun {i j} hdiffer heq => ?_
  have hclass := hl.classOf_eq_iff.mp (congrArg Prod.fst heq)
  rw [h.ctx_eq, hclass] at hdiffer
  cases hdiffer

/-- Maps that answer alike have the same bindings up to their order and equal keys. -/
theorem HashMap.Represents.perm_bindings (h : map.Represents hl capacity m)
    (h' : map'.Represents hl capacity m')
    (hget : ∀ key, hashmapGet fns map' key = hashmapGet fns map key) :
    (map'.bindings.map (classBinding hl)).Perm (map.bindings.map (classBinding hl)) := by
  have hmem : ∀ {n : HashMap K V Ctx} {p : KeyMap V hl}, n.Represents hl capacity p →
      ∀ key v, (hl.classOf key, v) ∈ n.bindings.map (classBinding hl) ↔
        hashmapGet fns n key = some v := by
    intro n p hn key v
    rw [hn.mem_bindings, List.mem_map]
    refine exists_congr fun b => and_congr_right fun _ => ?_
    rw [classBinding, Prod.mk.injEq, hl.classOf_eq_iff]
  rw [List.perm_ext_iff_of_nodup h'.nodup_bindings h.nodup_bindings]
  rintro ⟨c, v⟩
  induction c using Quotient.ind with
  | _ key =>
    have hiff := (hmem h' key v).trans (by rw [hget key])
    exact hiff.trans (hmem h key v).symm

/-- Where equal keys have equal texts, the entries of the two maps are the same up to order. -/
theorem HashMap.Represents.perm_entries (h : map.Represents hl capacity m)
    (h' : map'.Represents hl capacity m')
    (hget : ∀ key, hashmapGet fns map' key = hashmapGet fns map key)
    {keyText : K → Option (List UInt8)}
    (htext : ∀ k k', fns.eq k k' ctx = true → keyText k = keyText k')
    (valText : V → Option (List UInt8)) : (map'.bindings.map (entryTexts keyText valText)).Perm
      (map.bindings.map (entryTexts keyText valText)) := by
  let classText : hl.KeyClass → Option (List UInt8) := Quotient.lift keyText htext
  have hclass : ∀ n : HashMap K V Ctx, n.bindings.map (entryTexts keyText valText) =
      (n.bindings.map (classBinding hl)).map fun b =>
        [some entryStart, classText b.1, some entryMiddle, valText b.2, some entryEnd] := by
    intro n
    rw [List.map_map]
    rfl
  rw [hclass, hclass]
  exact (h.perm_bindings h' hget).map _

end History

/-- For every map that mutating calls lead to and every builder, with a writer for keys and one for
values that append the given texts as far as they fit: `hashmap_to_stringbuf` appends the header, a
line for each binding and the footer, up to the first piece that does not fit, and returns true
exactly when no text is missing and all of it fits; memory outside the buffer stays. The lines are
those of the `len` bindings that lookups find, each once. A map of the same capacity with another
history that answers lookups alike is printed with the same lines, in some order, and with the same
result, if equal keys have equal texts. -/
theorem hashmapToStringbuf_prints {map : HashMap K V Ctx} (hl : fns.Lawful ctx)
    (hc : capacity ≤ 2 ^ 30) (hmap : map.Made fns ctx capacity) {data size : Nat}
    {s : StringBufState} {a : ByteString} (hs : s.Holds data size a) {I : Memory → Prop}
    (hI : Around data size I) (ha : I a.2) {literals : HashmapFmtLiterals}
    (hlit : ∀ mem, I mem → literals.At data size mem) {keyFn : K → Writer} {valFn : V → Writer}
    {keyText : K → Option (List UInt8)} {valText : V → Option (List UInt8)}
    (hkey : ∀ k, Writes data size I (keyFn k) [keyText k])
    (hval : ∀ v, Writes data size I (valFn v) [valText v])
    (load : Nat → Nat → Option (List UInt8)) :
    ∃ ok s' a', hashmapToStringbuf load literals keyFn valFn (some s) (some map) = .ok (ok, s') ∧
      s'.Holds data size a' ∧
      a'.1 = a.1 ++ (fitting (size - 1 - a.1.length) (map.texts load keyText valText)).flatten ∧
      (ok = true ↔ none ∉ map.texts load keyText valText ∧
        a.1.length + (map.texts load keyText valText).reduceOption.flatten.length < size) ∧
      (∀ i, i < data ∨ data + size ≤ i → a'.2 i = a.2 i) ∧
      map.bindings.length = map.len ∧
      (∀ key v, hashmapGet fns map key = some v ↔
        ∃ b ∈ map.bindings, fns.eq b.1 key ctx = true ∧ b.2 = v) ∧
      map.bindings.Pairwise (fun b b' => fns.eq b.1 b'.1 ctx = false) ∧
      ∀ map' : HashMap K V Ctx, map'.Made fns ctx capacity →
        (∀ key, hashmapGet fns map' key = hashmapGet fns map key) →
        (∀ k k', fns.eq k k' ctx = true → keyText k = keyText k') →
        (map'.bindings.map (entryTexts keyText valText)).Perm
            (map.bindings.map (entryTexts keyText valText)) ∧
          ∃ s'', hashmapToStringbuf load literals keyFn valFn (some s) (some map') =
            .ok (ok, s'') := by
  have hlt := hs.length_lt
  obtain ⟨⟨m, hm⟩, hlen⟩ := hmap.represents hl hc
  -- What is written and returned, for any map.
  have hprint : ∀ n : HashMap K V Ctx, ∃ r,
      hashmapToStringbuf load literals keyFn valFn (some s) (some n) = .ok r ∧
        Appends data size r (a.emitAll data size (n.texts load keyText valText)) ∧
        (r.1 = true ↔ none ∉ n.texts load keyText valText ∧
          a.1.length + (n.texts load keyText valText).reduceOption.flatten.length < size) := by
    intro n
    obtain ⟨-, hflag, -⟩ := ByteString.emitAll_spec data hlt
      (n.texts load keyText valText)
    obtain ⟨r, hr, happ⟩ := hashmapFmtBody_writes load n hI hlit hkey hval s a hs ha
    refine ⟨r, hr, happ, ?_⟩
    rw [happ.1, hflag, map_fitting_eq_iff]
    refine and_congr_right fun _ => ?_
    omega
  obtain ⟨hbytes, -, hmem⟩ := ByteString.emitAll_spec data hlt
    (map.texts load keyText valText)
  obtain ⟨⟨ok, s'⟩, hr, ⟨-, hholds⟩, hok⟩ := hprint map
  refine ⟨ok, s', _, hr, hholds, hbytes, hok, hmem, hlen, hm.mem_bindings, ?_, ?_⟩
  · rw [HashMap.bindings, List.pairwise_map, ← hm.ctx_eq]
    exact hm.wellFormed.pairwise_keys 0
  · intro map' hmap' hget htext
    obtain ⟨⟨m', hm'⟩, hlen'⟩ := hmap'.represents hl hc
    have hentries := hm.perm_entries hm' hget htext valText
    refine ⟨hentries, ?_⟩
    obtain ⟨⟨ok', s''⟩, hr', -, hok'⟩ := hprint map'
    have hcount : map'.len = map.len := by
      rw [← hlen, ← hlen', ← List.length_map (entryTexts keyText valText), hentries.length_eq,
        List.length_map]
    have htexts : (map'.texts load keyText valText).Perm (map.texts load keyText valText) := by
      rw [HashMap.texts, HashMap.texts, hcount, hm'.capacity_eq, hm.capacity_eq,
        List.flatMap_def, List.flatMap_def]
      exact (hentries.flatten.append_right _).append_left _
    have hroom : (map'.texts load keyText valText).reduceOption.flatten.length =
        (map.texts load keyText valText).reduceOption.flatten.length :=
      (htexts.filterMap id).flatten.length_eq
    obtain rfl : ok' = ok := by
      rw [Bool.eq_iff_iff, hok', hok, htexts.mem_iff, hroom]
    exact ⟨s'', hr'⟩

/-- The constants in front of a buffer. -/
def literalMemory : Memory :=
  Cells.write (fun _ => 0) 1
    (entryStart ++ [0] ++ entryMiddle ++ [0] ++ entryEnd ++ [0] ++ footer ++ [0])

/-- Two colliding keys inserted in either order. -/
theorem hashmapToStringbuf_prints_orders : ∃ outs map outs' map' ok s' s'',
    run (hashmapStep natKeys) ⟨emptySlots zeroedSlots.contents 2, 2, 0, ()⟩
      [.insert (some 1) (some 10), .insert (some 3) (some 20)] = .ok (outs, map) ∧
    run (hashmapStep natKeys) ⟨emptySlots zeroedSlots.contents 2, 2, 0, ()⟩
      [.insert (some 3) (some 20), .insert (some 1) (some 10)] = .ok (outs', map') ∧
    hashmapToStringbuf (fun _ _ => some (formatText "1.000".toList [])) ⟨1, 5, 11, 13⟩
      (fun k s => .ok (stringbufAppendFmt s.1 s.2 (some (decimal k))))
      (fun v s => .ok (stringbufAppendFmt s.1 s.2 (some (decimal v))))
      (some (⟨4096, 0, 128⟩, literalMemory)) (some map) = .ok (ok, s') ∧
    hashmapToStringbuf (fun _ _ => some (formatText "1.000".toList [])) ⟨1, 5, 11, 13⟩
      (fun k s => .ok (stringbufAppendFmt s.1 s.2 (some (decimal k))))
      (fun v s => .ok (stringbufAppendFmt s.1 s.2 (some (decimal v))))
      (some (⟨4096, 0, 128⟩, literalMemory)) (some map') = .ok (ok, s'') := by
  have hinit : hashmapInit 32 8 zeroedSlots 2 () =
      .ok ⟨emptySlots zeroedSlots.contents 2, 2, 0, ()⟩ := rfl
  have h₀ := hashmapInit_represents natKeys_lawful (by decide) hinit
  obtain ⟨map₁, hone, h₁⟩ := h₀.step (.insert (some 1) (some 10))
  obtain ⟨map, hthree, h⟩ := h₁.step (.insert (some 3) (some 20))
  obtain ⟨map₁', hthree', h₁'⟩ := h₀.step (.insert (some 3) (some 20))
  obtain ⟨map', hone', h'⟩ := h₁'.step (.insert (some 1) (some 10))
  have hrun := run_pair_eq_ok.mpr ⟨_, _, _, hone, hthree, rfl⟩
  have hrun' := run_pair_eq_ok.mpr ⟨_, _, _, hthree', hone', rfl⟩
  have hlit : HashmapFmtLiterals.At ⟨1, 5, 11, 13⟩ 4096 128 literalMemory := by
    have hat : ∀ {p bytes}, 0 < p → p + (bytes.length + 1) ≤ 4096 →
        Cells.read literalMemory p (bytes.length + 1) = bytes ++ [0] → 0 ∉ bytes →
        StringAt 4096 128 p bytes literalMemory := by
      intro p bytes hpos hapart hread hbytes
      have hsize : 4096 ≤ usizeSize := by decide
      have hstring := cString_eq_some_iff.mpr
        ⟨hread, List.forall_mem_ne'.mpr hbytes, by omega⟩
      exact ⟨hpos, hstring, .inl hapart⟩
    exact ⟨hat (by decide) (by decide) (by decide) (by decide),
      hat (by decide) (by decide) (by decide) (by decide),
      hat (by decide) (by decide) (by decide) (by decide),
      hat (by decide) (by decide) (by decide) (by decide)⟩
  have hs : StringBufState.Holds 4096 128 (⟨4096, 0, 128⟩, literalMemory) ([], literalMemory) :=
    ⟨rfl, rfl, by decide, rfl, by decide, rfl, by decide, by decide⟩
  obtain ⟨ok, s', -, hprint, -, -, -, -, -, -, -, hother⟩ :=
    hashmapToStringbuf_prints natKeys_lawful (by decide) ⟨_, _, _, _, _, _, hinit, hrun⟩ hs
      (HashmapFmtLiterals.around ⟨1, 5, 11, 13⟩ 4096 128) hlit (fun _ h => h)
      (fun k => writes_appendFmt 4096 128 _ (some (decimal k)))
      (fun v => writes_appendFmt 4096 128 _ (some (decimal v)))
      (fun _ _ => some (formatText "1.000".toList []))
  obtain ⟨-, s'', hprint'⟩ := hother map' ⟨_, _, _, _, _, _, hinit, hrun'⟩
    (fun key => by
      rw [h.hashmapGet_eq, h'.hashmapGet_eq]
      congr 1
      decide)
    (fun k k' hk => by rw [beq_iff_eq.mp hk])
  exact ⟨_, map, _, map', ok, s', s'', hrun, hrun', hprint, hprint'⟩

end CanonC
