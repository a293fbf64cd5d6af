import CanonC.Core.Arena.Regions
import CanonC.Toolkit.Probing
import CanonC.Util.Str.Intern.Model

/-!
# The invariant of the intern pool and what one call does

The table is a linear-probing table of the strings that its views show. The copies lie
in the consumed part of the arena, behind the table, so a later copy changes none of them.
-/

namespace CanonC

open Toolkit

/-- The slot at which the search for a string starts. -/
def internHome (capacity : Nat) (s : List UInt8) : Nat := (internHash s).toNat % capacity

/-- The bytes a view shows. -/
def StrView.text (v : StrView) (mem : Memory) : List UInt8 := Cells.read mem v.ptr v.len

namespace InternPool

variable {pool pool' : InternPool} {str : CString} {s : Option CString} {t : List UInt8}
  {v w : StrView}

/-- The string in a slot, if the slot is occupied. -/
def slot (pool : InternPool) (i : Nat) : Option (List UInt8) :=
  if (pool.entries i).ptr = 0 then none else some ((pool.entries i).text pool.mem)

/-- The strings in the table. -/
def strings (pool : InternPool) : Finset (List UInt8) := Probing.keys pool.capacity pool.slot

/-- The string is in the table under this view. -/
def Known (pool : InternPool) (t : List UInt8) (v : StrView) : Prop :=
  ∃ i < pool.capacity, pool.slot i = some t ∧ pool.entries i = v

/-- The invariant of the pool. -/
structure Good (pool : InternPool) : Prop where
  /-- The table is allocated. -/
  table_pos : pool.table ≠ 0
  /-- There is a slot. -/
  capacity_pos : 0 < pool.capacity
  /-- The capacity is a `usize`. -/
  capacity_lt : pool.capacity < usizeSize
  /-- No empty slot lies between the home of a string and its slot. -/
  placed : Probing.Placed pool.capacity (internHome pool.capacity) pool.slot
  /-- The count is the number of strings. -/
  count_eq : pool.count = pool.strings.card
  /-- The table lies in the consumed part of the arena. -/
  table_le : pool.table + pool.capacity * sizeofStrView ≤ pool.arena.top
  /-- The copies lie behind the table, terminators included, in the consumed part. -/
  copy_le : ∀ i < pool.capacity, (pool.entries i).ptr ≠ 0 →
    pool.table + pool.capacity * sizeofStrView ≤ (pool.entries i).ptr ∧
      (pool.entries i).ptr + (pool.entries i).len < pool.arena.top
  /-- The copies are terminated. -/
  terminated : ∀ i < pool.capacity, (pool.entries i).ptr ≠ 0 →
    pool.mem ((pool.entries i).ptr + (pool.entries i).len) = 0
  /-- Two copies do not start at one address. -/
  apart : ∀ i < pool.capacity, ∀ j < pool.capacity, (pool.entries i).ptr ≠ 0 →
    (pool.entries i).ptr = (pool.entries j).ptr → i = j

/-- A slot is free when its view is at NULL. -/
theorem slot_eq_none {i : Nat} : pool.slot i = none ↔ (pool.entries i).ptr = 0 := by
  unfold slot
  split
  · exact iff_of_true rfl ‹_›
  · exact iff_of_false (Option.some_ne_none _) ‹_›

/-- A slot that is taken has the string of its view. -/
theorem slot_eq_some {i : Nat} :
    pool.slot i = some t ↔ (pool.entries i).ptr ≠ 0 ∧ (pool.entries i).text pool.mem = t := by
  unfold slot
  split
  · exact iff_of_false (fun h => nomatch h) fun h => h.1 ‹_›
  · rw [Option.some.injEq]
    exact (and_iff_right ‹_›).symm

/-- The strings of a pool are those it knows. -/
theorem mem_strings : t ∈ pool.strings ↔ ∃ v, pool.Known t v := by
  rw [strings, Probing.mem_keys]
  constructor
  · rintro ⟨i, hi, hslot⟩
    exact ⟨_, i, hi, hslot, rfl⟩
  · rintro ⟨_, i, hi, hslot, -⟩
    exact ⟨i, hi, hslot⟩

/-- A known view is not null and shows its string. -/
theorem Known.text_eq (h : pool.Known t v) : v.ptr ≠ 0 ∧ v.text pool.mem = t := by
  obtain ⟨i, -, hslot, rfl⟩ := h
  exact slot_eq_some.mp hslot

/-- Views start at the same address exactly when they show the same string. -/
theorem Good.ptr_eq_iff (hgood : pool.Good) {t' : List UInt8} (h : pool.Known t v)
    (h' : pool.Known t' w) : v.ptr = w.ptr ↔ t = t' := by
  have hv := h.text_eq.1
  obtain ⟨i, hi, hslot, rfl⟩ := h
  obtain ⟨j, hj, hslot', rfl⟩ := h'
  constructor
  · intro hptr
    obtain rfl := hgood.apart i hi j hj hv hptr
    exact Option.some.inj (hslot.symm.trans hslot')
  · rintro rfl
    rw [hgood.placed.distinct hi hj hslot hslot']

private theorem match_iff {i : Nat} (hptr : (pool.entries i).ptr ≠ 0) :
    ((pool.entries i).len = strLen str ∧
      memCompare (Cells.read pool.mem (pool.entries i).ptr (strLen str)) str.bytes = 0) ↔
      pool.slot i = some str.bytes := by
  rw [slot_eq_some, StrView.text, memCompare_eq_zero (by rw [Cells.length_read, strLen])]
  constructor
  · rintro ⟨hlen, hread⟩
    rw [hlen]
    exact ⟨hptr, hread⟩
  · rintro ⟨-, hread⟩
    have hlen := congrArg List.length hread
    rw [Cells.length_read] at hlen
    rw [strLen, ← hlen]
    exact ⟨rfl, hread⟩

/-- The size of the table did not wrap. -/
theorem Good.size_lt (hgood : pool.Good) : pool.capacity * sizeofStrView < usizeSize := by
  have htable := hgood.table_le
  have hoffset := pool.arena.offset_le
  have hfits := pool.arena.capacity_fits
  have hmax := usizeMax_succ
  unfold Arena.top at htable
  omega

/-- The loop is the search of the probing table. -/
theorem internLoop_eq (hgood : pool.Good) {probes index : Nat} (hindex : index < pool.capacity) :
    internLoop pool str probes index =
      match Probing.seek pool.capacity pool.slot str.bytes probes index with
      | none => .ok (strViewNull, pool)
      | some j =>
        if (pool.entries j).ptr = 0 then internInsert pool str j
        else .ok (pool.entries j, pool) := by
  have hcap := hgood.capacity_lt
  induction probes generalizing index with
  | zero => rfl
  | succ probes ih =>
    rw [internLoop, Probing.seek, tableSlots_eq hgood.size_lt, if_pos hindex]
    by_cases hptr : (pool.entries index).ptr = 0
    · have hstop : Probing.Stops pool.slot str.bytes index := Or.inl (slot_eq_none.mpr hptr)
      simp only [hptr, if_true, if_pos hstop]
    · by_cases hmatch : pool.slot index = some str.bytes
      · have hstop : Probing.Stops pool.slot str.bytes index := Or.inr hmatch
        simp only [hptr, if_false, if_pos hstop, if_pos ((match_iff hptr).mpr hmatch)]
      · have hpass : ¬ Probing.Stops pool.slot str.bytes index := by
          rintro (hnone | hsome)
          · exact hptr (slot_eq_none.mp hnone)
          · exact hmatch hsome
        have hnext : usizeAdd index 1 % pool.capacity = Cyclic.next pool.capacity index := by
          rw [usizeAdd_of_lt (by omega), Cyclic.next]
        simp only [hptr, if_false, if_neg hpass, if_neg fun h => hmatch ((match_iff hptr).mp h),
          hnext]
        exact ih (Cyclic.next_lt hindex)

/-- A home is a slot of the table. -/
theorem internHome_lt (hgood : pool.Good) : internHome pool.capacity t < pool.capacity :=
  Nat.mod_lt _ hgood.capacity_pos

/-- The call is the search from the home of the string. -/
theorem internString_eq (hgood : pool.Good) (hs : s.getD .empty = str) :
    internString pool s =
      match Probing.seek pool.capacity pool.slot str.bytes pool.capacity
        (internHome pool.capacity str.bytes) with
      | none => .ok (strViewNull, pool)
      | some j =>
        if (pool.entries j).ptr = 0 then internInsert pool str j
        else .ok (pool.entries j, pool) := by
  subst hs
  rw [internString, if_neg hgood.table_pos]
  exact internLoop_eq hgood (internHome_lt hgood)

/-- A known string is returned with its view, and nothing changes. -/
theorem internString_known (hgood : pool.Good) (h : pool.Known (s.getD .empty).bytes v) :
    internString pool s = .ok (v, pool) := by
  obtain ⟨i, hi, hslot, rfl⟩ := h
  rw [internString_eq hgood rfl, hgood.placed.seek_mem (internHome_lt hgood) hi hslot]
  simp only [if_neg (slot_eq_some.mp hslot).1]

private theorem copy_mem {mem : Memory} {p : Nat} (hp : p ≠ 0) :
    let mem' := Function.update (memCopy mem p str.bytes) (p + strLen str) 0
    Cells.read mem' p (strLen str) = str.bytes ∧ mem' (p + strLen str) = 0 ∧
      ∀ a < p, mem' a = mem a := by
  have hcopy : memCopy mem p str.bytes = Cells.write mem p str.bytes := by
    unfold memCopy
    split
    · rename_i h
      have hnil : str.bytes = [] := List.length_eq_zero_iff.mp (h.resolve_left hp)
      funext a
      rw [hnil, Cells.write_of_outside]
      simp only [List.length_nil]
      omega
    · rfl
  refine ⟨?_, Function.update_self .., fun a ha => ?_⟩
  · refine Eq.trans ?_ (@Cells.read_write_self _ mem p str.bytes)
    apply Cells.read_congr
    intro a _ hlt
    rw [Function.update_of_ne (by omega), hcopy]
  · rw [Function.update_of_ne (by omega), hcopy, Cells.write_of_outside (Or.inl ha)]

/-- What a call that returns a view leaves: the string is known under the view, and
what was known still is. -/
structure Interned (pool : InternPool) (t : List UInt8) (v : StrView) (pool' : InternPool) :
    Prop where
  good : pool'.Good
  /-- The table is the same object. -/
  capacity_eq : pool'.capacity = pool.capacity
  /-- The string is known under the view returned. -/
  known : pool'.Known t v
  /-- Every known string keeps its view. -/
  keeps : ∀ t' w, pool.Known t' w → pool'.Known t' w
  /-- No other string has become known. -/
  strings_eq : pool'.strings = insert t pool.strings

/-- The pool after a copy at an address above the consumed part has been entered into a
slot. -/
structure Entered (pool : InternPool) (str : CString) (j p : Nat) (pool' : InternPool) :
    Prop where
  /-- The table is the same object. -/
  table_eq : pool'.table = pool.table
  /-- The table has the same slots. -/
  capacity_eq : pool'.capacity = pool.capacity
  /-- One more string is counted. -/
  count_eq : pool'.count = pool.count + 1
  /-- The slot shows the copy. -/
  self : pool'.entries j = ⟨p, strLen str⟩
  /-- The other slots are as they were. -/
  other : ∀ i, i ≠ j → pool'.entries i = pool.entries i
  /-- The copy lies above what was consumed. -/
  le_ptr : pool.arena.top ≤ p
  /-- The copy and its terminator are consumed. -/
  top_eq : pool'.arena.top = p + (strLen str + 1)
  /-- The copy is the string. -/
  read_eq : Cells.read pool'.mem p (strLen str) = str.bytes
  /-- The copy is terminated. -/
  terminated : pool'.mem (p + strLen str) = 0
  /-- The memory below the copy is as it was. -/
  below : ∀ a < p, pool'.mem a = pool.mem a

namespace Entered

variable {j p i : Nat}

/-- An entered string is not at NULL. -/
theorem ptr_ne_zero (h : pool.Entered str j p pool') : p ≠ 0 := by
  have hbuf := pool.arena.buffer_pos
  have hle := h.le_ptr
  unfold Arena.top at hle
  omega

/-- The older copies end below the new one. -/
theorem old_lt (h : pool.Entered str j p pool') (hgood : pool.Good) (hi : i < pool.capacity)
    (hptr : (pool.entries i).ptr ≠ 0) : (pool.entries i).ptr + (pool.entries i).len < p :=
  (hgood.copy_le i hi hptr).2.trans_le h.le_ptr

/-- An occupied slot is the new one or was occupied. -/
theorem occupied (h : pool.Entered str j p pool') (hptr : (pool'.entries i).ptr ≠ 0) :
    i = j ∨ (i ≠ j ∧ pool'.entries i = pool.entries i ∧ (pool.entries i).ptr ≠ 0) := by
  by_cases hij : i = j
  · exact Or.inl hij
  · rw [h.other i hij] at hptr
    exact Or.inr ⟨hij, h.other i hij, hptr⟩

/-- The table of strings has got one entry. -/
theorem slot_eq (h : pool.Entered str j p pool') (hgood : pool.Good) (hi : i < pool.capacity) :
    pool'.slot i = Function.update pool.slot j (some str.bytes) i := by
  by_cases hij : i = j
  · rw [hij, Function.update_self, slot_eq_some, h.self]
    exact ⟨h.ptr_ne_zero, h.read_eq⟩
  · rw [Function.update_of_ne hij, slot, slot, h.other i hij]
    by_cases hptr : (pool.entries i).ptr = 0
    · rw [if_pos hptr, if_pos hptr]
    · rw [if_neg hptr, if_neg hptr, StrView.text, StrView.text]
      have hlt := h.old_lt hgood hi hptr
      exact congrArg some (Cells.read_congr fun a _ ha => h.below a (by omega))

/-- Two copies still do not start at one address. -/
theorem apart (h : pool.Entered str j p pool') (hgood : pool.Good) {k : Nat}
    (hi : i < pool.capacity) (hk : k < pool.capacity) (hptr : (pool'.entries i).ptr ≠ 0)
    (heq : (pool'.entries i).ptr = (pool'.entries k).ptr) : i = k := by
  rcases h.occupied hptr with rfl | ⟨-, he, hptr'⟩
  · rcases h.occupied (heq ▸ hptr) with rfl | ⟨-, he', hptr'⟩
    · rfl
    · have hlt := h.old_lt hgood hk hptr'
      rw [← he', ← heq, h.self] at hlt
      simp only at hlt
      omega
  · rcases h.occupied (heq ▸ hptr) with rfl | ⟨-, he', -⟩
    · have hlt := h.old_lt hgood hi hptr'
      rw [← he, heq, h.self] at hlt
      simp only at hlt
      omega
    · rw [he, he'] at heq
      exact hgood.apart i hi k hk hptr' heq

/-- An entered string is one string more. -/
theorem strings_eq (h : pool.Entered str j p pool') (hgood : pool.Good) (hj : j < pool.capacity)
    (hempty : pool.slot j = none) : pool'.strings = insert str.bytes pool.strings := by
  rw [strings, h.capacity_eq, Probing.keys_congr fun i hi => h.slot_eq hgood hi,
    Probing.keys_update hj hempty, strings]

/-- The invariant holds after a missing string has been entered where its search ended. -/
theorem good (h : pool.Entered str j p pool') (hgood : pool.Good)
    (hnew : ∀ i < pool.capacity, pool.slot i ≠ some str.bytes) (hj : j < pool.capacity)
    (hempty : pool.slot j = none)
    (hreach : ∀ d < Cyclic.dist pool.capacity (internHome pool.capacity str.bytes) j,
      pool.slot ((internHome pool.capacity str.bytes + d) % pool.capacity) ≠ none) :
    pool'.Good := by
  have htable := hgood.table_le.trans h.le_ptr
  constructor
  case table_pos => rw [h.table_eq]; exact hgood.table_pos
  case capacity_pos => rw [h.capacity_eq]; exact hgood.capacity_pos
  case capacity_lt => rw [h.capacity_eq]; exact hgood.capacity_lt
  case placed =>
    rw [h.capacity_eq]
    exact (hgood.placed.insert hnew hreach).congr fun i hi => h.slot_eq hgood hi
  case count_eq =>
    have hnotMem : str.bytes ∉ pool.strings := fun hmem => by
      obtain ⟨i, hi, hslot⟩ := Probing.mem_keys.mp hmem
      exact hnew i hi hslot
    rw [h.count_eq, h.strings_eq hgood hj hempty, Finset.card_insert_of_notMem hnotMem,
      hgood.count_eq]
  case table_le =>
    rw [h.table_eq, h.capacity_eq, h.top_eq]
    exact htable.trans (Nat.le_add_right _ _)
  case copy_le =>
    intro i hi hptr
    rw [h.table_eq, h.capacity_eq, h.top_eq]
    rcases h.occupied hptr with rfl | ⟨-, he, hptr'⟩
    · rw [h.self]
      exact ⟨htable, Nat.lt_succ_self _⟩
    · rw [h.capacity_eq] at hi
      have hlt := h.old_lt hgood hi hptr'
      rw [he]
      exact ⟨(hgood.copy_le i hi hptr').1, by omega⟩
  case terminated =>
    intro i hi hptr
    rcases h.occupied hptr with rfl | ⟨-, he, hptr'⟩
    · rw [h.self]
      exact h.terminated
    · rw [h.capacity_eq] at hi
      rw [he, h.below _ (h.old_lt hgood hi hptr')]
      exact hgood.terminated i hi hptr'
  case apart =>
    intro i hi k hk hptr heq
    rw [h.capacity_eq] at hi hk
    exact h.apart hgood hi hk hptr heq

/-- A missing string entered where its search ended is interned. -/
theorem interned (h : pool.Entered str j p pool') (hgood : pool.Good)
    (hnew : ∀ i < pool.capacity, pool.slot i ≠ some str.bytes) (hj : j < pool.capacity)
    (hempty : pool.slot j = none)
    (hreach : ∀ d < Cyclic.dist pool.capacity (internHome pool.capacity str.bytes) j,
      pool.slot ((internHome pool.capacity str.bytes + d) % pool.capacity) ≠ none) :
    pool.Interned str.bytes ⟨p, strLen str⟩ pool' := by
  refine ⟨h.good hgood hnew hj hempty hreach, h.capacity_eq, ?_, ?_, h.strings_eq hgood hj hempty⟩
  · refine ⟨j, h.capacity_eq ▸ hj, ?_, h.self⟩
    rw [h.slot_eq hgood hj, Function.update_self]
  · rintro t' w ⟨i, hi, hslot, rfl⟩
    have hij : i ≠ j := by
      rintro rfl
      rw [hempty] at hslot
      cases hslot
    refine ⟨i, h.capacity_eq ▸ hi, ?_, h.other i hij⟩
    rw [h.slot_eq hgood hi, Function.update_of_ne hij, hslot]

end Entered

/-- A missing string is put into the empty slot where its search has ended, or the
arena is exhausted and nothing changes. -/
theorem internInsert_spec (hgood : pool.Good) (hnew : ∀ i < pool.capacity,
    pool.slot i ≠ some str.bytes) {j : Nat} (hj : j < pool.capacity) (hempty : pool.slot j = none)
    (hreach : ∀ d < Cyclic.dist pool.capacity (internHome pool.capacity str.bytes) j,
      pool.slot ((internHome pool.capacity str.bytes + d) % pool.capacity) ≠ none) :
    internInsert pool str j = .ok (strViewNull, pool) ∨
      ∃ v pool', internInsert pool str j = .ok (v, pool') ∧ pool.Interned str.bytes v pool' := by
  unfold internInsert
  split
  · exact Or.inl rfl
  · have hlen := str.length_lt
    have hmax := usizeMax_succ
    have hsize : usizeAdd (strLen str) 1 = strLen str + 1 :=
      usizeAdd_of_lt (by unfold strLen; omega)
    obtain ⟨arena', p, hok, hgrants⟩ := pool.arena.alloc_grants
      (show usizeAdd (strLen str) 1 < usizeSize by rw [hsize]; unfold strLen; omega)
    rw [hok, ok_bind]
    by_cases hp : p = 0
    · subst hp
      rw [hgrants.eq_of_null]
      exact Or.inl rfl
    · refine Or.inr ⟨_, _, if_neg hp, ?_⟩
      obtain ⟨hread, hterm, hbelow⟩ := @copy_mem str pool.mem p hp
      have htop : pool.arena.top ≤ p ∧ arena'.top = p + (strLen str + 1) := by
        rcases hgrants with ⟨-, rfl, -, -, htop⟩ | ⟨-, hnull, -⟩
        · rw [hsize] at htop
          exact ⟨Nat.le_add_right _ _, htop⟩
        · exact absurd hnull hp
      refine Entered.interned ⟨rfl, rfl, rfl, ?_, ?_, htop.1, htop.2, hread, hterm, hbelow⟩ hgood
        hnew hj hempty hreach
      · exact Function.update_self ..
      · exact fun i hi => Function.update_of_ne hi ..

/-- A call returns the null view and changes nothing, or interns its string. -/
theorem internString_spec (hgood : pool.Good) (s : Option CString) :
    internString pool s = .ok (strViewNull, pool) ∨ ∃ v pool',
      internString pool s = .ok (v, pool') ∧ pool.Interned (s.getD .empty).bytes v pool' := by
  by_cases hknown : ∃ v, pool.Known (s.getD .empty).bytes v
  · obtain ⟨v, hv⟩ := hknown
    refine Or.inr ⟨v, pool, internString_known hgood hv, hgood, rfl, hv, fun _ _ h => h, ?_⟩
    exact (Finset.insert_eq_self.mpr (mem_strings.mpr ⟨v, hv⟩)).symm
  · have hnew : ∀ i < pool.capacity, pool.slot i ≠ some (s.getD .empty).bytes :=
      fun i hi hslot => hknown ⟨_, i, hi, hslot, rfl⟩
    rw [internString_eq hgood rfl]
    rcases Probing.seek_notMem (internHome_lt hgood) hnew with ⟨j, hj, hseek, hempty, hreach⟩ |
      ⟨hseek, -⟩
    · rw [hseek]
      simp only [if_pos (slot_eq_none.mp hempty)]
      exact internInsert_spec hgood hnew hj hempty hreach
    · rw [hseek]
      exact Or.inl rfl

end InternPool

end CanonC
