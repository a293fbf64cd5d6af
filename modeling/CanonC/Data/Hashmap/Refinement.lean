import CanonC.Data.Hashmap.Calls
import Mathlib.Data.Finmap
import Mathlib.Data.Int.ModEq

/-!
# The hash map is a finite partial map

Keys are taken modulo the instantiation's equality, and a map is a finite partial
function on the classes that holds at most as many keys as the load cap admits. Every
run of the mutating calls is a run of that specification, and every lookup in a state
reached reads it.
-/

namespace CanonC

open Toolkit

variable {K V Ctx : Type*} {fns : HashFns K Ctx} {ctx : Ctx}

/-- The instantiation's equality as a relation. -/
def HashFns.Lawful.setoid (hl : fns.Lawful ctx) : Setoid K where
  r a b := fns.eq a b ctx = true
  iseqv := ⟨hl.refl, fun h => hl.symm _ _ h, fun h h' => hl.trans _ _ _ h h'⟩

/-- Keys modulo the instantiation's equality. -/
abbrev HashFns.Lawful.KeyClass (hl : fns.Lawful ctx) : Type _ := Quotient hl.setoid

/-- The class of a key. -/
def HashFns.Lawful.classOf (hl : fns.Lawful ctx) (key : K) : hl.KeyClass :=
  Quotient.mk hl.setoid key

/-- Keys have one class exactly when they are equal. -/
theorem HashFns.Lawful.classOf_eq_iff (hl : fns.Lawful ctx) {a b : K} :
    hl.classOf a = hl.classOf b ↔ fns.eq a b ctx = true :=
  ⟨fun h => Quotient.exact h, fun h => Quotient.sound h⟩

instance HashFns.Lawful.decidableEqKeyClass (hl : fns.Lawful ctx) : DecidableEq hl.KeyClass :=
  fun a b => Quotient.recOnSubsingleton₂ a b fun a b =>
    decidable_of_iff (fns.eq a b ctx = true) hl.classOf_eq_iff.symm

/-- The finite partial maps a hash map stands for. -/
abbrev KeyMap (V : Type*) (hl : fns.Lawful ctx) := Finmap fun _ : hl.KeyClass => V

/-- What a mutating call does to a finite partial map. -/
def mapSpec (hl : fns.Lawful ctx) (capacity : Nat) (m : KeyMap V hl) :
    HashmapOp K V → HashmapOut V × KeyMap V hl
  | .insert (some key) (some val) =>
    if m.keys.card < capacity - capacity / 4 then
      (.inserted (.ok (m.lookup (hl.classOf key)).isNone), m.insert (hl.classOf key) val)
    else (.inserted (.error .capacityExceeded), m)
  | .insert _ _ => (.inserted (.error .invalidArg), m)
  | .remove (some key) =>
    match m.lookup (hl.classOf key) with
    | some v => (.removed (.ok v), m.erase (hl.classOf key))
    | none => (.removed (.error .notFound), m)
  | .remove none => (.removed (.error .invalidArg), m)
  | .clear => (.cleared, ∅)

section FiniteMap

variable {α : Type*} [DecidableEq α] {m : Finmap fun _ : α => V} {a b : α} {v w : V}

/-- What is found after an insertion. -/
theorem lookup_insert_iff :
    (m.insert a v).lookup b = some w ↔ (a = b ∧ v = w) ∨ (a ≠ b ∧ m.lookup b = some w) := by
  by_cases hab : a = b
  · subst hab
    simp
  · simp [Finmap.lookup_insert_of_ne m (Ne.symm hab), hab]

private theorem lookup_erase_iff :
    (m.erase a).lookup b = some w ↔ a ≠ b ∧ m.lookup b = some w := by
  by_cases hab : a = b
  · subst hab
    simp
  · simp [Finmap.lookup_erase_ne (Ne.symm hab), hab]

private theorem keys_insert : (m.insert a v).keys = insert a m.keys := by
  ext b
  simp [Finmap.mem_keys, Finmap.mem_insert]

/-- An insertion adds a key unless it is there. -/
theorem card_keys_insert :
    (m.insert a v).keys.card = m.keys.card + (m.lookup a).isNone.toNat := by
  rw [keys_insert]
  cases hl : m.lookup a with
  | none =>
    rw [Finset.card_insert_of_notMem (by rw [Finmap.mem_keys]; exact Finmap.lookup_eq_none.mp hl)]
    rfl
  | some w =>
    rw [Finset.insert_eq_of_mem (Finmap.mem_keys.mpr (Finmap.mem_of_lookup_eq_some hl))]
    rfl

private theorem card_keys_erase (h : m.lookup a = some v) :
    (m.erase a).keys.card = m.keys.card - 1 := by
  rw [Finmap.keys_erase, Finset.card_erase_of_mem]
  exact Finmap.mem_keys.mpr (Finmap.mem_of_lookup_eq_some h)

end FiniteMap

/-- The hash map stands for the finite partial map. -/
structure HashMap.Represents (hl : fns.Lawful ctx) (capacity : Nat) (map : HashMap K V Ctx)
    (m : KeyMap V hl) : Prop where
  /-- The context is the one the laws are about. -/
  ctx_eq : map.ctx = ctx
  /-- The capacity is that of the specification. -/
  capacity_eq : map.capacity = capacity
  /-- The map is well formed. -/
  wellFormed : map.WellFormed fns
  /-- The occupied slots hold the bindings. -/
  lookup : ∀ key v, m.lookup (hl.classOf key) = some v ↔
    Bound fns map.ctx map.capacity map.slots key v
  /-- The count is the number of keys. -/
  card : m.keys.card = map.len

namespace HashMap.Represents

variable {hl : fns.Lawful ctx} {capacity : Nat} {map : HashMap K V Ctx} {m : KeyMap V hl}

/-- The comparison and the hash agree under the context of the map. -/
theorem lawful (h : map.Represents hl capacity m) : fns.Lawful map.ctx := h.ctx_eq ▸ hl

/-- A lookup reads the partial map. -/
theorem hashmapGet_eq (h : map.Represents hl capacity m) (key : K) :
    hashmapGet fns map key = m.lookup (hl.classOf key) := by
  ext v
  rw [h.lookup, h.wellFormed.hashmapGet_eq_some_iff h.lawful]

/-- An insertion below the load cap adds or replaces one binding. -/
theorem insert (h : map.Represents hl capacity m) (key : K) (val : V)
    (hlen : map.len < capacity - capacity / 4) :
    ∃ map', hashmapInsert fns map (some key) (some val) =
        (map', .ok (m.lookup (hl.classOf key)).isNone) ∧
      map'.Represents hl capacity (m.insert (hl.classOf key) val) := by
  obtain rfl := h.ctx_eq
  obtain rfl := h.capacity_eq
  obtain ⟨s', isNewKey, hins, hw', hnew, hb⟩ := h.wellFormed.hashmapInsert_room hl key val hlen
  have hflag : isNewKey = (m.lookup (hl.classOf key)).isNone := by
    rw [Bool.eq_iff_iff, hnew, h.hashmapGet_eq, Option.isNone_iff_eq_none]
  rw [← hflag]
  refine ⟨_, hins, rfl, rfl, hw', fun k v => ?_, ?_⟩
  · rw [lookup_insert_iff, hl.classOf_eq_iff, ne_eq, hl.classOf_eq_iff, Bool.not_eq_true,
      h.lookup]
    exact (hb k v).symm
  · rw [card_keys_insert, h.card, ← hflag]

/-- Removing a present key erases its binding. -/
theorem remove (h : map.Represents hl capacity m) {key : K} {v : V}
    (hv : m.lookup (hl.classOf key) = some v) :
    ∃ map', hashmapRemove fns map (some key) = (map', .ok v) ∧
      map'.Represents hl capacity (m.erase (hl.classOf key)) := by
  obtain rfl := h.ctx_eq
  obtain rfl := h.capacity_eq
  have hget := (h.hashmapGet_eq key).trans hv
  obtain ⟨s', hrem, hpos, hw', hb⟩ := h.wellFormed.hashmapRemove_present hl hget
  refine ⟨_, hrem, rfl, rfl, hw', fun k w => ?_, ?_⟩
  · rw [lookup_erase_iff, ne_eq, hl.classOf_eq_iff, Bool.not_eq_true, h.lookup]
    exact (hb k w).symm
  · rw [card_keys_erase hv, h.card]

private theorem empty {slots : Nat → Slot K V} (hn : capacity.isPowerOfTwo)
    (hc : capacity ≤ 2 ^ 30) :
    (⟨emptySlots slots capacity, capacity, 0, ctx⟩ : HashMap K V Ctx).Represents hl capacity
      ∅ := by
  obtain ⟨hw, hb⟩ := @wellFormed_emptySlots _ _ _ fns slots _ ctx hn hc
  refine ⟨rfl, rfl, hw, fun key v => ?_, ?_⟩
  · simpa using hb key v
  · rw [Finmap.keys_empty, Finset.card_empty]

/-- Every call on a map that stands for `m` does what the specification says. -/
theorem step (h : map.Represents hl capacity m) (op : HashmapOp K V) :
    ∃ map', hashmapStep fns map op = .ok ((mapSpec hl capacity m op).1, map') ∧
      map'.Represents hl capacity (mapSpec hl capacity m op).2 := by
  cases op with
  | insert key val =>
    cases key with
    | none => exact ⟨map, by simp [hashmapStep, hashmapInsert, mapSpec], h⟩
    | some key =>
      cases val with
      | none => exact ⟨map, by simp [hashmapStep, hashmapInsert, mapSpec], h⟩
      | some val =>
        by_cases hlen : map.len < capacity - capacity / 4
        · obtain ⟨map', hins, h'⟩ := h.insert key val hlen
          refine ⟨map', ?_, ?_⟩
          · simp [hashmapStep, hins, mapSpec, h.card, hlen]
          · simpa [mapSpec, h.card, hlen] using h'
        · have hfull := @WellFormed.hashmapInsert_full _ _ _ fns map key val
            (by rw [h.capacity_eq]; omega)
          refine ⟨map, ?_, ?_⟩
          · simp [hashmapStep, hfull, mapSpec, h.card, hlen]
          · simpa [mapSpec, h.card, hlen] using h
  | remove key =>
    cases key with
    | none => exact ⟨map, by simp [hashmapStep, hashmapRemove, mapSpec], h⟩
    | some key =>
      cases hv : m.lookup (hl.classOf key) with
      | none =>
        have habs := WellFormed.hashmapRemove_absent ((h.hashmapGet_eq key).trans hv)
        refine ⟨map, ?_, ?_⟩
        · simp [hashmapStep, habs, mapSpec, hv]
        · simpa [mapSpec, hv] using h
      | some v =>
        obtain ⟨map', hrem, h'⟩ := h.remove hv
        refine ⟨map', ?_, ?_⟩
        · simp [hashmapStep, hrem, mapSpec, hv]
        · simpa [mapSpec, hv] using h'
  | clear =>
    obtain rfl := h.ctx_eq
    obtain rfl := h.capacity_eq
    exact ⟨_, rfl, empty h.wellFormed.pow h.wellFormed.cap_le⟩

end HashMap.Represents

/-- A map that `hashmap_init` accepts stands for the empty partial map. -/
theorem hashmapInit_represents {slotSize slotAlign capacity : Nat} {buf : SlotBuffer K V}
    {map : HashMap K V Ctx} (hl : fns.Lawful ctx) (hc : capacity ≤ 2 ^ 30)
    (h : hashmapInit slotSize slotAlign buf capacity ctx = .ok map) :
    map.Represents hl capacity ∅ := by
  obtain ⟨hn, rfl⟩ := hashmapInit_eq_ok h
  exact .empty hn hc

/-- Every run from `hashmap_init` completes and is a run of the specification. -/
theorem run_represents {slotSize slotAlign capacity : Nat} {buf : SlotBuffer K V}
    {map₀ : HashMap K V Ctx} (hl : fns.Lawful ctx) (hc : capacity ≤ 2 ^ 30)
    (hinit : hashmapInit slotSize slotAlign buf capacity ctx = .ok map₀)
    (ops : List (HashmapOp K V)) :
    ∃ outs map m, run (hashmapStep fns) map₀ ops = .ok (outs, map) ∧
      Trace (fun m op out m' => mapSpec hl capacity m op = (out, m')) ∅ ops outs m ∧
      map.Represents hl capacity m := by
  have h₀ := hashmapInit_represents hl hc hinit
  obtain ⟨outs, map, hrun, -⟩ := run_total
    (I := fun map : HashMap K V Ctx => ∃ m, map.Represents hl capacity m)
    (fun map op ⟨m, h⟩ => by
      obtain ⟨map', hs, h'⟩ := h.step op
      exact ⟨_, map', hs, _, h'⟩) ops ⟨∅, h₀⟩
  have hsim : ∀ (map : HashMap K V Ctx) (m : KeyMap V hl) op out map',
      map.Represents hl capacity m → hashmapStep fns map op = .ok (out, map') →
      ∃ m', mapSpec hl capacity m op = (out, m') ∧ map'.Represents hl capacity m' := by
    intro map m op out map' h hs
    obtain ⟨map'', hs', h'⟩ := h.step op
    rw [hs] at hs'
    obtain ⟨rfl, rfl⟩ := Prod.mk.inj (Except.ok.inj hs')
    exact ⟨_, rfl, h'⟩
  obtain ⟨m, htrace, h⟩ := run_simulates hsim h₀ hrun
  exact ⟨outs, map, m, hrun, htrace, h⟩

/-- Natural-number keys compared as numbers and hashed by their low 64 bits. -/
def natKeys : HashFns Nat Unit := ⟨fun key _ => UInt64.ofNat key, fun a b _ => a == b⟩

/-- The comparison and the hash of these keys agree. -/
theorem natKeys_lawful : natKeys.Lawful () where
  refl a := beq_self_eq_true a
  symm a b h := by rw [beq_iff_eq.mp h]; exact beq_self_eq_true b
  trans a b c h h' := by rw [beq_iff_eq.mp h]; exact h'
  hash_eq a b h := by rw [beq_iff_eq.mp h]

/-- A zeroed and aligned buffer of 128 bytes, room for four slots of 32 bytes. -/
def zeroedSlots : SlotBuffer Nat Nat := ⟨some 4096, 128, fun _ => ⟨0, 0, false, 0, 0⟩⟩

/-- The hash map refines a finite partial map. Every sequence of insertions, removals
and clears from `hashmap_init` completes, answers call by call as the partial map
does, and leaves a map whose lookups read the partial map and whose `len` is its
size. There a refused call leaves the map as it is, and below the load cap the
insertion loop never falls through. -/
theorem hashmap_refines_finite_map {slotSize slotAlign capacity : Nat} {buf : SlotBuffer K V}
    {map₀ : HashMap K V Ctx} (hl : fns.Lawful ctx) (hc : capacity ≤ 2 ^ 30)
    (hinit : hashmapInit slotSize slotAlign buf capacity ctx = .ok map₀)
    (ops : List (HashmapOp K V)) :
    ∃ outs map m, run (hashmapStep fns) map₀ ops = .ok (outs, map) ∧
      Trace (fun m op out m' => mapSpec hl capacity m op = (out, m')) ∅ ops outs m ∧
      (∀ key, hashmapGet fns map key = m.lookup (hl.classOf key) ∧
        ((hashmapGetOrNull fns map key).map fun i => (map.slots i).value) =
          m.lookup (hl.classOf key) ∧
        hashmapContainsKey fns map key = (m.lookup (hl.classOf key)).isSome) ∧
      map.len = m.keys.card ∧
      (∀ key val, capacity - capacity / 4 ≤ map.len →
        hashmapInsert fns map (some key) (some val) = (map, .error .capacityExceeded)) ∧
      (∀ key, m.lookup (hl.classOf key) = none →
        hashmapRemove fns map (some key) = (map, .error .notFound)) ∧
      (∀ key val, map.len < capacity - capacity / 4 →
        (hmInsertLoop fns capacity map (hmHome (hmHash fns map key) capacity) 0
          (hmIncoming fns map key val)).2 ≠ none) := by
  obtain ⟨outs, map, m, hrun, htrace, h⟩ := run_represents hl hc hinit ops
  have hget := h.hashmapGet_eq
  obtain rfl := h.capacity_eq
  refine ⟨outs, map, m, hrun, htrace, fun key => ⟨hget key, hget key, ?_⟩, h.card.symm, ?_, ?_, ?_⟩
  · rw [hashmapContainsKey, hget key]
  · exact fun key val hlen => HashMap.WellFormed.hashmapInsert_full key val hlen
  · exact fun key hv => HashMap.WellFormed.hashmapRemove_absent ((hget key).trans hv)
  · exact fun key val hlen => h.wellFormed.insertLoop_ne_none h.lawful key val hlen

/-- Colliding keys in a table of four slots. -/
theorem hashmap_refines_finite_map_collision :
    ∃ outs map m, run (hashmapStep natKeys) ⟨emptySlots zeroedSlots.contents 4, 4, 0, ()⟩
        [.insert (some 1) (some 10), .insert (some 5) (some 20), .remove (some 1)] =
          .ok (outs, map) ∧
      Trace (fun m op out m' => mapSpec natKeys_lawful 4 m op = (out, m')) ∅
        [.insert (some 1) (some 10), .insert (some 5) (some 20), .remove (some 1)] outs m ∧
      hashmapGet natKeys map 1 = none ∧ m.lookup (natKeys_lawful.classOf 1) = none ∧
      hashmapGet natKeys map 5 = some 20 ∧ m.lookup (natKeys_lawful.classOf 5) = some 20 ∧
      map.len = m.keys.card := by
  have hinit : hashmapInit 32 8 zeroedSlots 4 () =
      .ok ⟨emptySlots zeroedSlots.contents 4, 4, 0, ()⟩ := rfl
  obtain ⟨outs, map, m, hrun, htrace, hlookup, hlen, -⟩ := hashmap_refines_finite_map natKeys_lawful
    (by decide) hinit [.insert (some 1) (some 10), .insert (some 5) (some 20), .remove (some 1)]
  obtain ⟨outs', map', hrun', hone, hfive⟩ : ∃ outs' map', run (hashmapStep natKeys)
      ⟨emptySlots zeroedSlots.contents 4, 4, 0, ()⟩
      [.insert (some 1) (some 10), .insert (some 5) (some 20), .remove (some 1)] =
        .ok (outs', map') ∧ hashmapGet natKeys map' 1 = none ∧
          hashmapGet natKeys map' 5 = some 20 :=
    ⟨_, _, rfl, rfl, rfl⟩
  obtain ⟨rfl, rfl⟩ := Prod.mk.inj (Except.ok.inj (hrun'.symm.trans hrun))
  exact ⟨outs', map', m, hrun, htrace, hone, (hlookup 1).1.symm.trans hone, hfive,
    (hlookup 5).1.symm.trans hfive, hlen⟩

/-- In every map reached from `hashmap_init`, each occupied slot caches the normalised
hash of its key and lies at its probe distance from home, displacement grows by at
most one from a slot to the next, unoccupied slots are zeroed, no key occurs twice
and `len` counts the occupied slots. -/
theorem hashmap_reachable_invariant {slotSize slotAlign capacity : Nat} {buf : SlotBuffer K V}
    {map₀ map : HashMap K V Ctx} {ops : List (HashmapOp K V)} {outs : List (HashmapOut V)}
    (hl : fns.Lawful ctx) (hc : capacity ≤ 2 ^ 30)
    (hinit : hashmapInit slotSize slotAlign buf capacity ctx = .ok map₀)
    (hrun : run (hashmapStep fns) map₀ ops = .ok (outs, map)) :
    (∀ i < capacity, (map.slots i).occupied = true →
      (map.slots i).hash = hmNormalizeHash (fns.hash (map.slots i).key ctx) ∧
      ((map.slots i).psl : Int) =
        (i - ((map.slots i).hash.toNat &&& (capacity - 1) : Nat)) % capacity) ∧
    (∀ i < capacity, (map.slots i).occupied = true → 0 < (map.slots i).psl →
      (map.slots ((i + (capacity - 1)) % capacity)).occupied = true ∧
      (map.slots i).psl - 1 ≤ (map.slots ((i + (capacity - 1)) % capacity)).psl) ∧
    (∀ i < capacity, (map.slots i).occupied = false →
      (map.slots i).psl = 0 ∧ (map.slots i).hash = 0) ∧
    (∀ i < capacity, ∀ j < capacity, (map.slots i).occupied = true →
      (map.slots j).occupied = true → i ≠ j →
      fns.eq (map.slots i).key (map.slots j).key ctx = false) ∧
    map.len = ((Finset.range capacity).filter fun i => (map.slots i).occupied = true).card := by
  obtain ⟨outs', map', m, hrun', -, h⟩ := run_represents hl hc hinit ops
  rw [hrun] at hrun'
  obtain ⟨-, rfl⟩ := Prod.mk.inj (Except.ok.inj hrun')
  obtain rfl := h.ctx_eq
  obtain rfl := h.capacity_eq
  have hw := h.wellFormed
  refine ⟨fun i hi ho => ⟨hw.robinHood.cached i hi ho, ?_⟩, fun i hi ho hp => ?_,
    hw.robinHood.empty, fun i hi j hj hoi hoj hij => ?_, hw.len_eq⟩
  · rw [hw.robinHood.dist i hi ho]
    exact Cyclic.dist_eq_emod (hmHome_lt hw.pow _)
  · obtain ⟨hop, hpp⟩ := hw.robinHood.order i hi ho hp
    exact ⟨hop, Nat.sub_le_of_le_add hpp⟩
  · rw [← Bool.not_eq_true]
    exact fun hk => hij (hw.distinct i hi j hj hoi hoj hk)

/-- A displaced key in a table of two slots. -/
theorem hashmap_reachable_invariant_two :
    ∃ outs map, run (hashmapStep natKeys) ⟨emptySlots zeroedSlots.contents 2, 2, 0, ()⟩
        [.insert (some 1) (some 10), .insert (some 3) (some 20)] = .ok (outs, map) ∧
      map.len = ((Finset.range 2).filter fun i => (map.slots i).occupied = true).card := by
  have hinit : hashmapInit 32 8 zeroedSlots 2 () =
      .ok ⟨emptySlots zeroedSlots.contents 2, 2, 0, ()⟩ := rfl
  obtain ⟨outs, map, -, hrun, -⟩ := run_represents natKeys_lawful (by decide) hinit
    [.insert (some 1) (some 10), .insert (some 3) (some 20)]
  have hinv := hashmap_reachable_invariant natKeys_lawful (by decide) hinit hrun
  exact ⟨outs, map, hrun, hinv.2.2.2.2⟩

end CanonC
