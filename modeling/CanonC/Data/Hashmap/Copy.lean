import CanonC.Data.Hashmap.Iteration
import CanonC.Data.Hashmap.Layout

/-!
# Copying a hash map through its collected keys and values

The collecting helpers list the keys and the values of a map in one order. Inserted pair by
pair into a new map they are new keys throughout, so that the copy fills up to its load cap
and then refuses the rest. A copy with room for all of them answers as the original does, and
one of the same capacity has its layout, whatever history the original had.
-/

namespace CanonC

open Toolkit

variable {K V Ctx : Type*} {fns : HashFns K Ctx} {ctx : Ctx} {capacity : Nat}
  {hl : fns.Lawful ctx} {map copy : HashMap K V Ctx} {m : KeyMap V hl}

/-- The calls that insert the collected keys with the collected values. -/
def restoreOps (keys : List K) (values : List V) : List (HashmapOp K V) :=
  (keys.zip values).map fun b => .insert (some b.1) (some b.2)

namespace HashMap.Represents

/-- Bindings of different keys that the map does not contain are all inserted as new, as long as
they stay below the load cap. -/
theorem run_insert_new (bs : List (K × V)) (h : copy.Represents hl capacity m)
    (hroom : copy.len + bs.length ≤ capacity - capacity / 4)
    (hdiffer : bs.Pairwise fun a b => fns.eq a.1 b.1 ctx = false)
    (habsent : ∀ b ∈ bs, m.lookup (hl.classOf b.1) = none) :
    ∃ copy' m', run (hashmapStep fns) copy (bs.map fun b => .insert (some b.1) (some b.2)) =
        .ok (List.replicate bs.length (.inserted (.ok true)), copy') ∧
      copy'.Represents hl capacity m' ∧ copy'.len = copy.len + bs.length ∧
      ∀ key v, m'.lookup (hl.classOf key) = some v ↔
        m.lookup (hl.classOf key) = some v ∨ ∃ b ∈ bs, fns.eq b.1 key ctx = true ∧ b.2 = v := by
  induction bs generalizing copy m with
  | nil => exact ⟨copy, m, rfl, h, rfl, fun key v => by simp⟩
  | cons b bs ih =>
    rw [List.length_cons] at hroom
    obtain ⟨hfirst, hrest⟩ := List.pairwise_cons.mp hdiffer
    have hnone := habsent b List.mem_cons_self
    obtain ⟨copy₁, hins, h₁⟩ := h.insert b.1 b.2 (by omega)
    rw [hnone, Option.isNone_none] at hins
    have hlen₁ : copy₁.len = copy.len + 1 := by
      rw [← h₁.card, card_keys_insert, h.card, hnone]
      rfl
    have habsent₁ : ∀ c ∈ bs, (m.insert (hl.classOf b.1) b.2).lookup (hl.classOf c.1) = none := by
      intro c hc
      have hne : hl.classOf c.1 ≠ hl.classOf b.1 := by
        rw [ne_comm, ne_eq, hl.classOf_eq_iff, hfirst c hc]
        exact Bool.false_ne_true
      rw [Finmap.lookup_insert_of_ne m hne]
      exact habsent c (List.mem_cons_of_mem b hc)
    obtain ⟨copy', m', hrun, h', hlen, hlookup⟩ := ih h₁ (by omega) hrest habsent₁
    refine ⟨copy', m', ?_, h', by rw [hlen, hlen₁, List.length_cons]; omega, fun key v => ?_⟩
    · rw [List.map_cons, List.length_cons, List.replicate_succ, run_cons_eq_ok]
      exact ⟨_, copy₁, _, by rw [hashmapStep, hins], hrun, rfl⟩
    · rw [hlookup, lookup_insert_iff, hl.classOf_eq_iff, ne_eq, hl.classOf_eq_iff,
        List.exists_mem_cons_iff]
      by_cases hkey : fns.eq b.1 key ctx = true
      · -- The key is the one just inserted, which the map did not have.
        rw [(hl.classOf_eq_iff.mpr hkey).symm, hnone]
        simp [hkey]
      · simp [hkey]

/-- At the load cap every insertion is refused. -/
theorem run_insert_full (bs : List (K × V)) (h : copy.Represents hl capacity m)
    (hfull : capacity - capacity / 4 ≤ copy.len) :
    run (hashmapStep fns) copy (bs.map fun b => .insert (some b.1) (some b.2)) =
      .ok (List.replicate bs.length (.inserted (.error .capacityExceeded)), copy) := by
  induction bs with
  | nil => rfl
  | cons b bs ih =>
    rw [List.map_cons, List.length_cons, List.replicate_succ, run_cons_eq_ok]
    refine ⟨_, copy, _, ?_, ih, rfl⟩
    rw [hashmapStep, WellFormed.hashmapInsert_full b.1 b.2 (by rw [h.capacity_eq]; exact hfull)]

/-- Bindings of different keys fill a new map up to the load cap. -/
theorem run_restore (bs : List (K × V)) (h : copy.Represents hl capacity ∅)
    (hdiffer : bs.Pairwise fun a b => fns.eq a.1 b.1 ctx = false) :
    ∃ copy' m', run (hashmapStep fns) copy (bs.map fun b => .insert (some b.1) (some b.2)) =
        .ok (List.replicate (min bs.length (capacity - capacity / 4)) (.inserted (.ok true)) ++
          List.replicate (bs.length - (capacity - capacity / 4))
            (.inserted (.error .capacityExceeded)), copy') ∧
      copy'.Represents hl capacity m' ∧
      copy'.len = min bs.length (capacity - capacity / 4) ∧
      ∀ key v, m'.lookup (hl.classOf key) = some v ↔
        ∃ b ∈ bs.take (capacity - capacity / 4), fns.eq b.1 key ctx = true ∧ b.2 = v := by
  obtain ⟨room, hroom⟩ : ∃ room, capacity - capacity / 4 = room := ⟨_, rfl⟩
  have hlen : copy.len = 0 := by rw [← h.card, Finmap.keys_empty, Finset.card_empty]
  have htake : (bs.take room).length ≤ room := by rw [List.length_take]; omega
  obtain ⟨copy', m', hrun, h', hlen', hlookup⟩ := h.run_insert_new (bs.take room) (by omega)
    (hdiffer.sublist (List.take_sublist room bs)) fun b _ => Finmap.lookup_empty _
  rw [List.length_take, Nat.min_comm] at hrun hlen'
  rw [hlen, Nat.zero_add] at hlen'
  rw [hroom]
  refine ⟨copy', m', ?_, h', hlen', fun key v => ?_⟩
  · by_cases hfit : bs.length ≤ room
    · rw [List.take_of_length_le hfit] at hrun
      rw [hrun, Nat.sub_eq_zero_of_le hfit, List.replicate_zero, List.append_nil]
    · have hrest := h'.run_insert_full (bs.drop room) (by omega)
      rw [List.length_drop] at hrest
      have hboth := run_append hrun hrest
      rwa [← List.map_append, List.take_append_drop] at hboth
  · rw [hlookup, Finmap.lookup_empty]
    simp only [reduceCtorEq, false_or]

end HashMap.Represents

/-- The keys and values collected from a map that any history has led to, inserted pair by pair
into a new map, are taken as new keys up to the load cap of the new map and refused from there
on. With room for all of them the copy answers every lookup as the original does and has its
length, and at the capacity of the original it has its layout. -/
theorem hashmap_copy {slotSize slotAlign slotSize' slotAlign' capacity' : Nat}
    {buf buf' : SlotBuffer K V} {map₀ copy₀ : HashMap K V Ctx} {ops : List (HashmapOp K V)}
    {outs : List (HashmapOut V)} (hl : fns.Lawful ctx) (hc : capacity ≤ 2 ^ 30)
    (hc' : capacity' ≤ 2 ^ 30)
    (hinit : hashmapInit slotSize slotAlign buf capacity ctx = .ok map₀)
    (hrun : run (hashmapStep fns) map₀ ops = .ok (outs, map))
    (hinit' : hashmapInit slotSize' slotAlign' buf' capacity' ctx = .ok copy₀)
    {keyVec : Vec K} {valueVec : Vec V} {present present' : Bool} {keyRoom valueRoom : Nat}
    (hkeys : keyVec.Holds present keyRoom []) (hvalues : valueVec.Holds present' valueRoom [])
    (hkeyRoom : map.len ≤ keyRoom) (hvalueRoom : map.len ≤ valueRoom) :
    ∃ keyVec' valueVec' keys values copy,
      hashmapCollectKeys (some map) (some keyVec) = some (some keyVec', .ok true) ∧
      keyVec'.Holds present keyRoom keys ∧
      hashmapCollectValues (some map) (some valueVec) = some (some valueVec', .ok true) ∧
      valueVec'.Holds present' valueRoom values ∧
      run (hashmapStep fns) copy₀ (restoreOps keys values) =
        .ok (List.replicate (min map.len (capacity' - capacity' / 4)) (.inserted (.ok true)) ++
          List.replicate (map.len - (capacity' - capacity' / 4))
            (.inserted (.error .capacityExceeded)), copy) ∧
      copy.len = min map.len (capacity' - capacity' / 4) ∧
      (∀ key v, hashmapGet fns copy key = some v ↔
        ∃ b ∈ (keys.zip values).take (capacity' - capacity' / 4),
          fns.eq b.1 key ctx = true ∧ b.2 = v) ∧
      (map.len ≤ capacity' - capacity' / 4 →
        (∀ key, hashmapGet fns copy key = hashmapGet fns map key) ∧
        (capacity' = capacity → SameLayout capacity map.slots copy.slots)) := by
  have hlen := (run_counted hinit hrun).length_occupied
  have hrounds : (map.occupiedFrom 0).length < map.capacity + 1 := by
    refine Nat.lt_succ_of_le ((List.length_filter_le _ _).trans ?_)
    rw [List.length_range', Nat.sub_zero]
  have hreached := (hashmapInit_reached hl hc hinit).run hrun
  have hreached₀ := hashmapInit_reached (V := V) hl hc' hinit'
  obtain ⟨m, hm⟩ := hreached.represents
  obtain ⟨keyVec', hloop, hkeys'⟩ := hashmapCollectLoop_spec Slot.key map _ hkeys hrounds
  obtain ⟨valueVec', hloop', hvalues'⟩ := hashmapCollectLoop_spec Slot.value map _ hvalues hrounds
  rw [List.nil_append, List.length_nil, Nat.sub_zero,
    List.take_of_length_le (by rw [List.length_map]; omega)] at hkeys' hvalues'
  rw [List.length_nil, Nat.zero_add, hlen] at hloop hloop'
  rw [if_pos hkeyRoom] at hloop
  rw [if_pos hvalueRoom] at hloop'
  obtain ⟨bs, hbs⟩ : ∃ bs, bs = (map.occupiedFrom 0).map fun i =>
    ((map.slots i).key, (map.slots i).value) := ⟨_, rfl⟩
  have hzip : ((map.occupiedFrom 0).map fun i => (map.slots i).key).zip
      ((map.occupiedFrom 0).map fun i => (map.slots i).value) = bs := by
    rw [hbs, List.zip_map']
  have hdiffer : bs.Pairwise fun a b => fns.eq a.1 b.1 ctx = false := by
    rw [hbs, List.pairwise_map, ← hm.ctx_eq]
    exact hm.wellFormed.pairwise_keys 0
  have hcount : bs.length = map.len := by rw [hbs, List.length_map, hlen]
  obtain ⟨copy, m', hrestore, hm', hlen', hlookup⟩ :=
    (hashmapInit_represents (V := V) hl hc' hinit').run_restore bs hdiffer
  rw [hcount] at hrestore hlen'
  refine ⟨keyVec', valueVec', _, _, copy, ?_, hkeys', ?_, hvalues', ?_, hlen', ?_, ?_⟩
  · rw [hashmapCollectKeys, hashmapCollect, hloop]
    rfl
  · rw [hashmapCollectValues, hashmapCollect, hloop']
    rfl
  · rw [restoreOps, hzip]
    exact hrestore
  · intro key v
    rw [hzip, hm'.hashmapGet_eq, hlookup]
  · intro hroom
    have hget : ∀ key, hashmapGet fns copy key = hashmapGet fns map key := by
      intro key
      ext v
      rw [hm'.hashmapGet_eq, hlookup, List.take_of_length_le (hcount.trans_le hroom), hbs,
        hm.wellFormed.hashmapGet_iff_occupied hm.lawful, hm.ctx_eq]
      simp only [List.mem_map, exists_exists_and_eq_and]
    refine ⟨hget, ?_⟩
    rintro rfl
    refine hreached.sameLayout (hreached₀.run hrestore) fun key => ?_
    rw [hashmapContainsKey, hashmapContainsKey, hget]

/-- Two colliding keys go on to a table of half the capacity. -/
theorem hashmap_copy_collision : ∃ outs map keys values copy,
    run (hashmapStep natKeys) ⟨emptySlots zeroedSlots.contents 4, 4, 0, ()⟩
      [.insert (some 1) (some 10), .insert (some 5) (some 20)] = .ok (outs, map) ∧
    run (hashmapStep natKeys) ⟨emptySlots zeroedSlots.contents 2, 2, 0, ()⟩
      (restoreOps keys values) = .ok ([.inserted (.ok true), .inserted (.ok true)], copy) ∧
    ∀ key, hashmapGet natKeys copy key = hashmapGet natKeys map key := by
  have hinit : hashmapInit 32 8 zeroedSlots 4 () =
      .ok ⟨emptySlots zeroedSlots.contents 4, 4, 0, ()⟩ := rfl
  have hinit' : hashmapInit 32 8 zeroedSlots 2 () =
      .ok ⟨emptySlots zeroedSlots.contents 2, 2, 0, ()⟩ := rfl
  obtain ⟨outs, map, m, hrun, -, hm⟩ := run_represents natKeys_lawful (by decide) hinit
    [.insert (some 1) (some 10), .insert (some 5) (some 20)]
  have hlen : map.len = 2 := by
    obtain ⟨outs', map', hrun', hlen'⟩ : ∃ outs' map', run (hashmapStep natKeys)
        ⟨emptySlots zeroedSlots.contents 4, 4, 0, ()⟩
        [.insert (some 1) (some 10), .insert (some 5) (some 20)] = .ok (outs', map') ∧
        map'.len = 2 := ⟨_, _, rfl, rfl⟩
    rw [hrun] at hrun'
    obtain ⟨-, rfl⟩ := Prod.mk.inj (Except.ok.inj hrun')
    exact hlen'
  have hvec := holds_of_vecInit (show vecInit "" (some fun _ => 0) 2 8 =
    .ok (⟨some fun _ => 0, 0, 2⟩ : Vec Nat) from rfl) (by decide)
  obtain ⟨-, -, keys, values, copy, -, -, -, -, hcopy, -, -, hsame⟩ :=
    hashmap_copy natKeys_lawful (by decide) (by decide) hinit hrun hinit' hvec hvec hlen.le hlen.le
  rw [hlen] at hcopy hsame
  exact ⟨outs, map, keys, values, copy, hrun, hcopy, (hsame (by decide)).1⟩

end CanonC
