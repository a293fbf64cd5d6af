import CanonC.Data.Hashmap.Insert
import CanonC.Data.Hashmap.Remove

/-!
# What each call does to a well-formed map

One case lemma for each mutating call: which result it gives, and how the bindings
and the count of the map it leaves relate to those of the map it found.
-/

namespace CanonC

open Toolkit Function

variable {K V Ctx : Type*} {fns : HashFns K Ctx}

/-- The bindings off the slot of a key are those of the other keys. -/
theorem boundOff_iff {ctx : Ctx} {n : Nat} {s : Nat → Slot K V} (hd : DistinctKeys fns ctx n s)
    (hl : fns.Lawful ctx) {p : Nat} (hp : p < n) (ho : (s p).occupied = true) {key : K}
    (hk : fns.eq (s p).key key ctx = true) {k : K} {v : V} :
    BoundOff fns ctx n s p k v ↔ fns.eq key k ctx = false ∧ Bound fns ctx n s k v := by
  constructor
  · rintro ⟨j, hj, hjp, hoj, hb⟩
    refine ⟨?_, j, hj, hoj, hb⟩
    rw [← Bool.not_eq_true]
    intro hkk
    exact hjp (hd.unique hl hj hp hoj ho hb.1 (hl.trans _ _ _ hk hkk))
  · rintro ⟨hkk, j, hj, hoj, hb⟩
    refine ⟨j, hj, ?_, hoj, hb⟩
    rintro rfl
    rw [hl.trans _ _ _ (hl.symm _ _ hk) hb.1] at hkk
    cases hkk

/-- What `hashmap_init` accepts is a power-of-two capacity, and it empties every slot. -/
theorem hashmapInit_eq_ok {slotSize slotAlign capacity : Nat} {buf : SlotBuffer K V} {ctx : Ctx}
    {map : HashMap K V Ctx} (h : hashmapInit slotSize slotAlign buf capacity ctx = .ok map) :
    capacity.isPowerOfTwo ∧ map = ⟨emptySlots buf.contents capacity, capacity, 0, ctx⟩ := by
  unfold hashmapInit at h
  cases hp : buf.ptr with
  | none => simp [hp] at h
  | some addr =>
    simp only [hp] at h
    split at h
    · cases h
    · split at h
      · cases h
      · rename_i hpow
        split at h
        · cases h
        · split at h
          · cases h
          · exact ⟨bitsIsPowerOfTwo_iff.mp (by simpa using hpow), (Except.ok.inj h).symm⟩

/-- No slot is left occupied. -/
theorem emptySlots_occupied {slots : Nat → Slot K V} {n i : Nat} (hi : i < n) :
    (emptySlots slots n i).occupied = false := by
  rw [emptySlots, if_pos hi]
  rfl

/-- Of empty slots none is occupied. -/
theorem occupiedCount_emptySlots (slots : Nat → Slot K V) (n : Nat) :
    occupiedCount n (emptySlots slots n) = 0 := by
  rw [occupiedCount, Finset.card_eq_zero, Finset.filter_eq_empty_iff]
  intro i hi ho
  rw [emptySlots_occupied (Finset.mem_range.mp hi)] at ho
  cases ho

/-- Emptying every slot leaves an empty well-formed map. -/
theorem wellFormed_emptySlots {slots : Nat → Slot K V} {capacity : Nat} {ctx : Ctx}
    (hn : capacity.isPowerOfTwo) (hc : capacity ≤ 2 ^ 30) :
    (⟨emptySlots slots capacity, capacity, 0, ctx⟩ : HashMap K V Ctx).WellFormed fns ∧
      ∀ key v, ¬ Bound fns ctx capacity (emptySlots slots capacity) key v := by
  have hoff : ∀ i < capacity, (emptySlots slots capacity i) = (slots i).emptied := fun i hi =>
    if_pos hi
  have hflag : ∀ i < capacity, (emptySlots slots capacity i).occupied ≠ true := fun i hi =>
    Bool.eq_false_iff.mp (emptySlots_occupied hi)
  refine ⟨⟨hn, hc, ⟨?_, ?_, ?_, ?_⟩, ?_, (occupiedCount_emptySlots slots capacity).symm,
    Nat.zero_le _⟩, ?_⟩
  · exact fun i hi ho => absurd ho (hflag i hi)
  · exact fun i hi ho => absurd ho (hflag i hi)
  · exact fun i hi ho => absurd ho (hflag i hi)
  · exact fun i hi _ => ⟨congrArg Slot.psl (hoff i hi), congrArg Slot.hash (hoff i hi)⟩
  · exact fun i hi _ _ ho => absurd ho (hflag i hi)
  · rintro key v ⟨i, hi, ho, -⟩
    exact hflag i hi ho

namespace HashMap.WellFormed

variable {map : HashMap K V Ctx}

/-- Replacing the value of an element keeps the map well formed. -/
theorem update_value (hw : map.WellFormed fns) (hl : fns.Lawful map.ctx) {p : Nat}
    (hp : p < map.capacity) (ho : (map.slots p).occupied = true) (val : V) :
    ({ map with slots := update map.slots p { map.slots p with value := val } } :
      HashMap K V Ctx).WellFormed fns where
  pow := hw.pow
  cap_le := hw.cap_le
  robinHood := by
    have hfit := hw.robinHood.fits hp ho
    refine hw.robinHood.update hw.pow hp (fun _ => ⟨hfit.cached, hfit.dist, hfit.order⟩)
      (by simp [ho]) ?_
    intro _ hon hpn
    have hord := (hw.robinHood.order _ (Cyclic.next_lt hp) hon hpn).2
    rw [Cyclic.prev_next hp] at hord
    exact ⟨ho, hord⟩
  distinct := by
    refine (hw.distinct.off p).update hl fun _ j hj hjp hoj => ?_
    rw [← Bool.not_eq_true]
    exact fun hk => hjp (hw.distinct j hj p hp hoj ho hk)
  len_eq := by
    refine hw.len_eq.trans (Eq.symm (occupiedCount_congr fun j _ => ?_))
    simp only
    by_cases hjp : j = p
    · rw [hjp, update_self]
    · rw [update_of_ne hjp]
  load := hw.load

/-- An insertion refused for want of room changes nothing. -/
theorem hashmapInsert_full (key : K) (val : V)
    (hlen : map.capacity - map.capacity / 4 ≤ map.len) :
    hashmapInsert fns map (some key) (some val) = (map, .error .capacityExceeded) := by
  simp [hashmapInsert, hlen]

/-- Below the load cap an insertion binds the key to the value, leaves every other key
as it was and tells whether the key was absent. -/
theorem hashmapInsert_room (hw : map.WellFormed fns) (hl : fns.Lawful map.ctx) (key : K) (val : V)
    (hlen : map.len < map.capacity - map.capacity / 4) :
    ∃ s' isNewKey, hashmapInsert fns map (some key) (some val) =
        ({ map with slots := s', len := map.len + isNewKey.toNat }, .ok isNewKey) ∧
      ({ map with slots := s', len := map.len + isNewKey.toNat } :
        HashMap K V Ctx).WellFormed fns ∧
      (isNewKey = true ↔ hashmapGet fns map key = none) ∧
      ∀ k v, Bound fns map.ctx map.capacity s' k v ↔
        (fns.eq key k map.ctx = true ∧ val = v) ∨
        (fns.eq key k map.ctx = false ∧ Bound fns map.ctx map.capacity map.slots k v) := by
  have hgo (map' : HashMap K V Ctx) (isNewKey : Bool) (hloop : hmInsertLoop fns map.capacity map
      (hmHome (hmHash fns map key) map.capacity) 0 (hmIncoming fns map key val) =
        (map', some isNewKey)) :
      hashmapInsert fns map (some key) (some val) = (map', .ok isNewKey) := by
    simp only [hashmapInsert, if_neg (Nat.not_le.mpr hlen)]
    rw [show (hmIncoming fns map key val).hash = hmHash fns map key from rfl, hloop]
  have hget : hashmapGet fns map key = none ↔ hmProbe fns map key = none := by
    simp [hashmapGet]
  by_cases habs : hmProbe fns map key = none
  · have hfree := (hw.hmProbe_eq_none_iff hl).mp habs
    obtain ⟨s', hloop, hins⟩ := hw.insertLoop_absent hl val hlen hfree
    refine ⟨s', true, hgo _ _ hloop, ⟨hw.pow, hw.cap_le, hins.robinHood, hins.distinct, ?_, ?_⟩,
      by simp [hget, habs], fun k v => ?_⟩
    · exact (congrArg (· + 1) hw.len_eq).trans hins.count.symm
    · exact hlen
    · rw [hins.bound]
      constructor
      · rintro (hb | ⟨j, hj, hoj, hb⟩)
        · exact Or.inl hb
        · refine Or.inr ⟨?_, j, hj, hoj, hb⟩
          rw [← Bool.not_eq_true]
          intro hk
          have hf := hfree j hj hoj
          rw [hl.trans _ _ _ hb.1 (hl.symm _ _ hk)] at hf
          cases hf
      · rintro (hb | ⟨-, hb⟩)
        · exact Or.inl hb
        · exact Or.inr hb
  · obtain ⟨p, hpr⟩ := Option.ne_none_iff_exists'.mp habs
    obtain ⟨hp, ho, hk⟩ := (hw.hmProbe_eq_some_iff hl).mp hpr
    have hhash : hmHash fns map key = (map.slots p).hash :=
      (hw.robinHood.hash_of_eq hl hp ho hk).symm
    have hpl := hw.psl_lt hp ho
    have hloop := hw.insertLoop_present hl hp ho val hk (x := hmIncoming fns map key val)
      (Nat.zero_le _) (show (map.slots p).psl < 0 + map.capacity by omega) hhash rfl rfl
    rw [Nat.add_zero, Nat.mod_eq_of_lt (hmHome_lt hw.pow _), ← hhash] at hloop
    refine ⟨_, false, hgo _ _ hloop, hw.update_value hl hp ho val, by simp [hget, habs],
      fun k v => ?_⟩
    rw [bound_update hp, boundOff_iff hw.distinct hl hp ho hk]
    refine or_congr_left ?_
    simp only [ho, true_and, Slot.Binds]
    refine and_congr_left fun _ => ⟨fun h => ?_, fun h => ?_⟩
    · exact hl.trans _ _ _ (hl.symm _ _ hk) h
    · exact hl.trans _ _ _ hk h

/-- Below the load cap the insertion loop never runs out of iterations. -/
theorem insertLoop_ne_none (hw : map.WellFormed fns) (hl : fns.Lawful map.ctx) (key : K) (val : V)
    (hlen : map.len < map.capacity - map.capacity / 4) :
    (hmInsertLoop fns map.capacity map (hmHome (hmHash fns map key) map.capacity) 0
      (hmIncoming fns map key val)).2 ≠ none := by
  intro hnone
  obtain ⟨s', isNewKey, hins, -⟩ := hw.hashmapInsert_room hl key val hlen
  have herr : (hashmapInsert fns map (some key) (some val)).2 = .error .capacityExceeded := by
    generalize hr : hmInsertLoop fns map.capacity map _ 0 (hmIncoming fns map key val) = r at hnone
    obtain ⟨map', flag⟩ := r
    obtain rfl : flag = none := hnone
    simp only [hashmapInsert, if_neg (Nat.not_le.mpr hlen)]
    rw [show (hmIncoming fns map key val).hash = hmHash fns map key from rfl, hr]
  rw [hins] at herr
  cases herr

/-- Removing an absent key changes nothing. -/
theorem hashmapRemove_absent {key : K} (h : hashmapGet fns map key = none) :
    hashmapRemove fns map (some key) = (map, .error .notFound) := by
  have hp : hmProbe fns map key = none := by simpa [hashmapGet] using h
  simp [hashmapRemove, hp]

/-- Removing a present key returns its value and leaves exactly the other bindings. -/
theorem hashmapRemove_present (hw : map.WellFormed fns) (hl : fns.Lawful map.ctx) {key : K} {v : V}
    (h : hashmapGet fns map key = some v) :
    ∃ s', hashmapRemove fns map (some key) =
        ({ map with slots := s', len := map.len - 1 }, .ok v) ∧ 0 < map.len ∧
      ({ map with slots := s', len := map.len - 1 } : HashMap K V Ctx).WellFormed fns ∧
      ∀ k w, Bound fns map.ctx map.capacity s' k w ↔
        fns.eq key k map.ctx = false ∧ Bound fns map.ctx map.capacity map.slots k w := by
  obtain ⟨p, hpr, rfl⟩ := Option.map_eq_some_iff.mp h
  obtain ⟨hp, ho, hk⟩ := (hw.hmProbe_eq_some_iff hl).mp hpr
  have hrem := hw.shiftLoop_removed hl hp ho
  obtain ⟨r, hr⟩ : ∃ r, hmShiftLoop map.capacity (map.capacity - 1) map.slots p = r := ⟨_, rfl⟩
  simp only [hr] at hrem
  have hlen := hw.len_eq
  have hcount := hrem.count
  have hload := hw.load
  refine ⟨update r.1 r.2 (r.1 r.2).emptied, ?_, by omega,
    ⟨hw.pow, hw.cap_le, hrem.robinHood, hrem.distinct, ?_, ?_⟩, ?_⟩
  · have hne : (p == map.capacity) = false := by simpa using Nat.ne_of_lt hp
    have hpos : map.len > 0 := by omega
    simp only [hashmapRemove, hpr, Option.getD_some, hne, if_pos hpos, hr]
    rfl
  · change map.len - 1 = occupiedCount map.capacity (update r.1 r.2 (r.1 r.2).emptied)
    omega
  · change map.len - 1 ≤ map.capacity - map.capacity / 4
    omega
  · intro k w
    exact (hrem.bound k w).trans (boundOff_iff hw.distinct hl hp ho hk)

end HashMap.WellFormed

end CanonC
