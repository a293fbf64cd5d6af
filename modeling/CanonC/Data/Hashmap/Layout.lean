import CanonC.Data.Hashmap.Refinement
import Mathlib.Combinatorics.Enumerative.DoubleCounting

/-!
# The layout of the table does not depend on its history

The Robin Hood order lets the number of keys at each home determine which slots are occupied
and at which distances, as soon as some slot is free or holds an element at home. Every call
leaves such a slot, also in the full tables of one and two slots, where no free slot cuts
the ring.
-/

namespace CanonC

open Toolkit Function

variable {K V Ctx : Type*} {fns : HashFns K Ctx} {ctx : Ctx} {n : Nat}

/-- Some slot is free or holds an element at home. -/
def Settled (n : Nat) (s : Nat → Slot K V) : Prop :=
  ∃ i < n, (s i).occupied = true → (s i).psl = 0

/-- A table with a free slot is settled. -/
theorem Settled.of_free {s : Nat → Slot K V} (h : occupiedCount n s < n) : Settled n s := by
  obtain ⟨e, he, ho⟩ := occupiedCount_lt_iff.mp h
  refine ⟨e, he, fun ho' => ?_⟩
  rw [ho] at ho'
  cases ho'

/-- The insertion loop that has a free slot `e` ahead of it leaves the slot behind `e` settled:
it gets there only with an element at home. -/
theorem hmInsertLoop_settled {map : HashMap K V Ctx} (hn : map.capacity.isPowerOfTwo)
    (hc : map.capacity ≤ 2 ^ 30) {e : Nat} (he : e < map.capacity) (fuel : Nat)
    {s : Nat → Slot K V} {i : Nat} {x : Slot K V} (hi : i < map.capacity)
    (hoe : (s e).occupied = false) (hpsl : x.psl + Cyclic.dist map.capacity i e < map.capacity)
    (hrest : (s (Cyclic.next map.capacity e)).occupied = true →
      (s (Cyclic.next map.capacity e)).psl = 0) :
    ((hmInsertLoop fns fuel { map with slots := s } i x.psl x).1.slots
        (Cyclic.next map.capacity e)).occupied = true →
      ((hmInsertLoop fns fuel { map with slots := s } i x.psl x).1.slots
        (Cyclic.next map.capacity e)).psl = 0 := by
  induction fuel generalizing s i x with
  | zero => exact hrest
  | succ fuel ih =>
    -- A walk that starts behind `e` has no step to spare.
    have hhome : i = Cyclic.next map.capacity e → x.psl = 0 := by
      rintro rfl
      have hnext := Cyclic.next_cases he
      have hdist := Cyclic.dist_cases (Cyclic.next_lt he) he
      omega
    have hwrite (y : Slot K V) (hy : i = Cyclic.next map.capacity e → y.psl = 0) :
        (update s i y (Cyclic.next map.capacity e)).occupied = true →
          (update s i y (Cyclic.next map.capacity e)).psl = 0 := by
      by_cases hie : i = Cyclic.next map.capacity e
      · rw [← hie, update_self]
        exact fun _ => hy hie
      · rw [update_of_ne (Ne.symm hie)]
        exact hrest
    simp only [hmInsertLoop]
    split
    · exact hwrite x hhome
    · rename_i ho
      have ho' : (s i).occupied = true := by simpa using ho
      have hie : i ≠ e := by
        rintro rfl
        rw [ho'] at hoe
        cases hoe
      have hstep := Cyclic.dist_from_next hi he hie
      split
      · refine hwrite _ fun heq => ?_
        rw [← heq] at hrest
        exact hrest ho'
      · rw [hmWrap_succ hn]
        split
        · rename_i hlt
          rw [pslSucc_eq hc (show (s i).psl < map.capacity by omega)]
          exact ih (s := update s i x) (x := { s i with psl := (s i).psl + 1 })
            (Cyclic.next_lt hi) (by rw [update_of_ne hie.symm]; exact hoe)
            (show (s i).psl + 1 + _ < _ by omega) (hwrite x hhome)
        · rw [pslSucc_eq hc (show x.psl < map.capacity by omega)]
          exact ih (x := { x with psl := x.psl + 1 }) (Cyclic.next_lt hi) hoe
            (show x.psl + 1 + _ < _ by omega) hrest

namespace HashMap.WellFormed

variable {map map' : HashMap K V Ctx}

/-- An insertion leaves a settled slot: below the load cap there is a free one, and nothing
comes to lie behind it but at home. -/
theorem hashmapInsert_settled (hw : map.WellFormed fns) (h : Settled map.capacity map.slots)
    (key : K) (val : V) :
    Settled map.capacity (hashmapInsert fns map (some key) (some val)).1.slots := by
  by_cases hlen : map.len < map.capacity - map.capacity / 4
  · obtain ⟨e, he, hoe⟩ := hw.exists_empty hlen
    have hloop : (hashmapInsert fns map (some key) (some val)).1 =
        (hmInsertLoop fns map.capacity map (hmHome (hmHash fns map key) map.capacity) 0
          (hmIncoming fns map key val)).1 := by
      simp only [hashmapInsert, if_neg (Nat.not_le.mpr hlen)]
      rw [show (hmIncoming fns map key val).hash = hmHash fns map key from rfl]
      split <;> rename_i heq <;> rw [heq]
    refine ⟨_, Cyclic.next_lt he, ?_⟩
    rw [hloop]
    refine hmInsertLoop_settled hw.pow hw.cap_le he map.capacity (x := hmIncoming fns map key val)
      (hmHome_lt hw.pow _) hoe ?_ fun ho => ?_
    · rw [show (hmIncoming fns map key val).psl = 0 from rfl, Nat.zero_add]
      exact Cyclic.dist_lt (hmHome_lt hw.pow _)
    · by_contra hpsl
      have hprev := (hw.robinHood.order _ (Cyclic.next_lt he) ho (Nat.pos_of_ne_zero hpsl)).1
      rw [Cyclic.prev_next he, hoe] at hprev
      cases hprev
  · rw [hashmapInsert_full key val (Nat.le_of_not_lt hlen)]
    exact h

/-- Every call leaves a settled slot. -/
theorem hashmapStep_settled (hw : map.WellFormed fns) (hl : fns.Lawful map.ctx)
    (h : Settled map.capacity map.slots) {op : HashmapOp K V} {o : HashmapOut V}
    (hstep : hashmapStep fns map op = .ok (o, map')) : Settled map.capacity map'.slots := by
  cases op with
  | insert key val =>
    obtain ⟨-, rfl⟩ := Prod.mk.inj (Except.ok.inj hstep)
    cases key with
    | none => exact h
    | some key =>
      cases val with
      | none => exact h
      | some val => exact hw.hashmapInsert_settled h key val
  | remove key =>
    obtain ⟨-, rfl⟩ := Prod.mk.inj (Except.ok.inj hstep)
    cases key with
    | none => exact h
    | some key =>
      cases hget : hashmapGet fns map key with
      | none =>
        rw [hashmapRemove_absent hget]
        exact h
      | some v =>
        obtain ⟨s', hrem, hpos, hw', -⟩ := hw.hashmapRemove_present hl hget
        have hlen : map.len - 1 = occupiedCount map.capacity s' := hw'.len_eq
        have hload := hw.load
        rw [hrem]
        exact .of_free (show occupiedCount map.capacity s' < map.capacity by omega)
  | clear =>
    obtain ⟨-, rfl⟩ := Prod.mk.inj (Except.ok.inj hstep)
    refine .of_free ?_
    rw [show (hashmapClear map).slots = emptySlots map.slots map.capacity from rfl,
      occupiedCount_emptySlots]
    exact Nat.pos_of_isPowerOfTwo hw.pow

end HashMap.WellFormed

/-- A map that stands for a partial map and has a settled slot. -/
structure HashMap.Reached (hl : fns.Lawful ctx) (capacity : Nat) (map : HashMap K V Ctx) :
    Prop where
  /-- The map stands for a partial map. -/
  represents : ∃ m, map.Represents hl capacity m
  /-- Some slot is settled. -/
  settled : Settled capacity map.slots

/-- What a run starts with it ends with. -/
theorem HashMap.Reached.run {capacity : Nat} {hl : fns.Lawful ctx} {map map' : HashMap K V Ctx}
    {ops : List (HashmapOp K V)} {outs : List (HashmapOut V)} (h : map.Reached hl capacity)
    (hrun : run (hashmapStep fns) map ops = .ok (outs, map')) : map'.Reached hl capacity := by
  refine run_invariant (fun map op o map' h hstep => ?_) h hrun
  obtain ⟨⟨m, hm⟩, hsettled⟩ := h
  obtain ⟨map'', hstep', hm'⟩ := hm.step op
  have hnext := hm.wellFormed.hashmapStep_settled hm.lawful (hm.capacity_eq.symm ▸ hsettled) hstep
  rw [hstep] at hstep'
  obtain ⟨-, rfl⟩ := Prod.mk.inj (Except.ok.inj hstep')
  exact ⟨⟨_, hm'⟩, hm.capacity_eq ▸ hnext⟩

/-- The new table is reached. -/
theorem hashmapInit_reached {slotSize slotAlign capacity : Nat} {buf : SlotBuffer K V}
    {map : HashMap K V Ctx} (hl : fns.Lawful ctx) (hc : capacity ≤ 2 ^ 30)
    (hinit : hashmapInit slotSize slotAlign buf capacity ctx = .ok map) :
    map.Reached hl capacity := by
  refine ⟨⟨∅, hashmapInit_represents hl hc hinit⟩, ?_⟩
  obtain ⟨hn, rfl⟩ := hashmapInit_eq_ok hinit
  refine .of_free ?_
  rw [occupiedCount_emptySlots]
  exact Nat.pos_of_isPowerOfTwo hn

section Homes

variable {s s' : Nat → Slot K V}

/-- The elements at home at a slot are those whose hash leads there. -/
theorem RobinHood.mem_withHome (hr : RobinHood fns ctx n s) (hn : n.isPowerOfTwo) {i j : Nat}
    (hi : i < n) : j ∈ withHome n (fun i => (s i).occupied) (fun i => (s i).psl) i ↔
      j < n ∧ (s j).occupied = true ∧ hmHome (s j).hash n = i := by
  rw [withHome, Finset.mem_filter, Finset.mem_range]
  refine and_congr_right fun hj => and_congr_right fun ho => ?_
  rw [hr.dist j hj ho]
  exact ⟨Cyclic.eq_of_dist_eq (hmHome_lt hn _) hi hj, fun h => by rw [h]⟩

/-- A table that holds the keys of another has at least as many of them at each home. -/
theorem RobinHood.card_withHome_le (hr : RobinHood fns ctx n s) (hr' : RobinHood fns ctx n s')
    (hd : DistinctKeys fns ctx n s) (hl : fns.Lawful ctx) (hn : n.isPowerOfTwo)
    (hkeys : ∀ i < n, (s i).occupied = true →
      ∃ j < n, (s' j).occupied = true ∧ fns.eq (s' j).key (s i).key ctx = true)
    {i : Nat} (hi : i < n) :
    (withHome n (fun i => (s i).occupied) (fun i => (s i).psl) i).card ≤
      (withHome n (fun i => (s' i).occupied) (fun i => (s' i).psl) i).card := by
  refine Finset.card_le_card_of_forall_subsingleton
    (fun a b => fns.eq (s' b).key (s a).key ctx = true) (fun a ha => ?_) fun b _ a ha a' ha' => ?_
  · obtain ⟨halt, hoa, hhome⟩ := (hr.mem_withHome hn hi).mp ha
    obtain ⟨b, hb, hob, hk⟩ := hkeys a halt hoa
    refine ⟨b, (hr'.mem_withHome hn hi).mpr ⟨hb, hob, ?_⟩, hk⟩
    rw [hr'.hash_of_eq hl hb hob hk, ← hr.cached a halt hoa, hhome]
  · obtain ⟨halt, hoa, -⟩ := (hr.mem_withHome hn hi).mp ha.1
    obtain ⟨halt', hoa', -⟩ := (hr.mem_withHome hn hi).mp ha'.1
    exact hd a halt a' halt' hoa hoa' (hl.trans _ _ _ (hl.symm _ _ ha.2) ha'.2)

end Homes

/-- The tables agree at every slot on the occupied flag and on the probe distance. -/
def SameLayout (n : Nat) (s s' : Nat → Slot K V) : Prop :=
  ∀ i < n, (s i).occupied = (s' i).occupied ∧ (s i).psl = (s' i).psl

section Keys

variable {capacity : Nat} {hl : fns.Lawful ctx} {map map' : HashMap K V Ctx}

/-- A lookup tells whether the partial map has the key. -/
theorem HashMap.Represents.hashmapContainsKey_eq {m : KeyMap V hl}
    (h : map.Represents hl capacity m) (key : K) :
    hashmapContainsKey fns map key = (m.lookup (hl.classOf key)).isSome := by
  rw [hashmapContainsKey, h.hashmapGet_eq]

/-- The key of each occupied slot lies in a slot of every map that contains it. -/
theorem HashMap.Reached.exists_slot (h : map.Reached hl capacity) (h' : map'.Reached hl capacity)
    (hkeys : ∀ key, hashmapContainsKey fns map key = true →
      hashmapContainsKey fns map' key = true) :
    ∀ i < capacity, (map.slots i).occupied = true → ∃ j < capacity,
      (map'.slots j).occupied = true ∧
        fns.eq (map'.slots j).key (map.slots i).key ctx = true := by
  obtain ⟨m, hm⟩ := h.represents
  obtain ⟨m', hm'⟩ := h'.represents
  intro i hi ho
  have hfound : hashmapContainsKey fns map (map.slots i).key = true := by
    rw [hashmapContainsKey, Option.isSome_iff_exists]
    exact ⟨_, (hm.wellFormed.hashmapGet_eq_some_iff hm.lawful).mpr
      ⟨i, hm.capacity_eq.symm ▸ hi, ho, hm.lawful.refl _, rfl⟩⟩
  obtain ⟨v, hv⟩ := Option.isSome_iff_exists.mp (hkeys _ hfound)
  obtain ⟨j, hj, hoj, hk, -⟩ := (hm'.wellFormed.hashmapGet_eq_some_iff hm'.lawful).mp hv
  rw [hm'.capacity_eq] at hj
  rw [hm'.ctx_eq] at hk
  exact ⟨j, hj, hoj, hk⟩

/-- Tables that contain the same keys have the same layout. -/
theorem HashMap.Reached.sameLayout (h : map.Reached hl capacity) (h' : map'.Reached hl capacity)
    (hkeys : ∀ key, hashmapContainsKey fns map key = hashmapContainsKey fns map' key) :
    SameLayout capacity map.slots map'.slots := by
  have hslot := h.exists_slot h' fun key hk => (hkeys key).symm.trans hk
  have hslot' := h'.exists_slot h fun key hk => (hkeys key).trans hk
  obtain ⟨⟨m, hm⟩, i, hi, hrest⟩ := h
  obtain ⟨⟨m', hm'⟩, j, hj, hrest'⟩ := h'
  obtain rfl := hm.ctx_eq
  obtain rfl := hm.capacity_eq
  have hw := hm.wellFormed
  have hr' : RobinHood fns map.ctx map.capacity map'.slots :=
    hm'.ctx_eq ▸ hm'.capacity_eq ▸ hm'.wellFormed.robinHood
  have hd' : DistinctKeys fns map.ctx map.capacity map'.slots :=
    hm'.ctx_eq ▸ hm'.capacity_eq ▸ hm'.wellFormed.distinct
  have hhome := fun k hk => le_antisymm
    (hw.robinHood.card_withHome_le hr' hw.distinct hl hw.pow hslot (i := k) hk)
    (hr'.card_withHome_le hw.robinHood hd' hl hw.pow hslot' (i := k) hk)
  intro k hk
  obtain ⟨hocc, hpsl⟩ := (hw.robinHood.displaced hw.pow).unique (hr'.displaced hw.pow) hhome hi
    hrest hj hrest' hk
  refine ⟨hocc, ?_⟩
  cases ho : (map.slots k).occupied with
  | true => exact hpsl ho
  | false => rw [(hw.robinHood.empty k hk ho).1, (hr'.empty k hk (hocc ▸ ho)).1]

/-- On the partial map, inserting and removing an absent key changes nothing. -/
theorem mapSpec_insert_remove (hl : fns.Lawful ctx) (capacity : Nat) {m : KeyMap V hl} {key : K}
    (val : V) (hnone : m.lookup (hl.classOf key) = none) (c : hl.KeyClass) :
    (mapSpec hl capacity (mapSpec hl capacity m (.insert (some key) (some val))).2
      (.remove (some key))).2.lookup c = m.lookup c := by
  by_cases hroom : m.keys.card < capacity - capacity / 4
  · simp only [mapSpec, if_pos hroom, Finmap.lookup_insert]
    by_cases hc : c = hl.classOf key
    · rw [hc, Finmap.lookup_erase, hnone]
    · rw [Finmap.lookup_erase_ne hc, Finmap.lookup_insert_of_ne m hc]
  · simp only [mapSpec, if_neg hroom, hnone]

/-- Inserting and removing an absent key leaves the keys as they were. -/
theorem HashMap.Represents.insert_remove {m : KeyMap V hl} (h : map.Represents hl capacity m)
    {key : K} {val : V} {outs : List (HashmapOut V)}
    (habsent : hashmapContainsKey fns map key = false)
    (hrun : run (hashmapStep fns) map [.insert (some key) (some val), .remove (some key)] =
      .ok (outs, map')) (k : K) :
    hashmapContainsKey fns map k = hashmapContainsKey fns map' k := by
  obtain ⟨o, map₁, o', hinsert, hremove, -⟩ := run_pair_eq_ok.mp hrun
  obtain ⟨map₃, hinsert', h₁⟩ := h.step (.insert (some key) (some val))
  rw [hinsert] at hinsert'
  obtain ⟨-, rfl⟩ := Prod.mk.inj (Except.ok.inj hinsert')
  obtain ⟨map₄, hremove', h₂⟩ := h₁.step (.remove (some key))
  rw [hremove] at hremove'
  obtain ⟨-, rfl⟩ := Prod.mk.inj (Except.ok.inj hremove')
  rw [h.hashmapContainsKey_eq, ← Bool.not_eq_true, Option.not_isSome_iff_eq_none] at habsent
  rw [h.hashmapContainsKey_eq, h₂.hashmapContainsKey_eq,
    mapSpec_insert_remove hl capacity val habsent]

end Keys

/-- For every capacity up to `2 ^ 30` and every lawful hash and equality, any two runs of the
mutating calls from `hashmap_init` that end with the same keys end with tables that agree at
every slot on the occupied flag and on the probe distance; and inserting and then removing an
absent key restores both at every slot. -/
theorem hashmap_layout_of_keys {slotSize slotAlign slotSize' slotAlign' capacity : Nat}
    {buf buf' : SlotBuffer K V} {map₀ map₀' map map' : HashMap K V Ctx}
    {ops ops' : List (HashmapOp K V)} {outs outs' : List (HashmapOut V)}
    (hl : fns.Lawful ctx) (hc : capacity ≤ 2 ^ 30)
    (hinit : hashmapInit slotSize slotAlign buf capacity ctx = .ok map₀)
    (hinit' : hashmapInit slotSize' slotAlign' buf' capacity ctx = .ok map₀')
    (hrun : run (hashmapStep fns) map₀ ops = .ok (outs, map))
    (hrun' : run (hashmapStep fns) map₀' ops' = .ok (outs', map')) :
    ((∀ key, hashmapContainsKey fns map key = hashmapContainsKey fns map' key) →
      SameLayout capacity map.slots map'.slots) ∧
    ∀ key val outs₂ map₂, hashmapContainsKey fns map key = false →
      run (hashmapStep fns) map [.insert (some key) (some val), .remove (some key)] =
        .ok (outs₂, map₂) →
      SameLayout capacity map.slots map₂.slots := by
  have h := (hashmapInit_reached hl hc hinit).run hrun
  have h' := (hashmapInit_reached hl hc hinit').run hrun'
  refine ⟨h.sameLayout h', fun key val outs₂ map₂ habsent hrun₂ => ?_⟩
  obtain ⟨m, hm⟩ := h.represents
  exact h.sameLayout (h.run hrun₂) (hm.insert_remove habsent hrun₂)

/-- Two keys of one home fill a table of two slots in either order. -/
theorem hashmap_layout_of_keys_full : ∃ outs map outs' map',
    run (hashmapStep natKeys) ⟨emptySlots zeroedSlots.contents 2, 2, 0, ()⟩
      [.insert (some 1) (some 10), .insert (some 3) (some 20)] = .ok (outs, map) ∧
    run (hashmapStep natKeys) ⟨emptySlots zeroedSlots.contents 2, 2, 0, ()⟩
      [.insert (some 3) (some 20), .insert (some 1) (some 10)] = .ok (outs', map') ∧
    SameLayout 2 map.slots map'.slots := by
  have hinit : hashmapInit 32 8 zeroedSlots 2 () =
      .ok ⟨emptySlots zeroedSlots.contents 2, 2, 0, ()⟩ := rfl
  have h₀ := hashmapInit_represents natKeys_lawful (by decide) hinit
  obtain ⟨map₁, hone, h₁⟩ := h₀.step (.insert (some 1) (some 10))
  obtain ⟨map, hthree, h⟩ := h₁.step (.insert (some 3) (some 20))
  obtain ⟨map₁', hthree', h₁'⟩ := h₀.step (.insert (some 3) (some 20))
  obtain ⟨map', hone', h'⟩ := h₁'.step (.insert (some 1) (some 10))
  have hrun := run_pair_eq_ok.mpr ⟨_, _, _, hone, hthree, rfl⟩
  have hrun' := run_pair_eq_ok.mpr ⟨_, _, _, hthree', hone', rfl⟩
  refine ⟨_, map, _, map', hrun, hrun', ?_⟩
  refine (hashmap_layout_of_keys natKeys_lawful (by decide) hinit hinit hrun hrun').1 fun key => ?_
  rw [h.hashmapContainsKey_eq, h'.hashmapContainsKey_eq]
  congr 2
  decide

end CanonC
