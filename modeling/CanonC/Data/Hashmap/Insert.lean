import CanonC.Data.Hashmap.Update

/-!
# What insertion does to the table

The loop carries an element that would fit in the slot it looks at and whose key no
slot holds. Moving on, swapping and placing each keep this, and an empty slot ahead
that is nearer than a full turn stops the loop in time, whatever the number of swaps
on the way.
-/

namespace CanonC

open Toolkit Function

variable {K V Ctx : Type*} {fns : HashFns K Ctx} {ctx : Ctx} {n : Nat}
  {s : Nat → Slot K V} {x : Slot K V} {i : Nat}

/-- The element in hand at slot `i` fits there, and its key is in no slot. -/
structure Carried (fns : HashFns K Ctx) (ctx : Ctx) (n : Nat) (s : Nat → Slot K V) (i : Nat)
    (x : Slot K V) : Prop where
  /-- The slot is in the table. -/
  lt : i < n
  /-- The element is marked as an element. -/
  occupied : x.occupied = true
  /-- The element fits in the slot. -/
  fits : Fits fns ctx n s i x
  /-- No slot holds the element's key. -/
  fresh : ∀ j < n, (s j).occupied = true → fns.eq (s j).key x.key ctx = false

/-- The element in hand moves on past an element that is at least as far from home. -/
theorem Carried.advance (hx : Carried fns ctx n s i x) (hn : n.isPowerOfTwo)
    (ho : (s i).occupied = true) (hp : x.psl ≤ (s i).psl) (hlt : x.psl + 1 < n) :
    Carried fns ctx n s (Cyclic.next n i) { x with psl := x.psl + 1 } where
  lt := Cyclic.next_lt hx.lt
  occupied := hx.occupied
  fits :=
    { cached := hx.fits.cached
      dist := by
        have hd := hx.fits.dist
        change x.psl + 1 = Cyclic.dist n (hmHome x.hash n) (Cyclic.next n i)
        rw [Cyclic.dist_next (hmHome_lt hn _) hx.lt (by omega), ← hd]
      order := fun _ => by
        rw [Cyclic.prev_next hx.lt]
        exact ⟨ho, by simpa using hp⟩ }
  fresh := hx.fresh

/-- After a swap the displaced element is the one in hand. -/
theorem Carried.swap (hx : Carried fns ctx n s i x) (hn : n.isPowerOfTwo) (hl : fns.Lawful ctx)
    (hr : RobinHood fns ctx n s) (hd : DistinctKeys fns ctx n s) (ho : (s i).occupied = true) :
    Carried fns ctx n (update s i x) i (s i) where
  lt := hx.lt
  occupied := ho
  fits :=
    { cached := hr.cached i hx.lt ho
      dist := hr.dist i hx.lt ho
      order := fun hp => by
        have hlt : (s i).psl < n := by
          rw [hr.dist i hx.lt ho]
          exact Cyclic.dist_lt (hmHome_lt hn _)
        have hne : Cyclic.prev n i ≠ i := by
          have hc := Cyclic.prev_cases hx.lt
          omega
        rw [update_of_ne hne]
        exact hr.order i hx.lt ho hp }
  fresh := fun j hj hoj => by
    rw [← Bool.not_eq_true]
    intro hk
    by_cases hji : j = i
    · subst hji
      rw [update_self] at hk
      have hf := hx.fresh j hj ho
      rw [hl.symm _ _ hk] at hf
      cases hf
    · rw [update_of_ne hji] at hoj hk
      exact hji (hd j hj i hx.lt hoj ho hk)

/-- Putting the element in hand in place of one nearer its home keeps the order. -/
theorem Carried.robinHood_swap (hx : Carried fns ctx n s i x) (hn : n.isPowerOfTwo)
    (hr : RobinHood fns ctx n s) (hp : (s i).psl < x.psl) : RobinHood fns ctx n (update s i x) := by
  refine hr.update hn hx.lt (fun _ => hx.fits) (by simp [hx.occupied]) ?_
  intro _ hon hpn
  have hord := (hr.order _ (Cyclic.next_lt hx.lt) hon hpn).2
  rw [Cyclic.prev_next hx.lt] at hord
  exact ⟨hx.occupied, by omega⟩

/-- Putting the element in hand in an empty slot keeps the order. -/
theorem Carried.robinHood_place (hx : Carried fns ctx n s i x) (hn : n.isPowerOfTwo)
    (hr : RobinHood fns ctx n s) (ho : (s i).occupied = false) :
    RobinHood fns ctx n (update s i x) := by
  refine hr.update hn hx.lt (fun _ => hx.fits) (by simp [hx.occupied]) ?_
  intro _ hon hpn
  have hord := (hr.order _ (Cyclic.next_lt hx.lt) hon hpn).1
  rw [Cyclic.prev_next hx.lt, ho] at hord
  cases hord

/-- A carried entry that is put down occurs once. -/
theorem Carried.distinct_update (hx : Carried fns ctx n s i x) (hl : fns.Lawful ctx)
    (hd : DistinctKeys fns ctx n s) : DistinctKeys fns ctx n (update s i x) :=
  (hd.off i).update hl fun _ j hj _ hoj => hx.fresh j hj hoj

/-- The table holds what it held and the element `x`, once. -/
structure Inserted (fns : HashFns K Ctx) (ctx : Ctx) (n : Nat) (s : Nat → Slot K V)
    (x : Slot K V) (s' : Nat → Slot K V) : Prop where
  /-- The order is kept. -/
  robinHood : RobinHood fns ctx n s'
  /-- Keys are distinct. -/
  distinct : DistinctKeys fns ctx n s'
  /-- One more slot is occupied. -/
  count : occupiedCount n s' = occupiedCount n s + 1
  /-- The bindings are the old ones and that of `x`. -/
  bound : ∀ key v, Bound fns ctx n s' key v ↔ x.Binds fns ctx key v ∨ Bound fns ctx n s key v

/-- A carried entry that is put down in a free slot is inserted. -/
theorem Carried.inserted_place (hx : Carried fns ctx n s i x) (hn : n.isPowerOfTwo)
    (hl : fns.Lawful ctx) (hr : RobinHood fns ctx n s) (hd : DistinctKeys fns ctx n s)
    (ho : (s i).occupied = false) : Inserted fns ctx n s x (update s i x) where
  robinHood := hx.robinHood_place hn hr ho
  distinct := hx.distinct_update hl hd
  count := occupiedCount_update hx.lt ho hx.occupied
  bound := fun key v => by
    rw [bound_update hx.lt, bound_iff_off (s := s) hx.lt]
    simp [ho, hx.occupied]

/-- Inserting the displaced element after a swap inserts the one that was in hand. -/
theorem Carried.inserted_swap (hx : Carried fns ctx n s i x) (ho : (s i).occupied = true)
    {p : Nat} {s' : Nat → Slot K V}
    (h : Inserted fns ctx n (update s i x) { s i with psl := p } s') :
    Inserted fns ctx n s x s' where
  robinHood := h.robinHood
  distinct := h.distinct
  count := by
    rw [h.count, occupiedCount_congr]
    intro j _
    by_cases hji : j = i
    · rw [hji, update_self, hx.occupied, ho]
    · rw [update_of_ne hji]
  bound := fun key v => by
    rw [h.bound, bound_update hx.lt, bound_iff_off (s := s) hx.lt]
    simp only [hx.occupied, ho, true_and]
    constructor
    · rintro (hb | hb | hb)
      · exact Or.inr (Or.inl hb)
      · exact Or.inl hb
      · exact Or.inr (Or.inr hb)
    · rintro (hb | hb | hb)
      · exact Or.inr (Or.inl hb)
      · exact Or.inl hb
      · exact Or.inr (Or.inr hb)

/-- From an element whose key is absent the loop inserts it and reports a new key,
if an empty slot lies less than a full turn from the element's home. -/
theorem hmInsertLoop_absent {map : HashMap K V Ctx} (hn : map.capacity.isPowerOfTwo)
    (hc : map.capacity ≤ 2 ^ 30) (hl : fns.Lawful map.ctx) {e : Nat} (he : e < map.capacity)
    {fuel : Nat} : ∀ {s : Nat → Slot K V} {i : Nat} {x : Slot K V},
      RobinHood fns map.ctx map.capacity s → DistinctKeys fns map.ctx map.capacity s →
      Carried fns map.ctx map.capacity s i x → (s e).occupied = false →
      x.psl + Cyclic.dist map.capacity i e < map.capacity →
      Cyclic.dist map.capacity i e < fuel →
      ∃ s', hmInsertLoop fns fuel { map with slots := s } i x.psl x =
          ({ map with slots := s', len := map.len + 1 }, some true) ∧
        Inserted fns map.ctx map.capacity s x s' := by
  induction fuel with
  | zero => intro s i x _ _ _ _ _ hf; omega
  | succ fuel ih =>
    intro s i x hr hd hx hoe hpe hf
    cases ho : (s i).occupied with
    | false =>
      refine ⟨update s i x, ?_, hx.inserted_place hn hl hr hd ho⟩
      simp [hmInsertLoop, ho]
    | true =>
      have hie : i ≠ e := by
        rintro rfl
        rw [ho] at hoe
        cases hoe
      have hdist := Cyclic.dist_from_next hx.lt he hie
      by_cases hp : (s i).psl < x.psl
      · -- The swap: the displaced element takes up the walk from its own distance.
        have hr' := hx.robinHood_swap hn hr hp
        have hd' := hx.distinct_update hl hd
        have hsw := (hx.swap hn hl hr hd ho).advance hn (by rw [update_self]; exact hx.occupied)
          (by rw [update_self]; exact hp.le) (by omega)
        obtain ⟨s', hloop, hins⟩ := ih hr' hd' hsw (by rw [update_of_ne hie.symm]; exact hoe)
          (show (s i).psl + 1 + _ < _ by omega) (by omega)
        refine ⟨s', ?_, hx.inserted_swap ho hins⟩
        simp only [hmInsertLoop, ho, hx.fresh i hx.lt ho, Bool.and_false, Bool.not_true,
          Bool.false_eq_true, ite_false, if_pos hp, hmWrap_succ hn,
          pslSucc_eq hc (show (s i).psl < map.capacity by omega)]
        simpa only [ho] using hloop
      · have hadv := hx.advance hn ho (by omega) (by omega)
        obtain ⟨s', hloop, hins⟩ := ih hr hd hadv hoe
          (show x.psl + 1 + _ < _ by omega) (by omega)
        refine ⟨s', ?_, hins.robinHood, hins.distinct, hins.count, hins.bound⟩
        simp only [hmInsertLoop, ho, hx.fresh i hx.lt ho, Bool.and_false, Bool.not_true,
          Bool.false_eq_true, ite_false, if_neg hp, hmWrap_succ hn,
          pslSucc_eq hc (show x.psl < map.capacity by omega)]
        exact hloop

namespace HashMap.WellFormed

variable {map : HashMap K V Ctx}

/-- Below the load cap some slot is empty. -/
theorem exists_empty (hw : map.WellFormed fns)
    (hlen : map.len < map.capacity - map.capacity / 4) :
    ∃ e < map.capacity, (map.slots e).occupied = false := by
  have hlt := hw.len_eq
  exact occupiedCount_lt_iff.mp (by omega)

/-- A fresh element starts at its home slot. -/
theorem carried_incoming (hw : map.WellFormed fns) {key : K} (val : V)
    (habs : ∀ j < map.capacity, (map.slots j).occupied = true →
      fns.eq (map.slots j).key key map.ctx = false) :
    Carried fns map.ctx map.capacity map.slots (hmHome (hmHash fns map key) map.capacity)
      (hmIncoming fns map key val) where
  lt := hmHome_lt hw.pow _
  occupied := rfl
  fits :=
    { cached := rfl
      dist := (Cyclic.dist_self (hmHome_lt hw.pow _)).symm
      order := fun h => absurd h (Nat.lt_irrefl 0) }
  fresh := habs

/-- Inserting an absent key below the load cap adds its element and reports a new key. -/
theorem insertLoop_absent (hw : map.WellFormed fns) (hl : fns.Lawful map.ctx) {key : K} (val : V)
    (hlen : map.len < map.capacity - map.capacity / 4)
    (habs : ∀ j < map.capacity, (map.slots j).occupied = true →
      fns.eq (map.slots j).key key map.ctx = false) :
    ∃ s', hmInsertLoop fns map.capacity map (hmHome (hmHash fns map key) map.capacity) 0
        (hmIncoming fns map key val) = ({ map with slots := s', len := map.len + 1 }, some true) ∧
      Inserted fns map.ctx map.capacity map.slots (hmIncoming fns map key val) s' := by
  obtain ⟨e, he, hoe⟩ := hw.exists_empty hlen
  have hdist := Cyclic.dist_lt (i := e) (hmHome_lt hw.pow (hmHash fns map key))
  exact hmInsertLoop_absent hw.pow hw.cap_le hl he hw.robinHood hw.distinct
    (hw.carried_incoming val habs) hoe (by simpa [hmIncoming] using hdist) hdist

/-- On the way to the key's slot no element is nearer its home than the one in hand,
so the loop makes no swap and stores the new value in that slot. -/
theorem insertLoop_present (hw : map.WellFormed fns) (hl : fns.Lawful map.ctx) {p : Nat}
    (hp : p < map.capacity) (ho : (map.slots p).occupied = true) {key : K} (val : V)
    (hk : fns.eq (map.slots p).key key map.ctx = true) {fuel : Nat} :
    ∀ {j : Nat} {x : Slot K V}, j ≤ (map.slots p).psl → (map.slots p).psl < j + fuel →
      x.hash = (map.slots p).hash → x.key = key → x.value = val →
      hmInsertLoop fns fuel map ((hmHome (map.slots p).hash map.capacity + j) % map.capacity) j x =
        ({ map with slots := update map.slots p { map.slots p with value := val } },
          some false) := by
  have hpl := hw.psl_lt hp ho
  induction fuel with
  | zero => intro j x hj hf; omega
  | succ fuel ih =>
    intro j x hj hf hxh hxk hxv
    obtain ⟨hoj, hpj⟩ := hw.robinHood.path hw.pow hp ho hj
    by_cases hjp : j = (map.slots p).psl
    · rw [hjp, hw.home_add_psl hp ho]
      simp [hmInsertLoop, ho, hxh, hxk, hxv, hk]
    · have hne := hw.ne_on_path hl hp ho hk (show j < (map.slots p).psl by omega)
      simp only [hmInsertLoop, hoj, hxk, hne, Bool.and_false, Bool.not_true, Bool.false_eq_true,
        ite_false, if_neg (Nat.not_lt.mpr hpj), hmWrap_succ hw.pow, Cyclic.next_add,
        pslSucc_eq hw.cap_le (show j < map.capacity by omega)]
      exact ih (by omega) (by omega) hxh rfl hxv

end HashMap.WellFormed

end CanonC
