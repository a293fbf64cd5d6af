import CanonC.Data.Hashmap.Update

/-!
# What removal does to the table

While the run behind the removed element shifts back, the whole table stays in Robin
Hood order: only the contents of the slot the shift stands at are surplus, and they
are emptied last. An empty slot ahead ends the shift in time. A full table obeys the
load cap only at capacities 1 and 2, where the shift can exhaust its iterations.
-/

namespace CanonC

open Toolkit Function

variable {K V Ctx : Type*} {fns : HashFns K Ctx} {ctx : Ctx} {n : Nat}
  {s₀ s : Nat → Slot K V} {c₀ c : Nat}

/-- The table `s₀` with the contents of slot `c₀` surplus has become the table `s`
with the contents of slot `c` surplus. -/
structure Shifted (fns : HashFns K Ctx) (ctx : Ctx) (n : Nat) (s₀ : Nat → Slot K V) (c₀ : Nat)
    (s : Nat → Slot K V) (c : Nat) : Prop where
  /-- The surplus slot is in the table. -/
  lt : c < n
  /-- The surplus slot is still marked occupied. -/
  occupied : (s c).occupied = true
  /-- The whole table is in Robin Hood order. -/
  robinHood : RobinHood fns ctx n s
  /-- The other slots hold distinct keys. -/
  distinct : DistinctOff fns ctx n s c
  /-- The same slots are marked occupied. -/
  flags : ∀ j < n, (s j).occupied = (s₀ j).occupied
  /-- The other slots hold the same bindings. -/
  bound : ∀ key v, BoundOff fns ctx n s c key v ↔ BoundOff fns ctx n s₀ c₀ key v

/-- The contents one slot ahead, moved back by one. -/
def Slot.movedBack (y : Slot K V) : Slot K V := { y with psl := y.psl - 1 }

/-- A displaced element fits in the slot before its own. -/
theorem RobinHood.fits_movedBack (hr : RobinHood fns ctx n s) (hn : n.isPowerOfTwo) (hc : c < n)
    (ho : (s (Cyclic.next n c)).occupied = true) (hp : 0 < (s (Cyclic.next n c)).psl) :
    Fits fns ctx n s c (s (Cyclic.next n c)).movedBack := by
  have hnx := Cyclic.next_lt hc
  have hd := hr.dist _ hnx ho
  obtain ⟨hoc, hpc⟩ := hr.order _ hnx ho hp
  rw [Cyclic.prev_next hc] at hoc hpc
  refine ⟨hr.cached _ hnx ho, ?_, fun hpos => ?_⟩
  · have hdp := Cyclic.dist_prev (hmHome_lt hn (s (Cyclic.next n c)).hash) hnx (by omega)
    rw [Cyclic.prev_next hc] at hdp
    simp only [Slot.movedBack]
    omega
  · simp only [Slot.movedBack] at hpos ⊢
    obtain ⟨hoq, hpq⟩ := hr.order c hc hoc (by omega)
    exact ⟨hoq, by omega⟩

section MovedBack

variable {z : Nat}

/-- Off the slot whose contents moved back, each slot has the contents that one slot had: slot `c`
those of slot `z`, another one its own. -/
theorem moved_contents {a : Nat} (haz : a ≠ z) :
    (update s c (s z).movedBack a).occupied = (s (Equiv.swap c z a)).occupied ∧
      (update s c (s z).movedBack a).key = (s (Equiv.swap c z a)).key ∧
      (update s c (s z).movedBack a).value = (s (Equiv.swap c z a)).value := by
  by_cases hac : a = c
  · rw [hac, update_self, Equiv.swap_apply_left]
    exact ⟨rfl, rfl, rfl⟩
  · rw [update_of_ne hac, Equiv.swap_apply_of_ne_of_ne hac haz]
    exact ⟨rfl, rfl, rfl⟩

/-- An exchange of two slots leaves the table the table. -/
theorem swap_lt_iff {a : Nat} (hc : c < n) (hz : z < n) : Equiv.swap c z a < n ↔ a < n := by
  rw [Equiv.swap_apply_def]
  split_ifs with hac haz
  · exact iff_of_true hz (hac ▸ hc)
  · exact iff_of_true hc (haz ▸ hz)
  · exact Iff.rfl

/-- Off one slot is off the other one after the exchange. -/
theorem swap_ne_iff {a : Nat} : Equiv.swap c z a ≠ c ↔ a ≠ z := by
  rw [Ne, Equiv.swap_apply_eq_iff, Equiv.swap_apply_left]

/-- The keys stay distinct off the slot whose contents moved back. -/
theorem distinctOff_movedBack (h : DistinctOff fns ctx n s c) (hc : c < n) (hz : z < n) :
    DistinctOff fns ctx n (update s c (s z).movedBack) z := by
  intro a ha b hb haz hbz hoa hob hk
  obtain ⟨hao, hak, -⟩ := @moved_contents _ _ s c z a haz
  obtain ⟨hbo, hbk, -⟩ := @moved_contents _ _ s c z b hbz
  rw [hao] at hoa
  rw [hbo] at hob
  rw [hak, hbk] at hk
  apply (Equiv.swap c z).injective
  exact h _ ((swap_lt_iff hc hz).mpr ha) _ ((swap_lt_iff hc hz).mpr hb) (swap_ne_iff.mpr haz)
    (swap_ne_iff.mpr hbz) hoa hob hk

/-- The bindings stay off the slot whose contents moved back. -/
theorem boundOff_movedBack (hc : c < n) (hz : z < n) (key : K) (v : V) :
    BoundOff fns ctx n (update s c (s z).movedBack) z key v ↔ BoundOff fns ctx n s c key v := by
  apply (Equiv.swap c z).exists_congr
  intro j
  rw [swap_lt_iff hc hz, swap_ne_iff]
  apply and_congr_right
  intro _
  apply and_congr_right
  intro hjz
  obtain ⟨ho, hk, hv⟩ := @moved_contents _ _ s c z j hjz
  rw [ho, Slot.Binds, Slot.Binds, hk, hv]

end MovedBack

/-- One step of the shift. -/
theorem Shifted.step (h : Shifted fns ctx n s₀ c₀ s c) (hn : n.isPowerOfTwo)
    (ho : (s (Cyclic.next n c)).occupied = true) (hp : 0 < (s (Cyclic.next n c)).psl) :
    Shifted fns ctx n s₀ c₀ (update s c (s (Cyclic.next n c)).movedBack) (Cyclic.next n c) := by
  have hnx := Cyclic.next_lt h.lt
  have hfit := h.robinHood.fits_movedBack hn h.lt ho hp
  have hne : Cyclic.next n c ≠ c := by
    have hlt : (s (Cyclic.next n c)).psl < n := by
      rw [h.robinHood.dist _ hnx ho]
      exact Cyclic.dist_lt (hmHome_lt hn _)
    exact Cyclic.next_ne_self h.lt (by omega)
  generalize hz : Cyclic.next n c = z at *
  refine ⟨hnx, by rwa [update_of_ne hne], ?_, distinctOff_movedBack h.distinct h.lt hnx, ?_, ?_⟩
  · refine h.robinHood.update hn h.lt (fun _ => hfit) (by simp [Slot.movedBack, ho]) ?_
    intro _ hoz _
    rw [hz] at hoz ⊢
    exact ⟨ho, by simp only [Slot.movedBack]; omega⟩
  · intro j hj
    rw [← h.flags j hj]
    by_cases hjc : j = c
    · subst hjc
      rw [update_self, h.occupied]
      exact ho
    · rw [update_of_ne hjc]
  · intro key v
    rw [boundOff_movedBack h.lt hnx, h.bound]

/-- The table holds what it held except for the contents of slot `c₀`. -/
structure Removed (fns : HashFns K Ctx) (ctx : Ctx) (n : Nat) (s₀ : Nat → Slot K V) (c₀ : Nat)
    (s : Nat → Slot K V) : Prop where
  /-- The order is kept. -/
  robinHood : RobinHood fns ctx n s
  /-- Keys are distinct. -/
  distinct : DistinctKeys fns ctx n s
  /-- One slot fewer is occupied. -/
  count : occupiedCount n s + 1 = occupiedCount n s₀
  /-- The bindings are those of the other slots. -/
  bound : ∀ key v, Bound fns ctx n s key v ↔ BoundOff fns ctx n s₀ c₀ key v

/-- No element is displaced past slot `c`. -/
def Stops (n : Nat) (s : Nat → Slot K V) (c : Nat) : Prop :=
  Cyclic.next n c ≠ c → (s (Cyclic.next n c)).occupied = true → (s (Cyclic.next n c)).psl = 0

/-- Where the shift stops, emptying the surplus slot completes the removal. -/
theorem Shifted.removed (h : Shifted fns ctx n s₀ c₀ s c) (hn : n.isPowerOfTwo)
    (hl : fns.Lawful ctx) (hstop : Stops n s c) :
    Removed fns ctx n s₀ c₀ (update s c (s c).emptied) where
  robinHood := by
    refine h.robinHood.update hn h.lt (by simp [Slot.emptied]) (fun _ => ⟨rfl, rfl⟩) ?_
    intro hne ho hp
    have hz := hstop hne ho
    omega
  distinct := h.distinct.update hl (by simp [Slot.emptied])
  count := by
    rw [occupiedCount_emptied h.lt h.occupied]
    exact occupiedCount_congr h.flags
  bound := fun key v => by
    rw [bound_update h.lt, h.bound]
    simp [Slot.emptied]

/-- With an empty slot ahead the shift stops before its iterations run out. -/
theorem hmShiftLoop_spec (hn : n.isPowerOfTwo) {fuel : Nat} :
    ∀ {s : Nat → Slot K V} {c : Nat}, Shifted fns ctx n s₀ c₀ s c →
      (∃ e < n, (s e).occupied = false ∧ Cyclic.dist n c e ≤ fuel) →
      Shifted fns ctx n s₀ c₀ (hmShiftLoop n fuel s c).1 (hmShiftLoop n fuel s c).2 ∧
        Stops n (hmShiftLoop n fuel s c).1 (hmShiftLoop n fuel s c).2 := by
  induction fuel with
  | zero =>
    rintro s c h ⟨e, he, hoe, hd⟩
    rw [(Cyclic.dist_eq_zero h.lt he).mp (by omega), h.occupied] at hoe
    cases hoe
  | succ fuel ih =>
    rintro s c h ⟨e, he, hoe, hd⟩
    have hec : e ≠ c := by
      rintro rfl
      rw [h.occupied] at hoe
      cases hoe
    simp only [hmShiftLoop, hmWrap_succ hn]
    split
    · rename_i hbrk
      refine ⟨h, fun _ ho => ?_⟩
      have ho' : (s (Cyclic.next n c)).occupied = true := ho
      simpa [ho'] using hbrk
    · rename_i hgo
      simp only [Bool.or_eq_true, Bool.not_eq_true', beq_iff_eq, not_or, Bool.not_eq_false] at hgo
      have hdist := Cyclic.dist_from_next h.lt he hec.symm
      exact ih (h.step hn hgo.1 (by omega)) ⟨e, he, by rwa [update_of_ne hec], by omega⟩

namespace HashMap.WellFormed

variable {map : HashMap K V Ctx}

/-- Only at capacities 1 and 2 does the load cap admit a full table. -/
theorem capacity_of_full (hw : map.WellFormed fns)
    (hfull : ∀ e < map.capacity, (map.slots e).occupied = true) :
    map.capacity = 1 ∨ map.capacity = 2 := by
  have hlen := hw.len_eq
  have hload := hw.load
  have hcount : ¬ occupiedCount map.capacity map.slots < map.capacity := by
    rw [occupiedCount_lt_iff]
    rintro ⟨e, he, hoe⟩
    rw [hfull e he] at hoe
    cases hoe
  have hlt : map.capacity < 4 := by omega
  obtain ⟨k, hk⟩ := hw.pow
  rcases k with _ | _ | k
  · exact Or.inl hk
  · exact Or.inr hk
  · have h4 : 2 ^ 2 ≤ 2 ^ (k + 1 + 1) := Nat.pow_le_pow_right (by omega) (by omega)
    omega

private theorem shifted_start (hw : map.WellFormed fns) {i : Nat} (hi : i < map.capacity)
    (ho : (map.slots i).occupied = true) :
    Shifted fns map.ctx map.capacity map.slots i map.slots i :=
  ⟨hi, ho, hw.robinHood, hw.distinct.off i, fun _ _ => rfl, fun _ _ => Iff.rfl⟩

/-- From any element the shift ends where nothing is displaced any more. -/
theorem shiftLoop_stops (hw : map.WellFormed fns) {i : Nat} (hi : i < map.capacity)
    (ho : (map.slots i).occupied = true) :
    let r := hmShiftLoop map.capacity (map.capacity - 1) map.slots i
    Shifted fns map.ctx map.capacity map.slots i r.1 r.2 ∧ Stops map.capacity r.1 r.2 := by
  have hstart := hw.shifted_start hi ho
  by_cases hempty : ∃ e < map.capacity, (map.slots e).occupied = false
  · obtain ⟨e, he, hoe⟩ := hempty
    have hd := Cyclic.dist_lt (i := e) hi
    exact hmShiftLoop_spec hw.pow hstart ⟨e, he, hoe, by omega⟩
  · push Not at hempty
    have hfull : ∀ e < map.capacity, (map.slots e).occupied = true :=
      fun e he => by simpa using hempty e he
    rcases hw.capacity_of_full hfull with h1 | h2
    · have hnx := Cyclic.next_lt hi
      have hunfold : hmShiftLoop map.capacity (map.capacity - 1) map.slots i = (map.slots, i) := by
        rw [h1]
        rfl
      simp only [hunfold]
      exact ⟨hstart, fun hne => absurd (by omega) hne⟩
    · -- The one iteration either breaks or moves the other element to its home.
      have hon := hfull _ (Cyclic.next_lt hi)
      have hpn := hw.psl_lt (Cyclic.next_lt hi) hon
      have hunfold : hmShiftLoop map.capacity (map.capacity - 1) map.slots i =
          if (map.slots (Cyclic.next map.capacity i)).psl = 0 then (map.slots, i)
          else (update map.slots i (map.slots (Cyclic.next map.capacity i)).movedBack,
            Cyclic.next map.capacity i) := by
        rw [show map.capacity - 1 = 0 + 1 by omega]
        simp only [hmShiftLoop, hmWrap_succ hw.pow, hon, Slot.movedBack, Bool.not_true,
          Bool.false_or, beq_iff_eq]
      simp only [hunfold]
      split
      · rename_i hz
        exact ⟨hstart, fun _ _ => hz⟩
      · rename_i hz
        refine ⟨hstart.step hw.pow hon (by omega), fun _ _ => ?_⟩
        have hback : Cyclic.next map.capacity (Cyclic.next map.capacity i) = i := by
          have ha := Cyclic.next_cases hi
          have hb := Cyclic.next_cases (Cyclic.next_lt hi)
          omega
        simp only [hback, update_self, Slot.movedBack]
        omega

/-- The shift and the final emptying remove exactly the element found. -/
theorem shiftLoop_removed (hw : map.WellFormed fns) (hl : fns.Lawful map.ctx) {i : Nat}
    (hi : i < map.capacity) (ho : (map.slots i).occupied = true) :
    let r := hmShiftLoop map.capacity (map.capacity - 1) map.slots i
    Removed fns map.ctx map.capacity map.slots i (update r.1 r.2 (r.1 r.2).emptied) := by
  obtain ⟨hs, hstop⟩ := hw.shiftLoop_stops hi ho
  exact hs.removed hw.pow hl hstop

end HashMap.WellFormed

end CanonC
