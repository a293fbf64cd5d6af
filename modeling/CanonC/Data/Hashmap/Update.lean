import CanonC.Data.Hashmap.Invariant

/-!
# Writing one slot

What a write to one slot does to the Robin Hood order, to the bindings and to the
number of occupied slots. Every loop of the map writes one slot a step, so each of
its invariants is one of these rules applied to that write.
-/

namespace CanonC

open Toolkit Function

variable {K V Ctx : Type*} {fns : HashFns K Ctx} {ctx : Ctx} {n : Nat}
  {s s' : Nat → Slot K V} {x : Slot K V} {i : Nat}

/-- Some occupied slot other than `i` binds the key to the value. -/
def BoundOff (fns : HashFns K Ctx) (ctx : Ctx) (n : Nat) (s : Nat → Slot K V) (i : Nat) (key : K)
    (v : V) : Prop :=
  ∃ j < n, j ≠ i ∧ (s j).occupied = true ∧ (s j).Binds fns ctx key v

/-- No two occupied slots other than `i` hold equal keys. -/
def DistinctOff (fns : HashFns K Ctx) (ctx : Ctx) (n : Nat) (s : Nat → Slot K V) (i : Nat) :
    Prop :=
  ∀ a < n, ∀ b < n, a ≠ i → b ≠ i → (s a).occupied = true → (s b).occupied = true →
    fns.eq (s a).key (s b).key ctx = true → a = b

/-- A binding is that of slot `i` or one of the others. -/
theorem bound_iff_off (hi : i < n) {key : K} {v : V} : Bound fns ctx n s key v ↔
    ((s i).occupied = true ∧ (s i).Binds fns ctx key v) ∨ BoundOff fns ctx n s i key v := by
  constructor
  · rintro ⟨j, hj, ho, hb⟩
    by_cases hji : j = i
    · exact Or.inl (hji ▸ ⟨ho, hb⟩)
    · exact Or.inr ⟨j, hj, hji, ho, hb⟩
  · rintro (⟨ho, hb⟩ | ⟨j, hj, -, ho, hb⟩)
    · exact ⟨i, hi, ho, hb⟩
    · exact ⟨j, hj, ho, hb⟩

/-- A write leaves the bindings of the other slots as they were. -/
theorem boundOff_update {key : K} {v : V} :
    BoundOff fns ctx n (update s i x) i key v ↔ BoundOff fns ctx n s i key v := by
  constructor <;> rintro ⟨j, hj, hji, ho, hb⟩ <;> refine ⟨j, hj, hji, ?_⟩
  · rw [update_of_ne hji] at ho hb
    exact ⟨ho, hb⟩
  · rw [update_of_ne hji]
    exact ⟨ho, hb⟩

/-- The bindings after a write to slot `i`. -/
theorem bound_update (hi : i < n) {key : K} {v : V} : Bound fns ctx n (update s i x) key v ↔
    (x.occupied = true ∧ x.Binds fns ctx key v) ∨ BoundOff fns ctx n s i key v := by
  rw [bound_iff_off hi, boundOff_update, update_self]

/-- Writing a key that the other slots do not hold keeps keys distinct. -/
theorem DistinctOff.update (hd : DistinctOff fns ctx n s i) (hl : fns.Lawful ctx)
    (hx : x.occupied = true → ∀ j < n, j ≠ i → (s j).occupied = true →
      fns.eq (s j).key x.key ctx = false) :
    DistinctKeys fns ctx n (update s i x) := by
  intro a ha b hb hoa hob hk
  by_cases hai : a = i
  · by_cases hbi : b = i
    · rw [hai, hbi]
    · subst hai
      rw [update_self] at hoa hk
      rw [update_of_ne hbi] at hob hk
      have hf := hx hoa b hb hbi hob
      rw [hl.symm _ _ hk] at hf
      cases hf
  · rw [update_of_ne hai] at hoa hk
    by_cases hbi : b = i
    · subst hbi
      rw [update_self] at hob hk
      have hf := hx hob a ha hai hoa
      rw [hk] at hf
      cases hf
    · rw [update_of_ne hbi] at hob hk
      exact hd a ha b hb hai hbi hoa hob hk

/-- Distinct keys are distinct off a slot. -/
theorem DistinctKeys.off (hd : DistinctKeys fns ctx n s) (i : Nat) : DistinctOff fns ctx n s i :=
  fun a ha b hb _ _ hoa hob hk => hd a ha b hb hoa hob hk

/-- Tables with the same flags have as many occupied slots. -/
theorem occupiedCount_congr (h : ∀ j < n, (s' j).occupied = (s j).occupied) :
    occupiedCount n s' = occupiedCount n s := by
  unfold occupiedCount
  congr 1
  apply Finset.filter_congr
  intro j hj
  rw [h j (Finset.mem_range.mp hj)]

/-- Filling an unoccupied slot adds one to the count. -/
theorem occupiedCount_update (hi : i < n) (ho : (s i).occupied = false)
    (hx : x.occupied = true) : occupiedCount n (update s i x) = occupiedCount n s + 1 := by
  have hset : (Finset.range n).filter (fun j => (update s i x j).occupied = true) =
      insert i ((Finset.range n).filter fun j => (s j).occupied = true) := by
    ext j
    simp only [Finset.mem_filter, Finset.mem_range, Finset.mem_insert]
    by_cases hji : j = i
    · subst hji
      simp [hi, hx]
    · simp [hji]
  unfold occupiedCount
  rw [hset, Finset.card_insert_of_notMem (by simp [ho])]

/-- Emptying an occupied slot takes one off the count. -/
theorem occupiedCount_emptied (hi : i < n) (ho : (s i).occupied = true) :
    occupiedCount n (update s i (s i).emptied) + 1 = occupiedCount n s := by
  have hfill := occupiedCount_update (s := update s i (s i).emptied) hi
    (by rw [update_self]; rfl) ho
  rw [update_idem, update_eq_self] at hfill
  exact hfill.symm

/-- A table with an unoccupied slot is not full. -/
theorem occupiedCount_lt_iff : occupiedCount n s < n ↔ ∃ e < n, (s e).occupied = false := by
  have hle : occupiedCount n s ≤ n := by
    simpa [occupiedCount] using Finset.card_filter_le (Finset.range n) _
  have hfull : occupiedCount n s = n ↔ ∀ e < n, (s e).occupied = true := by
    have := Finset.card_filter_eq_iff (s := Finset.range n) (p := fun j => (s j).occupied = true)
    simpa [occupiedCount] using this
  constructor
  · intro h
    by_contra hall
    push Not at hall
    have := hfull.mpr fun e he => by simpa using hall e he
    omega
  · rintro ⟨e, he, ho⟩
    refine lt_of_le_of_ne hle fun heq => ?_
    rw [hfull.mp heq e he] at ho
    cases ho

/-- Contents that may stand in slot `i`: at the right distance from home and in
order with the slot before. -/
structure Fits (fns : HashFns K Ctx) (ctx : Ctx) (n : Nat) (s : Nat → Slot K V) (i : Nat)
    (x : Slot K V) : Prop where
  /-- The hash is that of the key. -/
  cached : x.hash = hmNormalizeHash (fns.hash x.key ctx)
  /-- The distance is the one from home to `i`. -/
  dist : x.psl = Cyclic.dist n (hmHome x.hash n) i
  /-- The slot before is occupied and displaced nearly as far. -/
  order : 0 < x.psl →
    (s (Cyclic.prev n i)).occupied = true ∧ x.psl ≤ (s (Cyclic.prev n i)).psl + 1

/-- What an occupied slot holds fits there. -/
theorem RobinHood.fits (hr : RobinHood fns ctx n s) (hi : i < n) (ho : (s i).occupied = true) :
    Fits fns ctx n s i (s i) :=
  ⟨hr.cached i hi ho, hr.dist i hi ho, hr.order i hi ho⟩

/-- Writing contents that fit, or emptying, keeps the Robin Hood order, provided the
element behind still has its neighbour. -/
theorem RobinHood.update (hr : RobinHood fns ctx n s) (hn : n.isPowerOfTwo) (hi : i < n)
    (hx : x.occupied = true → Fits fns ctx n s i x)
    (hempty : x.occupied = false → x.psl = 0 ∧ x.hash = 0)
    (hnext : Cyclic.next n i ≠ i → (s (Cyclic.next n i)).occupied = true →
      0 < (s (Cyclic.next n i)).psl →
      x.occupied = true ∧ (s (Cyclic.next n i)).psl ≤ x.psl + 1) :
    RobinHood fns ctx n (update s i x) := by
  constructor
  · intro j hj ho
    by_cases hji : j = i
    · subst hji
      rw [update_self] at ho ⊢
      exact (hx ho).cached
    · rw [update_of_ne hji] at ho ⊢
      exact hr.cached j hj ho
  · intro j hj ho
    by_cases hji : j = i
    · subst hji
      rw [update_self] at ho ⊢
      exact (hx ho).dist
    · rw [update_of_ne hji] at ho ⊢
      exact hr.dist j hj ho
  · intro j hj ho hp
    by_cases hji : j = i
    · subst hji
      rw [update_self] at ho hp ⊢
      have hpj : Cyclic.prev n j ≠ j := by
        have hlt : x.psl < n := by
          rw [(hx ho).dist]
          exact Cyclic.dist_lt (hmHome_lt hn _)
        have hc := Cyclic.prev_cases hj
        omega
      rw [update_of_ne hpj]
      exact (hx ho).order hp
    · rw [update_of_ne hji] at ho hp ⊢
      by_cases hpi : Cyclic.prev n j = i
      · have hjn : Cyclic.next n i = j := by rw [← hpi, Cyclic.next_prev hj]
        rw [hpi, update_self]
        rw [hjn] at hnext
        exact hnext hji ho hp
      · rw [update_of_ne hpi]
        exact hr.order j hj ho hp
  · intro j hj ho
    by_cases hji : j = i
    · subst hji
      rw [update_self] at ho ⊢
      exact hempty ho
    · rw [update_of_ne hji] at ho ⊢
      exact hr.empty j hj ho

end CanonC
