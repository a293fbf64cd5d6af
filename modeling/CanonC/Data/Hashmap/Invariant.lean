import CanonC.Data.Hashmap.Model
import CanonC.Toolkit.Displacement
import Mathlib.Data.Finset.Card
import Mathlib.Data.Finset.Range

/-!
# The Robin Hood order and what a lookup finds

The table invariant places every element at its probe distance from its home
slot and lets the distance grow by at most one from a slot to the next. From an
element, walking back to its home therefore passes occupied slots that are each
at least as far from home as the walk, so the early exits of a lookup never
trigger before the element.
-/

namespace CanonC

open Toolkit

variable {K V Ctx : Type*}

/-- Key equality is an equivalence and equal keys have equal hashes. -/
structure HashFns.Lawful (fns : HashFns K Ctx) (ctx : Ctx) : Prop where
  /-- Every key equals itself. -/
  refl : ∀ a, fns.eq a a ctx = true
  /-- Equality does not depend on the order of its arguments. -/
  symm : ∀ a b, fns.eq a b ctx = true → fns.eq b a ctx = true
  /-- Equal keys may be chained. -/
  trans : ∀ a b c, fns.eq a b ctx = true → fns.eq b c ctx = true → fns.eq a c ctx = true
  /-- Equal keys have one hash. -/
  hash_eq : ∀ a b, fns.eq a b ctx = true → fns.hash a ctx = fns.hash b ctx

/-- The Robin Hood order of a slot array of `n` entries. -/
structure RobinHood (fns : HashFns K Ctx) (ctx : Ctx) (n : Nat) (s : Nat → Slot K V) : Prop where
  /-- An occupied slot caches the normalised hash of its key. -/
  cached : ∀ i < n, (s i).occupied = true →
    (s i).hash = hmNormalizeHash (fns.hash (s i).key ctx)
  /-- An occupied slot lies at its probe distance from its home. -/
  dist : ∀ i < n, (s i).occupied = true →
    (s i).psl = Cyclic.dist n (hmHome (s i).hash n) i
  /-- The slot before a displaced element is occupied and displaced nearly as far. -/
  order : ∀ i < n, (s i).occupied = true → 0 < (s i).psl →
    (s (Cyclic.prev n i)).occupied = true ∧ (s i).psl ≤ (s (Cyclic.prev n i)).psl + 1
  /-- An unoccupied slot has distance and hash zero. -/
  empty : ∀ i < n, (s i).occupied = false → (s i).psl = 0 ∧ (s i).hash = 0

/-- No two occupied slots hold equal keys. -/
def DistinctKeys (fns : HashFns K Ctx) (ctx : Ctx) (n : Nat) (s : Nat → Slot K V) : Prop :=
  ∀ i < n, ∀ j < n, (s i).occupied = true → (s j).occupied = true →
    fns.eq (s i).key (s j).key ctx = true → i = j

/-- The number of occupied slots. -/
def occupiedCount (n : Nat) (s : Nat → Slot K V) : Nat :=
  ((Finset.range n).filter fun i => (s i).occupied = true).card

/-- The binding a slot's contents stand for, up to key equality. -/
def Slot.Binds (fns : HashFns K Ctx) (ctx : Ctx) (x : Slot K V) (key : K) (v : V) : Prop :=
  fns.eq x.key key ctx = true ∧ x.value = v

/-- Some occupied slot binds the key to the value. -/
def Bound (fns : HashFns K Ctx) (ctx : Ctx) (n : Nat) (s : Nat → Slot K V) (key : K) (v : V) :
    Prop :=
  ∃ i < n, (s i).occupied = true ∧ (s i).Binds fns ctx key v

/-- The mask wraps an index round the table. -/
theorem hmWrap_succ {n : Nat} (hn : n.isPowerOfTwo) (i : Nat) :
    hmWrap (i + 1) n = Cyclic.next n i := Cyclic.and_pred_eq_mod hn _

/-- A home is a slot of the table. -/
theorem hmHome_lt {n : Nat} (hn : n.isPowerOfTwo) (h : UInt64) : hmHome h n < n := by
  rw [hmHome, Cyclic.and_pred_eq_mod hn]
  exact Nat.mod_lt _ (Nat.pos_of_isPowerOfTwo hn)

/-- A probe length in a table does not wrap. -/
theorem pslSucc_eq {n psl : Nat} (hc : n ≤ 2 ^ 30) (hp : psl < n) : pslSucc psl = psl + 1 :=
  Nat.mod_eq_of_lt (by omega)

/-- The Robin Hood order displaces the elements of the table on a ring. -/
theorem RobinHood.displaced {fns : HashFns K Ctx} {ctx : Ctx} {n : Nat} {s : Nat → Slot K V}
    (hr : RobinHood fns ctx n s) (hn : n.isPowerOfTwo) :
    Displaced n (fun i => (s i).occupied) (fun i => (s i).psl) where
  lt i hi ho := by
    rw [hr.dist i hi ho]
    exact Cyclic.dist_lt (hmHome_lt hn _)
  order := hr.order

/-- Every slot from an element's home up to the element is occupied, and each is
at least as far from its own home as from the element's. -/
theorem RobinHood.path {fns : HashFns K Ctx} {ctx : Ctx} {n : Nat} {s : Nat → Slot K V}
    (hr : RobinHood fns ctx n s) (hn : n.isPowerOfTwo) {i : Nat} (hi : i < n)
    (ho : (s i).occupied = true) {e : Nat} (he : e ≤ (s i).psl) :
    (s ((hmHome (s i).hash n + e) % n)).occupied = true ∧
      e ≤ (s ((hmHome (s i).hash n + e) % n)).psl := by
  have hh := hmHome_lt hn (s i).hash
  have hdist := hr.dist i hi ho
  have hrest := Cyclic.dist_from_add hh hi (hdist ▸ he)
  rw [← hdist] at hrest
  obtain ⟨hocc, hnear⟩ := (hr.displaced hn).on_way
    (show (hmHome (s i).hash n + e) % n < n from Nat.mod_lt _ (by omega)) hi ho (by omega)
  exact ⟨hocc, by omega⟩

/-- The home of an occupied slot's key, for any key equal to it. -/
theorem RobinHood.hash_of_eq {fns : HashFns K Ctx} {ctx : Ctx} {n : Nat} {s : Nat → Slot K V}
    (hr : RobinHood fns ctx n s) (hl : fns.Lawful ctx) {i : Nat} (hi : i < n)
    (ho : (s i).occupied = true) {key : K} (he : fns.eq (s i).key key ctx = true) :
    (s i).hash = hmNormalizeHash (fns.hash key ctx) := by
  rw [hr.cached i hi ho, hl.hash_eq _ _ he]

/-- A key has at most one slot. -/
theorem DistinctKeys.unique {fns : HashFns K Ctx} {ctx : Ctx} {n : Nat} {s : Nat → Slot K V}
    (hd : DistinctKeys fns ctx n s) (hl : fns.Lawful ctx) {i j : Nat} (hi : i < n) (hj : j < n)
    (hoi : (s i).occupied = true) (hoj : (s j).occupied = true) {key : K}
    (hki : fns.eq (s i).key key ctx = true) (hkj : fns.eq (s j).key key ctx = true) : i = j :=
  hd i hi j hj hoi hoj (hl.trans _ _ _ hki (hl.symm _ _ hkj))

/-- What a lookup returns is a slot of the table that holds the key. -/
theorem hmProbeLoop_sound {fns : HashFns K Ctx} {map : HashMap K V Ctx} {h : UInt64} {key : K}
    (hn : map.capacity.isPowerOfTwo) {fuel : Nat} :
    ∀ {idx psl i : Nat}, idx < map.capacity →
      hmProbeLoop fns map h key fuel idx psl = some i →
      i < map.capacity ∧ (map.slots i).occupied = true ∧
        fns.eq (map.slots i).key key map.ctx = true := by
  induction fuel with
  | zero => intro idx psl i _ hp; simp [hmProbeLoop] at hp
  | succ fuel ih =>
    intro idx psl i hidx hp
    simp only [hmProbeLoop] at hp
    split at hp
    · cases hp
    · rename_i ho
      split at hp
      · cases hp
      · split at hp
        · rename_i hm
          obtain rfl := Option.some.inj hp
          simp only [Bool.and_eq_true] at hm
          exact ⟨hidx, by simpa using ho, hm.2⟩
        · rw [hmWrap_succ hn] at hp
          exact ih (Cyclic.next_lt hidx) hp

/-- A map as every call leaves it: Robin Hood order, no key twice, `len` the number
of occupied slots, and no more elements than the load cap allows. -/
structure HashMap.WellFormed (fns : HashFns K Ctx) (map : HashMap K V Ctx) : Prop where
  /-- The capacity is a power of two. -/
  pow : map.capacity.isPowerOfTwo
  /-- The capacity keeps probe distances within 32 bits. -/
  cap_le : map.capacity ≤ 2 ^ 30
  /-- Elements lie in Robin Hood order. -/
  robinHood : RobinHood fns map.ctx map.capacity map.slots
  /-- No key occurs twice. -/
  distinct : DistinctKeys fns map.ctx map.capacity map.slots
  /-- The count is the number of occupied slots. -/
  len_eq : map.len = occupiedCount map.capacity map.slots
  /-- The load cap is respected. -/
  load : map.len ≤ map.capacity - map.capacity / 4

namespace HashMap.WellFormed

variable {fns : HashFns K Ctx} {map : HashMap K V Ctx}

/-- The probe distance of an occupied slot is less than the capacity. -/
theorem psl_lt (hw : map.WellFormed fns) {i : Nat} (hi : i < map.capacity)
    (ho : (map.slots i).occupied = true) : (map.slots i).psl < map.capacity := by
  rw [hw.robinHood.dist i hi ho]
  exact Cyclic.dist_lt (hmHome_lt hw.pow _)

/-- Going its probe distance forward from its home reaches an occupied slot. -/
theorem home_add_psl (hw : map.WellFormed fns) {i : Nat} (hi : i < map.capacity)
    (ho : (map.slots i).occupied = true) :
    (hmHome (map.slots i).hash map.capacity + (map.slots i).psl) % map.capacity = i := by
  rw [hw.robinHood.dist i hi ho]
  exact Cyclic.add_dist (hmHome_lt hw.pow _) hi

/-- Short of its probe distance, the walk from a key's home meets other keys only. -/
theorem ne_on_path (hw : map.WellFormed fns) (hl : fns.Lawful map.ctx) {p j : Nat}
    (hp : p < map.capacity) (ho : (map.slots p).occupied = true) {key : K}
    (hk : fns.eq (map.slots p).key key map.ctx = true) (hj : j < (map.slots p).psl) :
    fns.eq (map.slots ((hmHome (map.slots p).hash map.capacity + j) % map.capacity)).key key
      map.ctx = false := by
  have hpl := hw.psl_lt hp ho
  have hoj := (hw.robinHood.path hw.pow hp ho hj.le).1
  rw [← Bool.not_eq_true]
  intro hkj
  have hq := hw.distinct.unique hl (Nat.mod_lt _ (by omega)) hp hoj ho hkj hk
  have hdj := Cyclic.dist_add (hmHome_lt hw.pow (map.slots p).hash)
    (show j < map.capacity by omega)
  rw [hq, ← hw.robinHood.dist p hp ho] at hdj
  omega

/-- A lookup that is on its way to the key's slot arrives there. -/
theorem hmProbeLoop_complete (hw : map.WellFormed fns) (hl : fns.Lawful map.ctx) {p : Nat}
    (hp : p < map.capacity) (ho : (map.slots p).occupied = true) {key : K}
    (hk : fns.eq (map.slots p).key key map.ctx = true) {fuel : Nat} :
    ∀ {j : Nat}, j ≤ (map.slots p).psl → (map.slots p).psl < j + fuel →
      hmProbeLoop fns map (map.slots p).hash key fuel
        ((hmHome (map.slots p).hash map.capacity + j) % map.capacity) j = some p := by
  have hpl := hw.psl_lt hp ho
  induction fuel with
  | zero => intro j hj hf; omega
  | succ fuel ih =>
    intro j hj hf
    obtain ⟨hoj, hpj⟩ := hw.robinHood.path hw.pow hp ho hj
    simp only [hmProbeLoop, hoj, Bool.not_true, Bool.false_eq_true, ite_false,
      if_neg (Nat.not_lt.mpr hpj)]
    by_cases hjp : j = (map.slots p).psl
    · rw [hjp, hw.home_add_psl hp ho]
      simp [hk]
    · have hne := hw.ne_on_path hl hp ho hk (show j < (map.slots p).psl by omega)
      rw [if_neg (by simp [hne]), hmWrap_succ hw.pow, Cyclic.next_add,
        pslSucc_eq hw.cap_le (show j < map.capacity by omega)]
      exact ih (by omega) (by omega)

/-- A lookup finds exactly the slot that holds the key. -/
theorem hmProbe_eq_some_iff (hw : map.WellFormed fns) (hl : fns.Lawful map.ctx) {key : K}
    {i : Nat} : hmProbe fns map key = some i ↔ i < map.capacity ∧
      (map.slots i).occupied = true ∧ fns.eq (map.slots i).key key map.ctx = true := by
  constructor
  · exact hmProbeLoop_sound hw.pow (hmHome_lt hw.pow _)
  · rintro ⟨hi, ho, hk⟩
    have hhash : hmHash fns map key = (map.slots i).hash :=
      (hw.robinHood.hash_of_eq hl hi ho hk).symm
    have hpl := hw.psl_lt hi ho
    have hloop := hw.hmProbeLoop_complete hl hi ho hk (Nat.zero_le _)
      (show (map.slots i).psl < 0 + map.capacity by omega)
    rw [Nat.add_zero, Nat.mod_eq_of_lt (hmHome_lt hw.pow _)] at hloop
    simp only [hmProbe, hhash]
    exact hloop

/-- A lookup fails exactly when no occupied slot holds the key. -/
theorem hmProbe_eq_none_iff (hw : map.WellFormed fns) (hl : fns.Lawful map.ctx) {key : K} :
    hmProbe fns map key = none ↔ ∀ i < map.capacity, (map.slots i).occupied = true →
      fns.eq (map.slots i).key key map.ctx = false := by
  rw [Option.eq_none_iff_forall_ne_some]
  simp only [ne_eq, hw.hmProbe_eq_some_iff hl, not_and, Bool.not_eq_true]

/-- The value a lookup reads is the one bound to the key. -/
theorem hashmapGet_eq_some_iff (hw : map.WellFormed fns) (hl : fns.Lawful map.ctx) {key : K}
    {v : V} : hashmapGet fns map key = some v ↔
      Bound fns map.ctx map.capacity map.slots key v := by
  simp only [hashmapGet, Option.map_eq_some_iff, hw.hmProbe_eq_some_iff hl, Bound, Slot.Binds]
  constructor
  · rintro ⟨i, ⟨hi, ho, hk⟩, rfl⟩
    exact ⟨i, hi, ho, hk, rfl⟩
  · rintro ⟨i, hi, ho, hk, rfl⟩
    exact ⟨i, ⟨hi, ho, hk⟩, rfl⟩

end HashMap.WellFormed

end CanonC
