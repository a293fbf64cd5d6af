import CanonC.Data.Hashmap.Refinement
import CanonC.Data.Vec.Refinement

/-!
# Iterating over a hash map

Each call of the iterator goes on to the next occupied slot, so that the calls from index
zero on yield the occupied slots in slot order. The count of these is `len` after any
history, whatever the hash and the equality; under lawful ones they are the bindings of the
map. The collecting helpers push what the iterator yields until the vector is full.
-/

namespace CanonC

open Toolkit Function

variable {K V Ctx α : Type*} {fns : HashFns K Ctx} {capacity : Nat}
  {map map' : HashMap K V Ctx}

/-- The first `n` calls of `hashmap_iter_next` from an index on: the slots they point into,
absent where they return false. -/
def hashmapIterCalls (map : HashMap K V Ctx) : Nat → Nat → List (Option Nat)
  | 0, _ => []
  | n + 1, iter =>
    (hashmapIterNext map iter).1 :: hashmapIterCalls map n (hashmapIterNext map iter).2

/-- The loop of `HASHMAP_FOR_EACH` from an index on: the slots it visits, unless it has not
ended within the rounds allotted. -/
def hashmapForEachFrom (map : HashMap K V Ctx) : Nat → Nat → Option (List Nat)
  | 0, _ => none
  | rounds + 1, iter =>
    match hashmapIterNext map iter with
    | (none, _) => some []
    | (some i, iter) => (hashmapForEachFrom map rounds iter).map fun visited => i :: visited

/-- `HASHMAP_FOR_EACH`. -/
def hashmapForEach (map : HashMap K V Ctx) (rounds : Nat) : Option (List Nat) :=
  hashmapForEachFrom map rounds 0

/-- The loop of the collecting helpers, which push a field of each slot, unless it has not
ended within the rounds allotted. -/
def hashmapCollectLoop (field : Slot K V → α) (map : HashMap K V Ctx) :
    Nat → Nat → Vec α → Option (Vec α × Except Error Bool)
  | 0, _, _ => none
  | rounds + 1, iter, out =>
    match hashmapIterNext map iter with
    | (none, _) => some (out, .ok true)
    | (some i, iter) =>
      match vecPush out (field (map.slots i)) with
      | (out, .error _) => some (out, .error .capacityExceeded)
      | (out, .ok _) => hashmapCollectLoop field map rounds iter out

/-- The common body of the collecting helpers; an absent map or vector is a NULL pointer. -/
def hashmapCollect (field : Slot K V → α) (map : Option (HashMap K V Ctx)) (out : Option (Vec α)) :
    Option (Option (Vec α) × Except Error Bool) :=
  match map, out with
  | some map, some out =>
    (hashmapCollectLoop field map (map.capacity + 1) 0 out).map fun (out, res) => (some out, res)
  | _, out => some (out, .error .invalidArg)

/-- `hashmap_collect_keys`. -/
def hashmapCollectKeys (map : Option (HashMap K V Ctx)) (out : Option (Vec K)) :
    Option (Option (Vec K) × Except Error Bool) :=
  hashmapCollect Slot.key map out

/-- `hashmap_collect_values`. -/
def hashmapCollectValues (map : Option (HashMap K V Ctx)) (out : Option (Vec V)) :
    Option (Option (Vec V) × Except Error Bool) :=
  hashmapCollect Slot.value map out

/-- The table has the capacity, a power of two, and `len` counts its occupied slots. -/
structure HashMap.Counted (capacity : Nat) (map : HashMap K V Ctx) : Prop where
  /-- The capacity is kept. -/
  capacity_eq : map.capacity = capacity
  /-- The capacity is a power of two. -/
  pow : map.capacity.isPowerOfTwo
  /-- The count is the number of occupied slots. -/
  len_eq : map.len = occupiedCount map.capacity map.slots

/-- Writing occupied contents to an occupied slot keeps the count. -/
theorem occupiedCount_overwrite {n i : Nat} {s : Nat → Slot K V} {x : Slot K V}
    (ho : (s i).occupied = true) (hx : x.occupied = true) :
    occupiedCount n (update s i x) = occupiedCount n s := by
  refine occupiedCount_congr fun j _ => ?_
  by_cases hj : j = i
  · rw [hj, update_self, hx, ho]
  · rw [update_of_ne hj]

/-- An entry in place of another is counted once. -/
theorem HashMap.Counted.overwrite (h : map.Counted capacity) {i : Nat} {x : Slot K V}
    (ho : (map.slots i).occupied = true) (hx : x.occupied = true) :
    ({ map with slots := update map.slots i x } : HashMap K V Ctx).Counted capacity :=
  ⟨h.capacity_eq, h.pow, h.len_eq.trans (occupiedCount_overwrite ho hx).symm⟩

/-- The insertion loop counts the element it places, and only then. -/
theorem hmInsertLoop_counted (fns : HashFns K Ctx) (fuel psl : Nat) {idx : Nat} {x : Slot K V}
    (h : map.Counted capacity) (hidx : idx < map.capacity) (hx : x.occupied = true) :
    (hmInsertLoop fns fuel map idx psl x).1.Counted capacity := by
  induction fuel generalizing map idx psl x with
  | zero => exact h
  | succ fuel ih =>
    simp only [hmInsertLoop]
    split
    · rename_i hfree
      refine ⟨h.capacity_eq, h.pow, ?_⟩
      rw [occupiedCount_update hidx (by simpa using hfree) hx, h.len_eq]
    · rename_i ho
      have ho' : (map.slots idx).occupied = true := by simpa using ho
      have hnext : hmWrap (idx + 1) map.capacity < map.capacity := by
        rw [hmWrap_succ h.pow]
        exact Cyclic.next_lt hidx
      split
      · exact h.overwrite ho' ho'
      · split
        · exact ih _ (h.overwrite ho' hx) hnext ho'
        · exact ih _ h hnext hx

/-- The backward shift keeps the count and ends at an occupied slot. -/
theorem hmShiftLoop_count {n : Nat} (hn : n.isPowerOfTwo) (fuel : Nat) {s : Nat → Slot K V}
    {c : Nat} (hc : c < n) (ho : (s c).occupied = true) :
    occupiedCount n (hmShiftLoop n fuel s c).1 = occupiedCount n s ∧
      (hmShiftLoop n fuel s c).2 < n ∧
      ((hmShiftLoop n fuel s c).1 (hmShiftLoop n fuel s c).2).occupied = true := by
  induction fuel generalizing s c with
  | zero => exact ⟨rfl, hc, ho⟩
  | succ fuel ih =>
    simp only [hmShiftLoop]
    split
    · exact ⟨rfl, hc, ho⟩
    · rename_i hgo
      have hnext : hmWrap (c + 1) n < n := by
        rw [hmWrap_succ hn]
        exact Cyclic.next_lt hc
      have ho' : (s (hmWrap (c + 1) n)).occupied = true := by
        simp only [Bool.or_eq_true, not_or, Bool.not_eq_true', Bool.not_eq_false] at hgo
        exact hgo.1
      have hmoved : (update s c { s (hmWrap (c + 1) n) with
          psl := (s (hmWrap (c + 1) n)).psl - 1 } (hmWrap (c + 1) n)).occupied = true := by
        by_cases hcn : hmWrap (c + 1) n = c
        · rw [hcn, update_self, ← hcn]
          exact ho'
        · rw [update_of_ne hcn]
          exact ho'
      obtain ⟨hcount, hlt, hocc⟩ := ih hnext hmoved
      exact ⟨hcount.trans (occupiedCount_overwrite ho ho'), hlt, hocc⟩

/-- An insertion keeps the count. -/
theorem hashmapInsert_counted (h : map.Counted capacity) (key : K) (val : V) :
    (hashmapInsert fns map (some key) (some val)).1.Counted capacity := by
  simp only [hashmapInsert]
  split
  · exact h
  · have hloop := hmInsertLoop_counted fns map.capacity 0 h
      (hmHome_lt h.pow (hmIncoming fns map key val).hash) (x := hmIncoming fns map key val) rfl
    split
    · rename_i heq
      rwa [heq] at hloop
    · rename_i heq
      rwa [heq] at hloop

/-- A removal keeps the count. -/
theorem hashmapRemove_counted (h : map.Counted capacity) (key : K) :
    (hashmapRemove fns map (some key)).1.Counted capacity := by
  simp only [hashmapRemove]
  split
  · exact h
  · rename_i hfound
    obtain ⟨p, hp⟩ : ∃ p, hmProbe fns map key = some p := by
      cases hprobe : hmProbe fns map key with
      | none => simp [hprobe] at hfound
      | some p => exact ⟨p, rfl⟩
    obtain ⟨hlt, ho, -⟩ := hmProbeLoop_sound h.pow (hmHome_lt h.pow _) hp
    obtain ⟨hcount, hcurr, hocc⟩ := hmShiftLoop_count h.pow (map.capacity - 1) hlt ho
    have hless := occupiedCount_emptied hcurr hocc
    have hlen := h.len_eq
    rw [hp, Option.getD_some]
    refine ⟨h.capacity_eq, h.pow, ?_⟩
    dsimp only
    rw [if_pos (by omega)]
    omega

/-- Every call keeps the count, whatever the hash and the equality. -/
theorem hashmapStep_counted (h : map.Counted capacity) {op : HashmapOp K V} {o : HashmapOut V}
    (hstep : hashmapStep fns map op = .ok (o, map')) : map'.Counted capacity := by
  cases op with
  | insert key val =>
    obtain ⟨-, rfl⟩ := Prod.mk.inj (Except.ok.inj hstep)
    cases key with
    | none => exact h
    | some key =>
      cases val with
      | none => exact h
      | some val => exact hashmapInsert_counted h key val
  | remove key =>
    obtain ⟨-, rfl⟩ := Prod.mk.inj (Except.ok.inj hstep)
    cases key with
    | none => exact h
    | some key => exact hashmapRemove_counted h key
  | clear =>
    obtain ⟨-, rfl⟩ := Prod.mk.inj (Except.ok.inj hstep)
    exact ⟨h.capacity_eq, h.pow, (occupiedCount_emptySlots map.slots map.capacity).symm⟩

/-- Every map reached from `hashmap_init` counts its occupied slots. -/
theorem run_counted {slotSize slotAlign : Nat} {buf : SlotBuffer K V} {ctx : Ctx}
    {ops : List (HashmapOp K V)} {outs : List (HashmapOut V)}
    (hinit : hashmapInit slotSize slotAlign buf capacity ctx = .ok map)
    (hrun : run (hashmapStep fns) map ops = .ok (outs, map')) : map'.Counted capacity := by
  obtain ⟨hn, rfl⟩ := hashmapInit_eq_ok hinit
  refine run_invariant (fun _ _ _ _ h hstep => hashmapStep_counted h hstep) ?_ hrun
  exact ⟨rfl, hn, (occupiedCount_emptySlots buf.contents capacity).symm⟩


/-- The occupied slots from an index on, in slot order. -/
def HashMap.occupiedFrom (map : HashMap K V Ctx) (iter : Nat) : List Nat :=
  (List.range' iter (map.capacity - iter)).filter fun i => (map.slots i).occupied

/-- The occupied slots from a slot on: that one, if it is, and those behind it. -/
theorem occupiedFrom_of_lt (map : HashMap K V Ctx) {iter : Nat} (h : iter < map.capacity) :
    map.occupiedFrom iter =
      if (map.slots iter).occupied then iter :: map.occupiedFrom (iter + 1)
      else map.occupiedFrom (iter + 1) := by
  obtain ⟨left, hleft⟩ : ∃ left, map.capacity - iter = left + 1 :=
    ⟨map.capacity - (iter + 1), by omega⟩
  rw [HashMap.occupiedFrom, HashMap.occupiedFrom, hleft, List.range'_succ, List.filter_cons,
    show map.capacity - (iter + 1) = left by omega]

/-- A call of the iterator takes the first of the occupied slots left, and where it returns
false none is left. -/
theorem hashmapIterNext_cases (map : HashMap K V Ctx) (iter : Nat) :
    (∃ iter', hashmapIterNext map iter = (none, iter') ∧ map.occupiedFrom iter = [] ∧
      map.occupiedFrom iter' = []) ∨
    ∃ i, hashmapIterNext map iter = (some i, i + 1) ∧
      map.occupiedFrom iter = i :: map.occupiedFrom (i + 1) := by
  obtain ⟨left, hleft⟩ : ∃ left, map.capacity - iter = left := ⟨_, rfl⟩
  rw [hashmapIterNext, hleft]
  induction left generalizing iter with
  | zero =>
    have hnil : map.occupiedFrom iter = [] := by
      rw [HashMap.occupiedFrom, hleft]
      rfl
    exact .inl ⟨iter, rfl, hnil, hnil⟩
  | succ left ih =>
    have hstep := occupiedFrom_of_lt map (show iter < map.capacity by omega)
    rw [hmIterLoop]
    split
    · rename_i ho
      rw [if_pos ho] at hstep
      exact .inr ⟨iter, rfl, hstep⟩
    · rename_i ho
      rw [if_neg ho] at hstep
      rw [hstep]
      exact ih (iter + 1) (by omega)

/-- The `k`-th call answers with the `k`-th occupied slot, and false once there is none. -/
theorem hashmapIterCalls_eq (map : HashMap K V Ctx) (n iter : Nat) :
    hashmapIterCalls map n iter = (List.range n).map fun k => (map.occupiedFrom iter)[k]? := by
  induction n generalizing iter with
  | zero => rfl
  | succ n ih =>
    rw [hashmapIterCalls, ih, List.range_succ_eq_map, List.map_cons, List.map_map]
    rcases hashmapIterNext_cases map iter with ⟨iter', hnext, hnil, hnil'⟩ | ⟨i, hnext, hcons⟩
    · rw [hnext, hnil, hnil']
      rfl
    · rw [hnext, hcons]
      rfl

/-- As many calls return true as there are occupied slots left. -/
theorem countP_hashmapIterCalls (map : HashMap K V Ctx) (n iter : Nat) :
    (hashmapIterCalls map n iter).countP Option.isSome =
      min n (map.occupiedFrom iter).length := by
  induction n generalizing iter with
  | zero => rw [Nat.zero_min]; rfl
  | succ n ih =>
    rw [hashmapIterCalls, List.countP_cons, ih]
    rcases hashmapIterNext_cases map iter with ⟨iter', hnext, hnil, hnil'⟩ | ⟨i, hnext, hcons⟩
    · rw [hnext, hnil, hnil', List.length_nil, Nat.min_zero, Nat.min_zero]
      rfl
    · rw [hnext, hcons, List.length_cons, Nat.succ_min_succ]
      rfl

/-- The loop over all bindings visits the occupied slots left. -/
theorem hashmapForEachFrom_eq (map : HashMap K V Ctx) (rounds : Nat) {iter : Nat}
    (h : (map.occupiedFrom iter).length < rounds) :
    hashmapForEachFrom map rounds iter = some (map.occupiedFrom iter) := by
  induction rounds generalizing iter with
  | zero => exact absurd h (Nat.not_lt_zero _)
  | succ rounds ih =>
    rw [hashmapForEachFrom]
    rcases hashmapIterNext_cases map iter with ⟨iter', hnext, hnil, -⟩ | ⟨i, hnext, hcons⟩
    · rw [hnext, hnil]
    · rw [hcons, List.length_cons] at h
      rw [hnext, hcons]
      dsimp only
      rw [ih (Nat.lt_of_succ_lt_succ h), Option.map_some]

/-- The collecting loop appends the fields of the occupied slots left, as far as they fit, and
succeeds when all of them do. -/
theorem hashmapCollectLoop_spec (field : Slot K V → α) (map : HashMap K V Ctx) {present : Bool}
    {cap : Nat} (rounds : Nat) {iter : Nat} {v : Vec α} {xs : List α}
    (h : v.Holds present cap xs) (hrounds : (map.occupiedFrom iter).length < rounds) :
    ∃ v', hashmapCollectLoop field map rounds iter v =
        some (v', if xs.length + (map.occupiedFrom iter).length ≤ cap then .ok true
          else .error .capacityExceeded) ∧
      v'.Holds present cap (xs ++
        ((map.occupiedFrom iter).map fun i => field (map.slots i)).take (cap - xs.length)) := by
  have hle : xs.length ≤ cap := h.len_eq ▸ h.len_le
  induction rounds generalizing iter v xs with
  | zero => exact absurd hrounds (Nat.not_lt_zero _)
  | succ rounds ih =>
    rw [hashmapCollectLoop]
    rcases hashmapIterNext_cases map iter with ⟨iter', hnext, hnil, -⟩ | ⟨i, hnext, hcons⟩
    · rw [hnext, hnil, if_pos (by simpa using hle), List.map_nil, List.take_nil, List.append_nil]
      exact ⟨v, rfl, h⟩
    · rw [hcons, List.length_cons] at hrounds
      rw [hnext, hcons, List.length_cons, List.map_cons]
      dsimp only
      by_cases hroom : xs.length < cap
      · obtain ⟨v₁, hpush, h₁⟩ := h.push_room hroom (field (map.slots i))
        obtain ⟨v', hloop, h'⟩ := ih h₁ (Nat.lt_of_succ_lt_succ hrounds) (h₁.len_eq ▸ h₁.len_le)
        rw [List.length_append, List.length_singleton] at hloop h'
        refine ⟨v', ?_, ?_⟩
        · rw [hpush]
          dsimp only
          rw [hloop, Nat.add_assoc, Nat.add_comm 1]
        · obtain ⟨room, hcap⟩ : ∃ room, cap - xs.length = room + 1 :=
            ⟨cap - (xs.length + 1), by omega⟩
          rw [List.append_assoc, show cap - (xs.length + 1) = room by omega] at h'
          rw [hcap, List.take_succ_cons]
          exact h'
      · obtain ⟨e, hpush⟩ := h.push_full (Nat.le_of_not_lt hroom) (field (map.slots i))
        refine ⟨v, ?_, ?_⟩
        · rw [hpush, if_neg (by omega)]
        · rw [show cap - xs.length = 0 by omega, List.take_zero, List.append_nil]
          exact h

/-- Which slots the occupied ones from a slot on are. -/
theorem mem_occupiedFrom {iter i : Nat} : i ∈ map.occupiedFrom iter ↔
    (iter ≤ i ∧ i < map.capacity) ∧ (map.slots i).occupied = true := by
  rw [HashMap.occupiedFrom, List.mem_filter, List.mem_range'_1]
  refine and_congr_left fun _ => ?_
  omega

/-- The occupied slots come in order. -/
theorem pairwise_occupiedFrom (map : HashMap K V Ctx) (iter : Nat) :
    (map.occupiedFrom iter).Pairwise (· < ·) :=
  List.Pairwise.filter _ List.pairwise_lt_range'

/-- The occupied slots of a well-formed map hold each key once. -/
theorem HashMap.WellFormed.pairwise_keys (hw : map.WellFormed fns) (iter : Nat) :
    (map.occupiedFrom iter).Pairwise fun i j =>
      fns.eq (map.slots i).key (map.slots j).key map.ctx = false := by
  refine (pairwise_occupiedFrom map iter).imp_of_mem fun {i j} hi hj hlt => ?_
  obtain ⟨⟨-, hi⟩, hoi⟩ := mem_occupiedFrom.mp hi
  obtain ⟨⟨-, hj⟩, hoj⟩ := mem_occupiedFrom.mp hj
  rw [← Bool.not_eq_true]
  exact fun hk => hlt.ne (hw.distinct i hi j hj hoi hoj hk)

/-- The bindings of a well-formed map are those of its occupied slots. -/
theorem HashMap.WellFormed.hashmapGet_iff_occupied (hw : map.WellFormed fns)
    (hl : fns.Lawful map.ctx) {key : K} {v : V} : hashmapGet fns map key = some v ↔
      ∃ i ∈ map.occupiedFrom 0, fns.eq (map.slots i).key key map.ctx = true ∧
        (map.slots i).value = v := by
  rw [hw.hashmapGet_eq_some_iff hl, Bound]
  simp only [mem_occupiedFrom, Nat.zero_le, true_and, and_assoc, Slot.Binds]

/-- There are `len` occupied slots in all. -/
theorem HashMap.Counted.length_occupied (h : map.Counted capacity) :
    (map.occupiedFrom 0).length = map.len := by
  rw [h.len_eq, occupiedCount, HashMap.occupiedFrom, Nat.sub_zero, ← List.range_eq_range',
    ← List.toFinset_card_of_nodup (List.nodup_range.filter _)]
  congr 1
  ext i
  rw [List.mem_toFinset, List.mem_filter, List.mem_range, Finset.mem_filter, Finset.mem_range]

/-- In every map reached from `hashmap_init` by mutating calls, under any hash and equality,
the calls of the iterator from index zero answer with the occupied slots, each once and in
slot order, and then with false; `len` of them answer true. The loop over all bindings
visits the same slots, and the collecting helpers append their keys or values, in that
order, as far as the vector has room, which they report. Under a lawful hash and equality
the slots hold each binding of the map exactly once. -/
theorem hashmap_iteration {slotSize slotAlign : Nat} {buf : SlotBuffer K V} {ctx : Ctx}
    {map₀ : HashMap K V Ctx} {ops : List (HashmapOp K V)} {outs : List (HashmapOut V)}
    (hinit : hashmapInit slotSize slotAlign buf capacity ctx = .ok map₀)
    (hrun : run (hashmapStep fns) map₀ ops = .ok (outs, map)) :
    ∃ visited : List Nat, visited.Pairwise (· < ·) ∧
      (∀ i, i ∈ visited ↔ i < capacity ∧ (map.slots i).occupied = true) ∧
      visited.length = map.len ∧
      (∀ n, hashmapIterCalls map n 0 = (List.range n).map fun k => visited[k]?) ∧
      (∀ n, map.len ≤ n → (hashmapIterCalls map n 0).countP Option.isSome = map.len) ∧
      (∀ rounds, map.len < rounds → hashmapForEach map rounds = some visited) ∧
      (∀ present cap (out : Vec K) xs, out.Holds present cap xs → ∃ out',
        hashmapCollectKeys (some map) (some out) = some (some out',
          if xs.length + map.len ≤ cap then .ok true else .error .capacityExceeded) ∧
        out'.Holds present cap
          (xs ++ (visited.map fun i => (map.slots i).key).take (cap - xs.length))) ∧
      (∀ present cap (out : Vec V) xs, out.Holds present cap xs → ∃ out',
        hashmapCollectValues (some map) (some out) = some (some out',
          if xs.length + map.len ≤ cap then .ok true else .error .capacityExceeded) ∧
        out'.Holds present cap
          (xs ++ (visited.map fun i => (map.slots i).value).take (cap - xs.length))) ∧
      (fns.Lawful ctx → capacity ≤ 2 ^ 30 →
        (visited.Pairwise fun i j => fns.eq (map.slots i).key (map.slots j).key ctx = false) ∧
        ∀ key v, hashmapGet fns map key = some v ↔
          ∃ i ∈ visited, fns.eq (map.slots i).key key ctx = true ∧ (map.slots i).value = v) := by
  have hcounted := run_counted hinit hrun
  have hlen := hcounted.length_occupied
  have hmem (i : Nat) : i ∈ map.occupiedFrom 0 ↔
      i < capacity ∧ (map.slots i).occupied = true := by
    rw [mem_occupiedFrom, and_iff_right (Nat.zero_le i), hcounted.capacity_eq]
  have hrounds : (map.occupiedFrom 0).length < map.capacity + 1 := by
    refine Nat.lt_succ_of_le ((List.length_filter_le _ _).trans ?_)
    rw [List.length_range', Nat.sub_zero]
  refine ⟨map.occupiedFrom 0, pairwise_occupiedFrom map 0, hmem, hlen,
    fun n => hashmapIterCalls_eq map n 0, fun n hn => ?_, fun rounds hr => ?_,
    fun present cap out xs h => ?_, fun present cap out xs h => ?_, fun hl hc => ?_⟩
  · rw [countP_hashmapIterCalls, hlen, Nat.min_eq_right hn]
  · exact hashmapForEachFrom_eq map rounds (hlen ▸ hr)
  · obtain ⟨out', hloop, hholds⟩ := hashmapCollectLoop_spec Slot.key map _ h hrounds
    refine ⟨out', ?_, hholds⟩
    rw [hashmapCollectKeys, hashmapCollect, hloop, hlen]
    rfl
  · obtain ⟨out', hloop, hholds⟩ := hashmapCollectLoop_spec Slot.value map _ h hrounds
    refine ⟨out', ?_, hholds⟩
    rw [hashmapCollectValues, hashmapCollect, hloop, hlen]
    rfl
  · obtain ⟨outs', map', m, hrun', -, hrep⟩ := run_represents hl hc hinit ops
    rw [hrun] at hrun'
    obtain ⟨-, rfl⟩ := Prod.mk.inj (Except.ok.inj hrun')
    obtain rfl := hrep.ctx_eq
    exact ⟨hrep.wellFormed.pairwise_keys 0,
      fun key v => hrep.wellFormed.hashmapGet_iff_occupied hl⟩

/-- Colliding keys, one of them removed, in a table of four slots. -/
theorem hashmap_iteration_collision : ∃ outs map visited,
    run (hashmapStep natKeys) ⟨emptySlots zeroedSlots.contents 4, 4, 0, ()⟩
      [.insert (some 1) (some 10), .insert (some 5) (some 20), .remove (some 1)] =
        .ok (outs, map) ∧
      visited.length = map.len ∧
      ∀ rounds, map.len < rounds → hashmapForEach map rounds = some visited := by
  have hinit : hashmapInit 32 8 zeroedSlots 4 () =
      .ok ⟨emptySlots zeroedSlots.contents 4, 4, 0, ()⟩ := rfl
  obtain ⟨outs, map, -, hrun, -⟩ := run_represents natKeys_lawful (by decide) hinit
    [.insert (some 1) (some 10), .insert (some 5) (some 20), .remove (some 1)]
  obtain ⟨visited, -, -, hlen, -, -, hall, -⟩ := hashmap_iteration hinit hrun
  exact ⟨outs, map, visited, hrun, hlen, hall⟩

end CanonC
