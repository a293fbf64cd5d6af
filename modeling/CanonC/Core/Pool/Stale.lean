import CanonC.Core.Pool.Slots

/-!
# Access to a pool whose region was rolled back

The check of an access compares the address with the marks of the pool itself. These do
not change when the arena is rolled back, so a pool is accessed as before, in every order
of calls on the pools and on the arena.
-/

namespace CanonC

open Toolkit

/-- `ptr_offset_const`. -/
def ptrOffsetConst (p n : Nat) : Except String Nat :=
  if p = 0 then .ok 0
  else do
    requireMsg (p ≤ usizeSub usizeMax n) "ptr_offset_const: offset would overflow address space"
    .ok (usizeAdd p n)

/-- `ptr_elem_const`. -/
def ptrElemConst (base index elemSize : Nat) : Except String Nat := do
  requireMsg (base ≠ 0) "ptr_elem_const: base cannot be NULL"
  requireMsg (0 < elemSize) "ptr_elem_const: elem_size must be > 0"
  requireMsg (index ≤ usizeMax / elemSize) "ptr_elem_const: index * elem_size overflows usize"
  ptrOffsetConst base (usizeMul index elemSize)

/-- The conversion `(isize)` of a mark, which keeps its bits. -/
def isizeOfMark (mark : Nat) : Int := if mark < 2 ^ 63 then mark else mark - 2 ^ 64

/-- The common body of `pool_get` and `pool_get_const`, with their pointer functions and their
message. -/
def poolGetBy (offset : Nat → Nat → Except String Nat)
    (elem : Nat → Nat → Nat → Except String Nat) (msg : String) (pool : Option Pool)
    (arena : Option Arena) (i : Nat) : Except String Nat :=
  match pool, arena with
  | none, _ => .ok 0
  | _, none => .ok 0
  | some pool, some arena =>
    if i ≥ pool.used then .ok 0
    else do
      let base ← offset arena.buffer pool.baseMark
      let p ← elem base i pool.objectSize
      requireMsg (p ≥ arena.buffer && (p : Int) - arena.buffer < isizeOfMark pool.endMark) msg
      .ok p

/-- `pool_get`: the address, zero for NULL. -/
def poolGet : Option Pool → Option Arena → Nat → Except String Nat :=
  poolGetBy ptrOffset ptrElem
    "pool_get: address outside reserved region — pool may have been reset"

/-- `pool_get_const`: the address, zero for NULL. -/
def poolGetConst : Option Pool → Option Arena → Nat → Except String Nat :=
  poolGetBy ptrOffsetConst ptrElemConst
    "pool_get_const: address outside reserved region — pool may have been reset"

/-- A pool with whether its region was rolled back since it was last reserved. -/
structure TrackedPool where
  pool : Pool
  /-- The arena was rolled back to the start of the region or below. -/
  rolledBack : Bool

/-- A pool after a rollback of its arena to a mark. -/
def TrackedPool.rollback (mark : Nat) (t : TrackedPool) : TrackedPool :=
  { t with rolledBack := t.rolledBack || mark ≤ t.pool.baseMark }

/-- The pools after a call on the arena. -/
def ArenaOp.trackPools (pools : List TrackedPool) : ArenaOp → List TrackedPool
  | .resetTo m => pools.map (TrackedPool.rollback m)
  | .reset => pools.map (TrackedPool.rollback 0)
  | _ => pools

/-- An arena and all pools that were ever initialised on it, the newest first. -/
structure TrackedState where
  arena : Arena
  /-- The memory its buffer lies in. -/
  mem : Memory
  pools : List TrackedPool

/-- The fault of a call on a pool that was never initialised. -/
def poolNotInitialised : String := "pool is not initialised"

/-- One call on any of the pools or on the arena. -/
def trackedStep (s : TrackedState) : PoolOp → Except String (PoolOut × TrackedState)
  | .init pool objectSize maxObjects => do
    let (pool, arena, ok) ← poolInit pool s.arena objectSize maxObjects
    .ok (.flag ok, ⟨arena, s.mem, if ok then ⟨pool, false⟩ :: s.pools else s.pools⟩)
  | .alloc k =>
    match s.pools[k]? with
    | none => .error poolNotInitialised
    | some t => do
      let (pool, p) ← poolAlloc t.pool s.arena
      .ok (.ptr p, { s with pools := s.pools.set k { t with pool } })
  | .reset k =>
    match s.pools[k]? with
    | none => .error poolNotInitialised
    | some t => do
      let (pool, arena) ← poolReset t.pool s.arena
      let pools := s.pools.map (TrackedPool.rollback t.pool.baseMark)
      .ok (.done, { s with arena, pools := pools.set k ⟨pool, false⟩ })
  | .arena op => do
    let (o, arena, mem) ← arenaStep s.arena s.mem op
    .ok (.arena o, ⟨arena, mem, op.trackPools s.pools⟩)

/-- Pointer arithmetic that ends at an address. -/
theorem ptrOffsetConst_of_le {p n : Nat} (hpos : 0 < p) (h : p + n ≤ usizeMax) :
    ptrOffsetConst p n = .ok (p + n) := by
  have hmax := usizeMax_succ
  have hle : p ≤ usizeSub usizeMax n := by
    rw [usizeSub_of_le (by omega) (by omega)]
    omega
  rw [ptrOffsetConst, if_neg (by omega), decide_eq_true hle, requireMsg_true, ok_bind,
    usizeAdd_of_lt (by omega)]

/-- The address of an element that ends at an address. -/
theorem ptrElemConst_of_le {base index elemSize : Nat} (hbase : 0 < base) (hsize : 0 < elemSize)
    (h : base + index * elemSize ≤ usizeMax) :
    ptrElemConst base index elemSize = .ok (base + index * elemSize) := by
  have hmax := usizeMax_succ
  have hindex : index ≤ usizeMax / elemSize := (Nat.le_div_iff_mul_le hsize).mpr (by omega)
  have hne : base ≠ 0 := by omega
  simp only [ptrElemConst, hne, ne_eq, not_false_eq_true, hsize, hindex, decide_true,
    requireMsg_true, ok_bind]
  rw [usizeMul_of_lt (by omega)]
  exact ptrOffsetConst_of_le hbase h

/-- What a pool keeps of its region in the buffer of an arena, whether or not the arena has taken
the region back. -/
structure Pool.Kept (buffer capacity : Nat) (pool : Pool) : Prop where
  /-- The region was reserved. -/
  reserved : pool.Reserved buffer
  /-- It lies in the buffer. -/
  end_le : pool.endMark ≤ capacity

variable {buffer capacity : Nat} {pool : Pool} {arena arena' : Arena} {s s' : TrackedState}

/-- A slot that was handed out starts in the region. -/
theorem Pool.Kept.slot_lt (h : pool.Kept buffer capacity) {i : Nat} (hi : i < pool.used) :
    pool.baseMark + i * pool.objectSize < pool.endMark := by
  have hpos := h.reserved.objectSize_pos
  have hstep : (i + 1) * pool.objectSize ≤ pool.capacity * pool.objectSize :=
    Nat.mul_le_mul_right _ (hi.trans_le h.reserved.used_le)
  rw [h.reserved.end_eq, Nat.mul_comm pool.objectSize]
  rw [Nat.succ_mul] at hstep
  omega

/-- An access answers the slot without a look at the offset of the arena. -/
theorem poolGetBy_eq {offset : Nat → Nat → Except String Nat}
    {elem : Nat → Nat → Nat → Except String Nat} (msg : String)
    (hoffset : ∀ {p n}, 0 < p → p + n ≤ usizeMax → offset p n = .ok (p + n))
    (helem : ∀ {base i size}, 0 < base → 0 < size → base + i * size ≤ usizeMax →
      elem base i size = .ok (base + i * size))
    (h : pool.Kept arena.buffer arena.capacity) (hcap : arena.capacity ≤ arenaMaxSize) (i : Nat) :
    poolGetBy offset elem msg (some pool) (some arena) i =
      .ok (if i < pool.used then arena.buffer + pool.baseMark + i * pool.objectSize else 0) := by
  have hpos := arena.buffer_pos
  have hfits := arena.capacity_fits
  have hend := h.end_le
  by_cases hi : i < pool.used
  · have hslot := h.slot_lt hi
    have hmark : isizeOfMark pool.endMark = pool.endMark := by
      rw [isizeOfMark, if_pos]
      unfold arenaMaxSize at hcap
      omega
    have hcheck : (decide (arena.buffer + pool.baseMark + i * pool.objectSize ≥ arena.buffer) &&
        decide (((arena.buffer + pool.baseMark + i * pool.objectSize : Nat) : Int) - arena.buffer <
          isizeOfMark pool.endMark)) = true := by
      rw [Bool.and_eq_true, decide_eq_true_eq, decide_eq_true_eq, hmark]
      omega
    simp only [poolGetBy]
    rw [if_neg (by omega), if_pos hi, hoffset hpos (by omega), ok_bind,
      helem (by omega) h.reserved.objectSize_pos (by omega), ok_bind, hcheck, requireMsg_true,
      ok_bind]
  · simp only [poolGetBy]
    rw [if_pos (by omega), if_neg hi]

/-- `pool_get` answers the slots in use and NULL beyond them. -/
theorem poolGet_eq (h : pool.Kept arena.buffer arena.capacity)
    (hcap : arena.capacity ≤ arenaMaxSize) (i : Nat) : poolGet (some pool) (some arena) i =
      .ok (if i < pool.used then arena.buffer + pool.baseMark + i * pool.objectSize else 0) :=
  poolGetBy_eq _ ptrOffset_of_le ptrElem_of_le h hcap i

/-- `pool_get_const` answers the same. -/
theorem poolGetConst_eq (h : pool.Kept arena.buffer arena.capacity)
    (hcap : arena.capacity ≤ arenaMaxSize) (i : Nat) : poolGetConst (some pool) (some arena) i =
      .ok (if i < pool.used then arena.buffer + pool.baseMark + i * pool.objectSize else 0) :=
  poolGetBy_eq _ ptrOffsetConst_of_le ptrElemConst_of_le h hcap i

/-- The buffer is that of the initialisation, and every pool keeps its marks. -/
structure TrackedState.Kept (buffer capacity : Nat) (s : TrackedState) : Prop where
  buffer_eq : s.arena.buffer = buffer
  capacity_eq : s.arena.capacity = capacity
  pools : ∀ t ∈ s.pools, t.pool.Kept buffer capacity

/-- A call on the arena leaves its buffer. -/
theorem arenaStep_buffer {mem mem' : Memory} {op : ArenaOp} {o : ArenaOut}
    (h : arenaStep arena mem op = .ok (o, arena', mem')) :
    arena'.buffer = arena.buffer ∧ arena'.capacity = arena.capacity := by
  have hsound : (⟨arena, mem, []⟩ : ArenaState).Sound arena.buffer arena.capacity :=
    ⟨rfl, rfl, .nil⟩
  have hlive : arenaLiveStep ⟨arena, mem, []⟩ op =
      .ok (o, ⟨arena', mem', op.track arena.buffer [] o⟩) := by
    rw [arenaLiveStep, h, ok_bind]
  have hkept := arenaLiveStep_sound hsound hlive
  exact ⟨hkept.buffer_eq, hkept.capacity_eq⟩

/-- A reset changes the pool in the number of its objects only. -/
theorem poolReset_spec {pool' : Pool} (h : poolReset pool arena = .ok (pool', arena')) :
    pool' = { pool with used := 0 } ∧ arena'.buffer = arena.buffer ∧
      arena'.capacity = arena.capacity := by
  obtain ⟨rolled, hrolled, h⟩ := bind_eq_ok.mp h
  obtain ⟨⟨granted, region⟩, halloc, h⟩ := bind_eq_ok.mp h
  obtain ⟨⟨⟩, -, h⟩ := bind_eq_ok.mp h
  obtain ⟨rfl, rfl⟩ := Prod.mk.inj (Except.ok.inj h)
  have hback : rolled.buffer = arena.buffer ∧ rolled.capacity = arena.capacity := by
    rw [arenaResetTo] at hrolled
    split_ifs at hrolled with hmark
    obtain rfl := Except.ok.inj hrolled
    exact ⟨rfl, rfl⟩
  obtain ⟨granted', p, halloc', hgrant⟩ :=
    rolled.alloc_grants (Nat.mod_lt (pool.objectSize * pool.capacity) (by decide))
  obtain ⟨rfl, rfl⟩ := Prod.mk.inj (Except.ok.inj (halloc.symm.trans halloc'))
  rcases hgrant with ⟨-, -, hbuffer, hcapacity, -⟩ | ⟨-, -, rfl⟩
  · exact ⟨rfl, hbuffer.trans hback.1, hcapacity.trans hback.2⟩
  · exact ⟨rfl, hback⟩

/-- The arena with its whole buffer handed out. -/
def Arena.filled (arena : Arena) : Arena :=
  { arena with offset := arena.capacity, offset_le := Nat.le_refl _ }

/-- A slot is handed out wherever the offset of the arena is. -/
theorem poolAlloc_spec (h : pool.Kept arena.buffer arena.capacity) {pool' : Pool} {p : Nat}
    (halloc : poolAlloc pool arena = .ok (pool', p)) : pool'.Kept arena.buffer arena.capacity := by
  have hcovered : pool.Covered arena.filled := by
    refine ⟨Nat.le_add_right _ _, ?_⟩
    have hend := h.end_le
    rw [h.reserved.end_eq] at hend
    change arena.buffer + pool.baseMark + pool.objectSize * pool.capacity ≤
      arena.buffer + arena.capacity
    omega
  have hfilled : poolAlloc pool arena = poolAlloc pool arena.filled := rfl
  have hres : pool.Reserved arena.filled.buffer := h.reserved
  rw [hfilled, Pool.alloc_eq hres hcovered] at halloc
  split_ifs at halloc with hfull
  · obtain ⟨rfl, -⟩ := Prod.mk.inj (Except.ok.inj halloc)
    exact ⟨⟨hres.objectSize_pos, hres.capacity_pos, hfull, hres.end_eq, hres.aligned⟩, h.end_le⟩
  · obtain ⟨rfl, -⟩ := Prod.mk.inj (Except.ok.inj halloc)
    exact h

/-- The region of a pool that was initialised lies in the buffer of the arena. -/
theorem poolInit_kept {pool' : Pool} {objectSize maxObjects : Nat}
    (h : poolInit pool arena objectSize maxObjects = .ok (pool', arena', true)) :
    pool'.Kept arena.buffer arena.capacity ∧ arena'.buffer = arena.buffer ∧
      arena'.capacity = arena.capacity := by
  obtain ⟨hres, -, -, -, hbuffer, hcapacity, -, htop⟩ := (Pool.init_spec h).1 rfl
  refine ⟨⟨hres, ?_⟩, hbuffer, hcapacity⟩
  have hle := arena'.offset_le
  have hend : arena'.buffer + arena'.offset =
      arena.buffer + pool'.baseMark + pool'.objectSize * pool'.capacity := htop
  rw [hres.end_eq]
  omega

/-- A rollback leaves the pools as they are. -/
theorem kept_rollback {pools : List TrackedPool}
    (h : ∀ t ∈ pools, t.pool.Kept buffer capacity) (mark : Nat) :
    ∀ t ∈ pools.map (TrackedPool.rollback mark), t.pool.Kept buffer capacity := by
  intro t ht
  obtain ⟨t, hmem, rfl⟩ := List.mem_map.mp ht
  exact h t hmem

/-- Every call keeps the marks of all pools. -/
theorem trackedStep_kept (hs : s.Kept buffer capacity) {op : PoolOp} {o : PoolOut}
    (h : trackedStep s op = .ok (o, s')) : s'.Kept buffer capacity := by
  obtain ⟨hbuffer, hcapacity, hpools⟩ := hs
  cases op with
  | init pool objectSize maxObjects =>
    obtain ⟨⟨pool', arena', ok⟩, hinit, h⟩ := bind_eq_ok.mp h
    obtain ⟨-, rfl⟩ := Prod.mk.inj (Except.ok.inj h)
    cases ok with
    | false =>
      rw [(Pool.init_spec hinit).2 rfl]
      exact ⟨hbuffer, hcapacity, hpools⟩
    | true =>
      obtain ⟨hkept, hbuf, hcap⟩ := poolInit_kept hinit
      rw [hbuffer, hcapacity] at hkept
      exact ⟨hbuf.trans hbuffer, hcap.trans hcapacity, List.forall_mem_cons.mpr ⟨hkept, hpools⟩⟩
  | alloc k =>
    cases hk : s.pools[k]? with
    | none =>
      simp only [trackedStep, hk] at h
      cases h
    | some t =>
      simp only [trackedStep, hk] at h
      obtain ⟨⟨pool, p⟩, halloc, h⟩ := bind_eq_ok.mp h
      obtain ⟨-, rfl⟩ := Prod.mk.inj (Except.ok.inj h)
      refine ⟨hbuffer, hcapacity, fun t' ht' => ?_⟩
      rcases List.mem_or_eq_of_mem_set ht' with ht' | rfl
      · exact hpools t' ht'
      · have hkept := hpools t (List.mem_of_getElem? hk)
        rw [← hbuffer, ← hcapacity] at hkept ⊢
        exact poolAlloc_spec hkept halloc
  | reset k =>
    cases hk : s.pools[k]? with
    | none =>
      simp only [trackedStep, hk] at h
      cases h
    | some t =>
      simp only [trackedStep, hk] at h
      obtain ⟨⟨pool, arena⟩, hreset, h⟩ := bind_eq_ok.mp h
      obtain ⟨-, rfl⟩ := Prod.mk.inj (Except.ok.inj h)
      obtain ⟨rfl, hbuf, hcap⟩ := poolReset_spec hreset
      refine ⟨hbuf.trans hbuffer, hcap.trans hcapacity, fun t' ht' => ?_⟩
      rcases List.mem_or_eq_of_mem_set ht' with ht' | rfl
      · exact kept_rollback hpools _ t' ht'
      · obtain ⟨hres, hend⟩ := hpools t (List.mem_of_getElem? hk)
        exact ⟨⟨hres.objectSize_pos, hres.capacity_pos, Nat.zero_le _, hres.end_eq, hres.aligned⟩,
          hend⟩
  | arena op =>
    obtain ⟨⟨out, arena', mem⟩, hstep, h⟩ := bind_eq_ok.mp h
    obtain ⟨-, rfl⟩ := Prod.mk.inj (Except.ok.inj h)
    obtain ⟨hbuf, hcap⟩ := arenaStep_buffer hstep
    refine ⟨hbuf.trans hbuffer, hcap.trans hcapacity, ?_⟩
    cases op with
    | resetTo m => exact kept_rollback hpools m
    | reset => exact kept_rollback hpools 0
    | _ => exact hpools

/-- In every state a run reaches, an access to any pool answers the slot of every index below the
number of objects, and NULL from there on, whether or not the region was rolled back. So no slot
of a pool whose region was rolled back is returned exactly when it has no objects. -/
theorem poolGet_rolled_back {hobj : buffer + capacity ≤ usizeMax}
    (hinit : arenaInit buffer capacity hobj = .ok arena) (mem : Memory) {ops : List PoolOp}
    {os : List PoolOut} (hrun : run trackedStep ⟨arena, mem, []⟩ ops = .ok (os, s)) :
    (∀ t ∈ s.pools, t.rolledBack = true →
      ((∀ i p, poolGet (some t.pool) (some s.arena) i = .ok p ∨
        poolGetConst (some t.pool) (some s.arena) i = .ok p → p = 0) ↔ t.pool.used = 0)) ∧
    ∀ t ∈ s.pools, ∀ i, ∃ p, poolGet (some t.pool) (some s.arena) i = .ok p ∧
      poolGetConst (some t.pool) (some s.arena) i = .ok p ∧ (p ≠ 0 ↔ i < t.pool.used) := by
  obtain ⟨hbuffer, hcapacity, -, hmax⟩ := arenaInit_spec hinit
  have hkept : (⟨arena, mem, []⟩ : TrackedState).Kept buffer capacity :=
    ⟨hbuffer, hcapacity, fun t ht => absurd ht List.not_mem_nil⟩
  have hs := run_invariant (fun t op o t' ht h => trackedStep_kept ht h) hkept hrun
  have hcap : s.arena.capacity ≤ arenaMaxSize := by
    rwa [hs.capacity_eq]
  have hget : ∀ t ∈ s.pools, ∀ i, ∃ p, poolGet (some t.pool) (some s.arena) i = .ok p ∧
      poolGetConst (some t.pool) (some s.arena) i = .ok p ∧ (p ≠ 0 ↔ i < t.pool.used) := by
    intro t ht i
    have hpool := hs.pools t ht
    rw [← hs.buffer_eq, ← hs.capacity_eq] at hpool
    refine ⟨_, poolGet_eq hpool hcap i, poolGetConst_eq hpool hcap i, ?_⟩
    have hpos := s.arena.buffer_pos
    split_ifs with hi
    · exact iff_of_true (by omega) hi
    · exact iff_of_false (fun h => h rfl) hi
  refine ⟨fun t ht _ => ⟨fun hnull => ?_, fun hempty i p hp => ?_⟩, hget⟩
  · obtain ⟨p, hp, -, hused⟩ := hget t ht 0
    by_contra hne
    exact hused.mpr (Nat.pos_of_ne_zero hne) (hnull 0 p (Or.inl hp))
  · obtain ⟨q, hq, hq', hused⟩ := hget t ht i
    by_contra hne
    rcases hp with hp | hp
    · obtain rfl := Except.ok.inj (hq.symm.trans hp)
      exact absurd (hused.mp hne) (by omega)
    · obtain rfl := Except.ok.inj (hq'.symm.trans hp)
      exact absurd (hused.mp hne) (by omega)

/-- Two objects of a pool that is rolled back with its arena. -/
theorem poolGet_rolled_back_two : ∃ (arena : Arena) (os : List PoolOut) (s : TrackedState),
    arenaInit 4096 64 (by decide) = .ok arena ∧
      run trackedStep ⟨arena, fun _ => 0, []⟩ [.init ⟨0, 0, 0, 0, 0⟩ 16 4, .alloc 0, .alloc 0,
        .arena .reset] = .ok (os, s) ∧
      ∀ t ∈ s.pools, ∀ i, ∃ p, poolGet (some t.pool) (some s.arena) i = .ok p ∧
        poolGetConst (some t.pool) (some s.arena) i = .ok p ∧ (p ≠ 0 ↔ i < t.pool.used) := by
  obtain ⟨arena, os, s, hinit, hrun⟩ : ∃ arena os s,
      arenaInit 4096 64 (by decide) = .ok arena ∧
      run trackedStep ⟨arena, fun _ => 0, []⟩ [.init ⟨0, 0, 0, 0, 0⟩ 16 4, .alloc 0, .alloc 0,
        .arena .reset] = .ok (os, s) := ⟨_, _, _, rfl, rfl⟩
  exact ⟨arena, os, s, hinit, hrun, (poolGet_rolled_back hinit _ hrun).2⟩

/-- After a reset of the arena the first slot of the pool is returned, although the arena has handed
it out again. -/
theorem poolGet_after_reset :
    ∃ (arena : Arena) (os : List PoolOut) (s : TrackedState) (pool : Pool),
      arenaInit 4096 64 (by decide) = .ok arena ∧
      run trackedStep ⟨arena, fun _ => 0, []⟩ [.init ⟨0, 0, 0, 0, 0⟩ 16 4, .alloc 0,
        .arena .reset, .arena (.alloc 16)] = .ok (os, s) ∧
      s.pools = [⟨pool, true⟩] ∧ os.getLast? = some (.arena (.ptr 4096)) ∧
      poolGet (some pool) (some s.arena) 0 = .ok 4096 ∧
      poolGetConst (some pool) (some s.arena) 0 = .ok 4096 :=
  ⟨_, _, _, _, rfl, rfl, rfl, rfl, rfl, rfl⟩

end CanonC
