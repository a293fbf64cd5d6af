import CanonC.Core.Pool.Slots

/-!
# A pool that could not be initialised

The fields of a pool are stored before its region is requested. The size was compared with
the bytes left without the padding, so the request can still be refused, and then the pool
keeps what was stored.
-/

namespace CanonC

/-- The pool structure with its pointer to the arena. -/
structure PoolObject extends Pool where
  /-- Address of the arena. -/
  arena : Nat

/-- An arena at an address. -/
structure ArenaObject where
  addr : Nat
  /-- The arena there. -/
  value : Arena

/-- `pool_init` of a pool structure with any content and an arena, either of them absent for
NULL. -/
def poolObjectInit (pool : Option PoolObject) (arena : Option ArenaObject)
    (objectSize maxObjects : Nat) : Except String (PoolObject × ArenaObject × Bool) :=
  match pool, arena with
  | none, _ => .error "pool_init: pool cannot be NULL"
  | _, none => .error "pool_init: arena cannot be NULL"
  | some pool, some arena => do
    requireMsg (0 < objectSize) "pool_init: object_size must be > 0"
    requireMsg (0 < maxObjects) "pool_init: max_objects must be > 0"
    let alignedSize ← memAlign objectSize
    if alignedSize = usizeMax then .ok (pool, arena, false)
    else
      match checkedMul alignedSize maxObjects with
      | none => .ok (pool, arena, false)
      | some needed =>
        if needed > arenaRemaining arena.value then .ok (pool, arena, false)
        else do
          let pool := { pool with arena := arena.addr }
          let pool := { pool with objectSize := alignedSize }
          let pool := { pool with capacity := maxObjects }
          let pool := { pool with used := 0 }
          let (value, region) ← arenaAlloc arena.value needed
          let arena := { arena with value }
          if region = 0 then .ok (pool, arena, false)
          else
            let regionOff := usizeSub region arena.value.buffer
            .ok ({ pool with baseMark := regionOff, endMark := arenaMark arena.value }, arena, true)

variable {pool : PoolObject} {arena : ArenaObject} {objectSize maxObjects : Nat}

/-- The fields besides the pointer are those of the pool over the given arena. -/
theorem poolObjectInit_toPool (pool : PoolObject) (arena : ArenaObject)
    (objectSize maxObjects : Nat) :
    (poolObjectInit (some pool) (some arena) objectSize maxObjects).map (fun result =>
      (result.1.toPool, result.2.1.value, result.2.2)) =
        poolInit pool.toPool arena.value objectSize maxObjects := by
  simp only [poolObjectInit, poolInit]
  cases requireMsg (0 < objectSize) "pool_init: object_size must be > 0" with
  | error e => rfl
  | ok _ =>
    cases requireMsg (0 < maxObjects) "pool_init: max_objects must be > 0" with
    | error e => rfl
    | ok _ =>
      cases memAlign objectSize with
      | error e => rfl
      | ok alignedSize =>
        simp only [ok_bind]
        split
        · rfl
        cases checkedMul alignedSize maxObjects with
        | none => rfl
        | some needed =>
          dsimp only
          split
          · rfl
          cases arenaAlloc arena.value needed with
          | error e => rfl
          | ok result =>
            simp only [ok_bind]
            split <;> rfl

/-- The bytes that the slots of a pool take. -/
def poolBytes (objectSize maxObjects : Nat) : Nat :=
  (objectSize + padding objectSize defaultAlign) * maxObjects

/-- The pool with the fields that are stored before its region is requested. -/
def PoolObject.store (pool : PoolObject) (addr objectSize maxObjects : Nat) : PoolObject :=
  { pool with
    arena := addr
    objectSize := objectSize + padding objectSize defaultAlign
    capacity := maxObjects
    used := 0 }

/-- The size of a slot is rounded up, or it saturates where that takes more bytes than an arena can
have. -/
theorem memAlign_cases (objectSize : Nat) :
    ∃ aligned, memAlign objectSize = .ok aligned ∧
      if aligned = usizeMax then usizeMax < objectSize + padding objectSize defaultAlign
      else aligned = objectSize + padding objectSize defaultAlign := by
  have hmax : usizeMax = 2 ^ 64 - 1 := rfl
  have hdvd : 16 ∣ objectSize + padding objectSize defaultAlign := dvd_add_padding _ (by decide)
  refine ⟨_, memAlign_eq objectSize, ?_⟩
  by_cases hle : objectSize ≤ usizeMax - (defaultAlign - 1)
  · rw [if_pos hle, if_neg (by omega)]
  · have hsixteen : defaultAlign = 16 := rfl
    rw [if_neg hle, if_pos rfl]
    omega

/-- All that an initialisation does: it refuses a size that is larger than the bytes left, it
succeeds when the padding fits as well, and between these it fails with the fields stored. -/
theorem poolObjectInit_cases (pool : PoolObject) (arena : ArenaObject) (hobject : 0 < objectSize)
    (hobjects : 0 < maxObjects) :
    ∃ result, poolObjectInit (some pool) (some arena) objectSize maxObjects = .ok result ∧
      (arenaRemaining arena.value < poolBytes objectSize maxObjects →
        result = (pool, arena, false)) ∧
      (poolBytes objectSize maxObjects ≤ arenaRemaining arena.value →
        if padding arena.value.top defaultAlign + poolBytes objectSize maxObjects ≤
          arenaRemaining arena.value then result.2.2 = true
        else result = (pool.store arena.addr objectSize maxObjects, arena, false)) := by
  have hmax := usizeMax_succ
  have hremaining := arena.value.remaining_eq
  have hcapacity := arena.value.capacity_fits
  have hoffset := arena.value.offset_le
  obtain ⟨aligned, halign, hslot⟩ := memAlign_cases objectSize
  have hwhole : objectSize + padding objectSize defaultAlign ≤ poolBytes objectSize maxObjects :=
    Nat.le_mul_of_pos_right _ hobjects
  simp only [poolObjectInit, hobject, hobjects, decide_true, requireMsg_true, ok_bind, halign]
  by_cases hsaturated : aligned = usizeMax
  · rw [if_pos hsaturated] at hslot ⊢
    exact ⟨_, rfl, fun _ => rfl, fun hle => by omega⟩
  rw [if_neg hsaturated] at hslot ⊢
  have hbytes : aligned * maxObjects = poolBytes objectSize maxObjects := by
    rw [hslot, poolBytes]
  rw [checkedMul_eq, hbytes]
  by_cases hwraps : poolBytes objectSize maxObjects < usizeSize
  · rw [if_pos hwraps]
    dsimp only
    by_cases hlarge : poolBytes objectSize maxObjects > arenaRemaining arena.value
    · rw [if_pos hlarge]
      exact ⟨_, rfl, fun _ => rfl, fun hle => absurd hlarge (Nat.not_lt.mpr hle)⟩
    · rw [if_neg hlarge]
      obtain ⟨value, region, halloc, hgrant⟩ := arena.value.alloc_grants hwraps
      have hbytespos : 0 < poolBytes objectSize maxObjects := by omega
      rw [halloc, ok_bind]
      dsimp only
      have hfits : region ≠ 0 ↔ padding arena.value.top defaultAlign +
          poolBytes objectSize maxObjects ≤ arenaRemaining arena.value := by
        rw [hgrant.ne_zero_iff, Arena.Fits, hremaining]
        omega
      by_cases hnull : region = 0
      · rw [if_pos hnull]
        subst hnull
        refine ⟨_, rfl, fun hlt => absurd hlt hlarge, fun _ => ?_⟩
        rw [if_neg (mt hfits.mpr (not_not.mpr rfl)), hgrant.eq_of_null, hslot]
        rfl
      · rw [if_neg hnull]
        refine ⟨_, rfl, fun hlt => absurd hlt hlarge, fun _ => ?_⟩
        rw [if_pos (hfits.mp hnull)]
  · rw [if_neg hwraps]
    exact ⟨_, rfl, fun _ => rfl, fun hle => by omega⟩

/-- A failure leaves the pool and the arena as they were exactly when the slots alone do not fit,
when they fit with the padding, so that there is no failure, or when the pool has the fields
already. -/
theorem poolObjectInit_failure_unchanged (pool : PoolObject) (arena : ArenaObject)
    (objectSize maxObjects : Nat) (hobject : 0 < objectSize) (hobjects : 0 < maxObjects) :
    ∃ pool' arena' ok,
      poolObjectInit (some pool) (some arena) objectSize maxObjects = .ok (pool', arena', ok) ∧
      ((ok = false → pool' = pool ∧ arena' = arena) ↔
        arenaRemaining arena.value < poolBytes objectSize maxObjects ∨
        padding arena.value.top defaultAlign + poolBytes objectSize maxObjects ≤
          arenaRemaining arena.value ∨
        pool.store arena.addr objectSize maxObjects = pool) := by
  obtain ⟨⟨pool', arena', ok⟩, hrun, hsmall, hlarge⟩ :=
    poolObjectInit_cases pool arena hobject hobjects
  refine ⟨pool', arena', ok, hrun, ?_⟩
  by_cases hlt : arenaRemaining arena.value < poolBytes objectSize maxObjects
  · simp only [Prod.mk.injEq] at hsmall
    obtain ⟨rfl, rfl, -⟩ := hsmall hlt
    exact iff_of_true (fun _ => ⟨rfl, rfl⟩) (Or.inl hlt)
  · have hresult := hlarge (Nat.le_of_not_lt hlt)
    by_cases hfits : padding arena.value.top defaultAlign + poolBytes objectSize maxObjects ≤
        arenaRemaining arena.value
    · rw [if_pos hfits] at hresult
      exact iff_of_true (fun hok => by cases hok.symm.trans hresult) (Or.inr (Or.inl hfits))
    · rw [if_neg hfits] at hresult
      simp only [Prod.mk.injEq] at hresult
      obtain ⟨rfl, rfl, rfl⟩ := hresult
      simp [hlt, hfits]

/-- A pool that an arena is one byte too small for. -/
theorem poolObjectInit_failure_unchanged_small : ∃ arena,
    arenaInit 4096 63 (by decide) = .ok arena ∧
      poolObjectInit (some ⟨⟨0, 0, 0, 0, 0⟩, 0⟩) (some ⟨64, arena⟩) 16 4 =
        .ok (⟨⟨0, 0, 0, 0, 0⟩, 0⟩, ⟨64, arena⟩, false) := by
  obtain ⟨arena, hinit, hsmall, p, a, hrefused⟩ : ∃ arena,
      arenaInit 4096 63 (by decide) = .ok arena ∧ arenaRemaining arena < poolBytes 16 4 ∧
      ∃ p a, poolObjectInit (some ⟨⟨0, 0, 0, 0, 0⟩, 0⟩) (some ⟨64, arena⟩) 16 4 =
        .ok (p, a, false) :=
    ⟨_, rfl, by decide, _, _, rfl⟩
  obtain ⟨pool', arena', ok, hrun, hiff⟩ := poolObjectInit_failure_unchanged ⟨⟨0, 0, 0, 0, 0⟩, 0⟩
    ⟨64, arena⟩ 16 4 (by decide) (by decide)
  obtain ⟨-, -, rfl⟩ : p = pool' ∧ a = arena' ∧ false = ok := by
    simpa using hrefused.symm.trans hrun
  obtain ⟨rfl, rfl⟩ := hiff.mpr (Or.inl hsmall) rfl
  exact ⟨arena, hinit, hrun⟩

/-- On a buffer that is not aligned the same call fails and leaves four of the fields changed. -/
theorem poolObjectInit_failure_stores : ∃ arena pool', arenaInit 4097 64 (by decide) = .ok arena ∧
    poolObjectInit (some ⟨⟨0, 0, 0, 0, 0⟩, 0⟩) (some ⟨64, arena⟩) 16 4 =
      .ok (pool', ⟨64, arena⟩, false) ∧ pool' ≠ ⟨⟨0, 0, 0, 0, 0⟩, 0⟩ := by
  refine ⟨_, ⟨⟨16, 4, 0, 0, 0⟩, 64⟩, rfl, rfl, fun h => ?_⟩
  have hcapacity := congrArg (fun pool : PoolObject => pool.capacity) h
  exact absurd hcapacity (by decide)

end CanonC
