import CanonC.Core.Pool.Model
import Mathlib.Data.List.Pairwise

/-!
# The slots of the pools of an arena

The region of a pool is one of the blocks that the arena has handed out, and its start is
aligned. So the slots of all pools are disjoint from each other and from the other blocks,
and the region that a reset reserves needs no padding and is the one given up.
-/

namespace CanonC

open Toolkit

variable {buffer capacity : Nat} {arena arena' : Arena} {pool pool' : Pool} {s s' : PoolState}

/-- What a pool keeps of its region in a buffer. -/
structure Pool.Reserved (buffer : Nat) (pool : Pool) : Prop where
  /-- A slot has bytes. -/
  objectSize_pos : 0 < pool.objectSize
  /-- There are slots. -/
  capacity_pos : 0 < pool.capacity
  /-- No more slots are handed out than there are. -/
  used_le : pool.used ≤ pool.capacity
  /-- The marks enclose the slots. -/
  end_eq : pool.endMark = pool.baseMark + pool.objectSize * pool.capacity
  /-- The first slot is aligned. -/
  aligned : defaultAlign ∣ buffer + pool.baseMark

/-- The blocks in use are stacked in the buffer, and the regions of the pools are among them. -/
structure PoolState.Sound (buffer capacity : Nat) (s : PoolState) : Prop where
  /-- The blocks in use are stacked. -/
  arena : s.arena.Sound buffer capacity
  /-- The regions are blocks in use, the newest first. -/
  regions : (s.pools.map (Pool.region buffer)).Sublist s.arena.live
  /-- Every pool keeps its region. -/
  reserved : ∀ pool ∈ s.pools, pool.Reserved buffer

namespace Pool

/-- All that `pool_init` does: it refuses and leaves the arena as it was, or the arena grants the
slots and the pool gets the marks of the block. -/
theorem init_cases {objectSize maxObjects : Nat} {ok : Bool}
    (h : poolInit pool arena objectSize maxObjects = .ok (pool', arena', ok)) :
    (ok = false ∧ arena' = arena) ∨
    (ok = true ∧ 0 < objectSize ∧ 0 < maxObjects ∧ ∃ aligned region, objectSize ≤ aligned ∧
      region ≠ 0 ∧ arena.Grants (aligned * maxObjects) defaultAlign arena' region ∧
      pool' = ⟨aligned, maxObjects, 0, usizeSub region arena'.buffer, arenaMark arena'⟩) := by
  obtain ⟨⟨⟩, hobject, h⟩ := bind_eq_ok.mp h
  obtain ⟨⟨⟩, hobjects, h⟩ := bind_eq_ok.mp h
  rw [requireMsg_eq_ok, decide_eq_true_iff] at hobject hobjects
  obtain ⟨aligned, halign, h⟩ := bind_eq_ok.mp h
  have hrefused (h : Except.ok (pool, arena, false) = (.ok (pool', arena', ok) : Except String _)) :
      ok = false ∧ arena' = arena := by
    simp only [Except.ok.injEq, Prod.mk.injEq] at h
    exact ⟨h.2.2.symm, h.2.1.symm⟩
  split at h
  · exact Or.inl (hrefused h)
  rename_i hover
  split at h
  · exact Or.inl (hrefused h)
  rename_i needed hmul
  split at h
  · exact Or.inl (hrefused h)
  obtain ⟨hlt, rfl⟩ := checkedMul_eq_some.mp hmul
  obtain ⟨granted, region, halloc, hgrant⟩ := arena.alloc_grants hlt
  rw [halloc, ok_bind] at h
  dsimp only at h
  split at h
  · rename_i hnull
    simp only [Except.ok.injEq, Prod.mk.injEq] at h
    rw [hnull] at hgrant
    exact Or.inl ⟨h.2.2.symm, h.2.1.symm.trans hgrant.eq_of_null⟩
  · rename_i hregion
    simp only [Except.ok.injEq, Prod.mk.injEq] at h
    obtain ⟨rfl, rfl, rfl⟩ := h
    exact Or.inr ⟨rfl, hobject, hobjects, aligned, region, le_of_memAlign halign hover,
      hregion, hgrant, rfl⟩

/-- A successful `pool_init` has reserved the region behind everything the arena has handed out, and
another leaves the arena as it was. -/
theorem init_spec {objectSize maxObjects : Nat} {ok : Bool}
    (h : poolInit pool arena objectSize maxObjects = .ok (pool', arena', ok)) :
    (ok = true → pool'.Reserved arena.buffer ∧ pool'.capacity = maxObjects ∧
      objectSize ≤ pool'.objectSize ∧ pool'.used = 0 ∧ arena'.buffer = arena.buffer ∧
      arena'.capacity = arena.capacity ∧ arena.top ≤ (pool'.region arena.buffer).start ∧
      arena'.top = (pool'.region arena.buffer).stop) ∧
    (ok = false → arena' = arena) := by
  rcases init_cases h with ⟨rfl, rfl⟩ |
    ⟨rfl, hobject, hobjects, aligned, region, haligned, hregion, hgrant, rfl⟩
  · exact ⟨fun h => absurd h Bool.false_ne_true, fun _ => rfl⟩
  · have hdvd := hgrant.dvd (by decide)
    rcases hgrant with ⟨-, hp, hbuf, hcap, htop⟩ | ⟨-, hp, -⟩
    · have hmax := usizeMax_succ
      have hle := arena'.top_le
      have hlow : arena.buffer ≤ region := by
        rw [hp, Arena.top, Nat.add_assoc]
        exact Nat.le_add_right _ _
      have hbase : arena.buffer + usizeSub region arena'.buffer = region := by
        rw [hbuf, usizeSub_of_le hlow (by omega)]
        omega
      have hend : arenaMark arena' = usizeSub region arena'.buffer + aligned * maxObjects := by
        rw [Arena.top, hbuf] at htop
        rw [arenaMark]
        omega
      refine ⟨fun _ => ⟨⟨?_, hobjects, Nat.zero_le _, hend, ?_⟩, rfl, haligned, rfl, hbuf, hcap, ?_,
        ?_⟩, fun h => by cases h⟩
      · exact Nat.lt_of_lt_of_le hobject haligned
      · change defaultAlign ∣ arena.buffer + usizeSub region arena'.buffer
        rwa [hbase]
      · change arena.top ≤ arena.buffer + usizeSub region arena'.buffer
        omega
      · change arena'.top = arena.buffer + usizeSub region arena'.buffer + aligned * maxObjects
        rw [hbase, htop]
    · exact absurd hp hregion

/-- The region lies in the part of the buffer that the arena has handed out. -/
def Covered (arena : Arena) (pool : Pool) : Prop :=
  (pool.region arena.buffer).Within arena.buffer arena.top

/-- A slot that is left is handed out at its address, and a full pool answers NULL. -/
theorem alloc_eq (h : pool.Reserved arena.buffer) (hin : pool.Covered arena) :
    poolAlloc pool arena = .ok (
      if pool.used < pool.capacity then
        ({ pool with used := pool.used + 1 },
          arena.buffer + pool.baseMark + pool.used * pool.objectSize)
      else (pool, 0)) := by
  by_cases hfull : pool.used < pool.capacity
  · have hpos := arena.buffer_pos
    have htop := arena.top_le
    have hstop : arena.buffer + pool.baseMark + pool.objectSize * pool.capacity ≤ arena.top := hin.2
    have hslot : pool.used * pool.objectSize ≤ pool.objectSize * pool.capacity := by
      rw [Nat.mul_comm]
      exact Nat.mul_le_mul_left _ h.used_le
    rw [poolAlloc, if_neg (by omega), if_pos hfull, ptrOffset_of_le hpos (by omega), ok_bind,
      ptrElem_of_le (by omega) h.objectSize_pos (by omega), ok_bind]
  · rw [poolAlloc, if_pos (by omega), if_neg hfull]

/-- A reset gives the region back and reserves the same bytes again. -/
theorem reset_eq (h : pool.Reserved arena.buffer) (hin : pool.Covered arena) :
    ∃ rolled arena', arenaResetTo arena pool.baseMark = .ok rolled ∧
      arenaAlloc rolled (pool.objectSize * pool.capacity) =
        .ok (arena', arena.buffer + pool.baseMark) ∧
      poolReset pool arena = .ok ({ pool with used := 0 }, arena') ∧
      arena'.offset = pool.endMark ∧ arena'.buffer = arena.buffer ∧
      arena'.capacity = arena.capacity := by
  have hmax := usizeMax_succ
  have hpos := arena.buffer_pos
  have htop := arena.top_le
  have hoffset := arena.offset_le
  have hstop : arena.buffer + pool.baseMark + pool.objectSize * pool.capacity ≤ arena.top := hin.2
  have hbytes : 0 < pool.objectSize * pool.capacity := Nat.mul_pos h.objectSize_pos h.capacity_pos
  have hend := h.end_eq
  have hmark : pool.baseMark ≤ arena.offset := by
    unfold Arena.top at hstop
    omega
  obtain ⟨rolled, hrolled, hbuf, hcap, hoff⟩ := arena.resetTo_eq hmark
  have hstart : rolled.top = arena.buffer + pool.baseMark := by rw [Arena.top, hbuf, hoff]
  -- The start of the region is aligned, so the arena needs no padding in front of it.
  have hpad : padding rolled.top defaultAlign = 0 := by
    rw [hstart]
    exact Nat.le_zero.mp (padding_le (by decide) h.aligned)
  have hfits : 0 < pool.objectSize * pool.capacity ∧
      rolled.Fits (pool.objectSize * pool.capacity) defaultAlign := by
    refine ⟨hbytes, ?_⟩
    rw [Arena.Fits, hpad, hoff, hcap]
    unfold Arena.top at hstop
    omega
  obtain ⟨arena', p, halloc, hgrant⟩ := rolled.alloc_grants
    (show pool.objectSize * pool.capacity < usizeSize by omega)
  rcases hgrant with ⟨-, hp, hbuf', hcap', htop'⟩ | ⟨hno, -⟩
  · rw [hpad, Nat.add_zero, hstart] at hp
    subst hp
    have hne : arena.buffer + pool.baseMark ≠ 0 := by omega
    refine ⟨rolled, arena', hrolled, halloc, ?_, ?_, hbuf'.trans hbuf, hcap'.trans hcap⟩
    · simp only [poolReset, hrolled, ok_bind, usizeMul_of_lt
        (show pool.objectSize * pool.capacity < usizeSize by omega), halloc, hne, ne_eq,
        not_false_eq_true, decide_true, requireMsg_true]
    · rw [Arena.top, hbuf', hbuf] at htop'
      omega
  · exact absurd hfits hno

end Pool

private theorem set_eq_self {α : Type*} {xs : List α} {k : Nat} {x : α} (h : xs[k]? = some x) :
    xs.set k x = xs := by
  obtain ⟨hk, rfl⟩ := List.getElem?_eq_some_iff.mp h
  exact List.set_getElem_self hk

namespace PoolState.Sound

/-- The region of a pool in use lies in the part of the buffer that is handed out. -/
theorem covered (hs : s.Sound buffer capacity) (hpool : pool ∈ s.pools) :
    pool.Covered s.arena.arena := by
  have hmem := hs.regions.subset (List.mem_map_of_mem hpool)
  rw [Pool.Covered, hs.arena.buffer_eq]
  exact hs.arena.stacked.within _ hmem

/-- Every pool of a sound state has its region. -/
theorem reserved_of_mem (hs : s.Sound buffer capacity) (hpool : pool ∈ s.pools) :
    pool.Reserved s.arena.arena.buffer := by
  rw [hs.arena.buffer_eq]
  exact hs.reserved pool hpool

/-- `pool_init` keeps the regions stacked. -/
theorem init (hs : s.Sound buffer capacity) {objectSize maxObjects : Usize} {o : PoolOut}
    (h : poolStep s (.init pool objectSize maxObjects) = .ok (o, s')) :
    s'.Sound buffer capacity := by
  obtain ⟨⟨pool', arena', ok⟩, hinit, h⟩ := bind_eq_ok.mp h
  obtain ⟨htrue, hfalse⟩ := Pool.init_spec hinit
  have hbuf := hs.arena.buffer_eq
  cases ok with
  | false =>
    obtain ⟨-, rfl⟩ := Prod.mk.inj (Except.ok.inj h)
    rw [hfalse rfl]
    exact hs
  | true =>
    obtain ⟨-, rfl⟩ := Prod.mk.inj (Except.ok.inj h)
    obtain ⟨hres, -, -, -, hbuf', hcap', hlow, htop⟩ := htrue rfl
    rw [hbuf] at hres hlow htop hbuf'
    refine ⟨⟨hbuf', hcap'.trans hs.arena.capacity_eq, ?_⟩, ?_, ?_⟩
    · change Block.Stacked buffer arena'.top (pool'.region arena'.buffer :: s.arena.live)
      rw [hbuf', htop]
      apply hs.arena.stacked.push _ hlow
      rw [← hbuf]
      exact Nat.le_add_right _ _
    · change (pool'.region buffer :: s.pools.map (Pool.region buffer)).Sublist
        (pool'.region arena'.buffer :: s.arena.live)
      rw [hbuf']
      exact hs.regions.cons_cons _
    · intro p hp
      rcases List.mem_cons.mp hp with rfl | hp
      · exact hres
      · exact hs.reserved p hp

/-- `pool_alloc` keeps the regions. -/
theorem alloc (hs : s.Sound buffer capacity) {k : Nat} {o : PoolOut}
    (h : poolStep s (.alloc k) = .ok (o, s')) : s'.Sound buffer capacity := by
  cases hk : s.pools[k]? with
  | none =>
    simp only [poolStep, hk] at h
    cases h
  | some pool =>
    have hpool := List.mem_of_getElem? hk
    have hres := hs.reserved pool hpool
    simp only [poolStep, hk, Pool.alloc_eq (hs.reserved_of_mem hpool) (hs.covered hpool), ok_bind]
      at h
    by_cases hfull : pool.used < pool.capacity
    · rw [if_pos hfull] at h
      obtain ⟨-, rfl⟩ := Prod.mk.inj (Except.ok.inj h)
      refine ⟨hs.arena, ?_, fun p hp => ?_⟩
      · have hregion : (s.pools.map (Pool.region buffer))[k]? = some (pool.region buffer) := by
          rw [List.getElem?_map, hk, Option.map_some]
        rw [List.map_set]
        change ((s.pools.map (Pool.region buffer)).set k (pool.region buffer)).Sublist s.arena.live
        rw [set_eq_self hregion]
        exact hs.regions
      · rcases List.mem_or_eq_of_mem_set hp with hp | rfl
        · exact hs.reserved p hp
        · exact ⟨hres.objectSize_pos, hres.capacity_pos, hfull, hres.end_eq, hres.aligned⟩
    · rw [if_neg hfull] at h
      obtain ⟨-, rfl⟩ := Prod.mk.inj (Except.ok.inj h)
      rw [set_eq_self hk]
      exact hs

/-- `pool_reset` keeps the regions of the pool and of the older ones. -/
theorem reset (hs : s.Sound buffer capacity) {k : Nat} {o : PoolOut}
    (h : poolStep s (.reset k) = .ok (o, s')) : s'.Sound buffer capacity := by
  cases hk : s.pools[k]? with
  | none =>
    simp only [poolStep, hk] at h
    cases h
  | some pool =>
    have hpool := List.mem_of_getElem? hk
    have hres := hs.reserved pool hpool
    have hbuf := hs.arena.buffer_eq
    obtain ⟨rolled, arena', -, -, hreset, hoff, hbuf', hcap'⟩ :=
      Pool.reset_eq (hs.reserved_of_mem hpool) (hs.covered hpool)
    simp only [poolStep, hk, hreset, ok_bind] at h
    obtain ⟨-, rfl⟩ := Prod.mk.inj (Except.ok.inj h)
    rw [hbuf] at hbuf'
    refine ⟨⟨hbuf', hcap'.trans hs.arena.capacity_eq, ?_⟩, ?_, ?_⟩
    · have htop : arena'.top = (pool.region buffer).stop := by
        rw [Arena.top, hbuf', hoff, hres.end_eq, ← Nat.add_assoc]
        rfl
      have hback := hs.arena.stacked.rollback (buffer + pool.baseMark)
      rw [htop, hbuf', hbuf]
      exact hback.push (b := pool.region buffer) (Nat.le_add_right _ _) (Nat.le_refl _)
    · have hdrop : s.pools.drop k = pool :: s.pools.drop (k + 1) := by
        obtain ⟨hlt, hget⟩ := List.getElem?_eq_some_iff.mp hk
        rw [List.drop_eq_getElem_cons hlt, hget]
      have hsub : ((pool :: s.pools.drop (k + 1)).map (Pool.region buffer)).Sublist
          s.arena.live := by
        rw [← hdrop]
        exact ((List.drop_sublist k s.pools).map _).trans hs.regions
      -- The regions of the older pools end below the start of this one.
      have hbelow : ∀ b ∈ (s.pools.drop (k + 1)).map (Pool.region buffer),
          b.stop ≤ (pool.region buffer).start :=
        (List.pairwise_cons.mp (hs.arena.stacked.ordered.sublist hsub)).1
      have hkept : ((s.pools.drop (k + 1)).map (Pool.region buffer)).filter
          (fun b => decide (b.stop ≤ buffer + pool.baseMark)) =
          (s.pools.drop (k + 1)).map (Pool.region buffer) :=
        List.filter_eq_self.mpr fun b hb => decide_eq_true (hbelow b hb)
      rw [hbuf', hbuf, List.map_cons, ← hkept]
      exact (((List.sublist_cons_self _ _).trans hsub).filter _).cons_cons _
    · intro p hp
      rcases List.mem_cons.mp hp with rfl | hp
      · exact ⟨hres.objectSize_pos, hres.capacity_pos, Nat.zero_le _, hres.end_eq, hres.aligned⟩
      · exact hs.reserved p (List.mem_of_mem_drop hp)

/-- A call on the arena keeps the regions of the pools that stay in use. -/
theorem call (hs : s.Sound buffer capacity) {op : ArenaOp} {o : PoolOut}
    (h : poolStep s (.arena op) = .ok (o, s')) : s'.Sound buffer capacity := by
  obtain ⟨⟨answer, arena'⟩, hstep, h⟩ := bind_eq_ok.mp h
  obtain ⟨-, rfl⟩ := Prod.mk.inj (Except.ok.inj h)
  have hsound := arenaLiveStep_sound hs.arena hstep
  have hlive := arenaLiveStep_live hstep
  by_cases hto : ∃ m, op = .resetTo m
  · obtain ⟨m, rfl⟩ := hto
    have hkept : (ArenaOp.keepPools s.pools (.resetTo m)).map (Pool.region buffer) =
        (s.pools.map (Pool.region buffer)).filter fun b => b.stop ≤ buffer + m := by
      rw [List.filter_map]
      congr 1
      apply List.filter_congr
      intro p _
      change decide (p.baseMark + p.objectSize * p.capacity ≤ m.val) =
        decide (buffer + p.baseMark + p.objectSize * p.capacity ≤ buffer + m.val)
      rw [decide_eq_decide]
      omega
    refine ⟨hsound, ?_, fun p hp => hs.reserved p (List.mem_filter.mp hp).1⟩
    have hdone : answer = .done := by
      obtain ⟨⟨o', arena, mem⟩, hstep, hok⟩ := bind_eq_ok.mp hstep
      obtain ⟨rolled, -, hok'⟩ := bind_eq_ok.mp hstep
      simp only [Except.ok.injEq, Prod.mk.injEq] at hok hok'
      rw [← hok.1, ← hok'.1]
    subst hdone
    rw [hkept, hlive, hs.arena.buffer_eq]
    exact hs.regions.filter _
  by_cases hreset : op = .reset
  · subst hreset
    exact ⟨hsound, List.nil_sublist _, fun p hp => absurd hp (List.not_mem_nil)⟩
  · have hsub := ArenaOp.sublist_track (fun m h => hto ⟨m, h⟩) hreset s.arena.arena.buffer
      s.arena.live answer
    have hkeep : op.keepPools s.pools = s.pools := by
      cases op with
      | resetTo m => exact absurd ⟨m, rfl⟩ hto
      | reset => exact absurd rfl hreset
      | alloc size => rfl
      | allocAligned size alignment => rfl
      | allocZero size => rfl
      | allocAlignedZero size alignment => rfl
      | mark => rfl
    rw [← hlive] at hsub
    rw [hkeep]
    exact ⟨hsound, hs.regions.trans hsub, hs.reserved⟩

end PoolState.Sound

/-- Every call keeps the regions of the pools stacked among the blocks in use. -/
theorem poolStep_sound (hs : s.Sound buffer capacity) {op : PoolOp} {o : PoolOut}
    (h : poolStep s op = .ok (o, s')) : s'.Sound buffer capacity := by
  cases op with
  | init pool objectSize maxObjects => exact hs.init h
  | alloc k => exact hs.alloc h
  | reset k => exact hs.reset h
  | arena op => exact hs.call h

/-- The slots of all pools in use. -/
def PoolState.slots (s : PoolState) : List Block :=
  s.pools.flatMap (Pool.slots s.arena.arena.buffer)

/-- The blocks in use that are no pool's region. -/
def PoolState.others (s : PoolState) : List Block :=
  s.arena.live.filter fun b => b ∉ s.pools.map (Pool.region s.arena.arena.buffer)

namespace PoolState.Sound

/-- The slots of the pools do not overlap. -/
theorem slots_disjoint (hs : s.Sound buffer capacity) : s.slots.Pairwise Block.Disjoint := by
  rw [PoolState.slots, hs.arena.buffer_eq, List.pairwise_flatMap]
  refine ⟨fun pool _ => Block.array_disjoint _ _ _, ?_⟩
  have hregions := hs.arena.stacked.disjoint.sublist hs.regions
  rw [List.pairwise_map] at hregions
  apply hregions.imp
  intro p q hpq a ha b hb
  exact hpq.of_within (Block.array_within ha) (Block.array_within hb)

private theorem slot_within {slot : Block} (hs : s.Sound buffer capacity) (h : slot ∈ s.slots) :
    ∃ pool ∈ s.pools, slot.Within (pool.region buffer).start (pool.region buffer).stop := by
  rw [PoolState.slots, hs.arena.buffer_eq] at h
  obtain ⟨pool, hpool, hslot⟩ := List.mem_flatMap.mp h
  exact ⟨pool, hpool, Block.array_within hslot⟩

/-- The slots lie in the buffer. -/
theorem slots_within (hs : s.Sound buffer capacity) :
    ∀ slot ∈ s.slots, slot.Within buffer (buffer + capacity) := by
  intro slot hslot
  obtain ⟨pool, hpool, hin⟩ := hs.slot_within hslot
  have hmem := hs.regions.subset (List.mem_map_of_mem hpool)
  obtain ⟨hlow, hhigh⟩ := hin.trans (hs.arena.stacked.within _ hmem)
  have hle := s.arena.arena.offset_le
  rw [Arena.top, hs.arena.buffer_eq] at hhigh
  rw [hs.arena.capacity_eq] at hle
  exact ⟨hlow, by omega⟩

/-- The slots do not overlap the other blocks in use. -/
theorem slots_disjoint_others (hs : s.Sound buffer capacity) :
    ∀ slot ∈ s.slots, ∀ b ∈ s.others, slot.Disjoint b := by
  intro slot hslot b hb
  obtain ⟨pool, hpool, hin⟩ := hs.slot_within hslot
  obtain ⟨hlive, hother⟩ := List.mem_filter.mp hb
  rw [hs.arena.buffer_eq, decide_eq_true_iff] at hother
  have hregion := List.mem_map_of_mem (f := Pool.region buffer) hpool
  have hne : pool.region buffer ≠ b := by
    rintro rfl
    exact hother hregion
  have hapart : (pool.region buffer).Disjoint b :=
    hs.arena.stacked.disjoint.forall (hs.regions.subset hregion) hlive hne
  exact hapart.of_within hin ⟨Nat.le_refl _, Nat.le_refl _⟩

end PoolState.Sound

/-- In every state a run reaches, the slots of all pools in use are disjoint, also from every other
allocation in use, and lie in the buffer; `pool_alloc` answers the next slot, or NULL from a full
pool; and `pool_reset` reserves the region of the pool again. -/
theorem pool_slots_disjoint {hobj : buffer + capacity ≤ usizeMax}
    (hinit : arenaInit buffer capacity hobj = .ok arena) (mem : Memory) {ops : List PoolOp}
    {os : List PoolOut} (hrun : run poolStep ⟨⟨arena, mem, []⟩, []⟩ ops = .ok (os, s)) :
    s.slots.Pairwise Block.Disjoint ∧
    (∀ slot ∈ s.slots, ∀ b ∈ s.others, slot.Disjoint b) ∧
    (∀ slot ∈ s.slots, slot.Within buffer (buffer + capacity)) ∧
    ∀ pool ∈ s.pools,
      poolAlloc pool s.arena.arena = .ok (
        if pool.used < pool.capacity then
          ({ pool with used := pool.used + 1 },
            buffer + pool.baseMark + pool.used * pool.objectSize)
        else (pool, 0)) ∧
      ∃ rolled arena', arenaResetTo s.arena.arena pool.baseMark = .ok rolled ∧
        arenaAlloc rolled (pool.objectSize * pool.capacity) =
          .ok (arena', buffer + pool.baseMark) ∧
        poolReset pool s.arena.arena = .ok ({ pool with used := 0 }, arena') ∧
        arena'.offset = pool.endMark := by
  have hsound : (⟨⟨arena, mem, []⟩, []⟩ : PoolState).Sound buffer capacity :=
    ⟨arenaInit_sound hinit mem, List.nil_sublist _, fun p hp => absurd hp List.not_mem_nil⟩
  have hs := run_invariant (fun t op o t' ht h => poolStep_sound ht h) hsound hrun
  refine ⟨hs.slots_disjoint, hs.slots_disjoint_others, hs.slots_within, fun pool hpool => ?_⟩
  have hres := hs.reserved_of_mem hpool
  have hin := hs.covered hpool
  rw [← hs.arena.buffer_eq]
  refine ⟨Pool.alloc_eq hres hin, ?_⟩
  obtain ⟨rolled, arena', hrolled, halloc, hreset, hoff, -⟩ := Pool.reset_eq hres hin
  exact ⟨rolled, arena', hrolled, halloc, hreset, hoff⟩

/-- Two pools around an allocation on an arena whose buffer is not aligned; the older pool is reset,
which takes the newer one back, and another is initialised. -/
theorem pool_slots_disjoint_two : ∃ (arena : Arena) (os : List PoolOut) (s : PoolState),
    arenaInit 4097 256 (by decide) = .ok arena ∧
      run poolStep ⟨⟨arena, fun _ => 7, []⟩, []⟩ [.init ⟨0, 0, 0, 0, 0⟩ 5 2, .arena (.alloc 3),
        .init ⟨9, 9, 9, 9, 9⟩ 20 3, .alloc 0, .alloc 1, .reset 1, .arena (.alloc 1),
        .init ⟨0, 0, 0, 0, 0⟩ 17 2, .alloc 0, .alloc 1] = .ok (os, s) ∧
      s.slots = [⟨4160, 32⟩, ⟨4192, 32⟩, ⟨4112, 16⟩, ⟨4128, 16⟩] ∧
      s.slots.Pairwise Block.Disjoint := by
  obtain ⟨arena, os, s, hinit, hrun, hslots⟩ : ∃ arena os s,
      arenaInit 4097 256 (by decide) = .ok arena ∧
      run poolStep ⟨⟨arena, fun _ => 7, []⟩, []⟩ [.init ⟨0, 0, 0, 0, 0⟩ 5 2, .arena (.alloc 3),
        .init ⟨9, 9, 9, 9, 9⟩ 20 3, .alloc 0, .alloc 1, .reset 1, .arena (.alloc 1),
        .init ⟨0, 0, 0, 0, 0⟩ 17 2, .alloc 0, .alloc 1] = .ok (os, s) ∧
      s.slots = [⟨4160, 32⟩, ⟨4192, 32⟩, ⟨4112, 16⟩, ⟨4128, 16⟩] := ⟨_, _, _, rfl, rfl, rfl⟩
  exact ⟨arena, os, s, hinit, hrun, hslots, (pool_slots_disjoint hinit _ hrun).1⟩

end CanonC
