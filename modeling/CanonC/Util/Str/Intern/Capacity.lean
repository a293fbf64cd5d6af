import CanonC.Util.Str.Intern.Empty

/-!
# The size of the table

The number of bytes requested for the table is a product modulo `2 ^ 64`, while the search
steps through as many slots as the capacity says. Where the product wraps, an arena has room
for so few slots that the first slot of the empty string lies outside them, so that the
initialisation faults before it can report success.
-/

namespace CanonC

open Toolkit

namespace InternPool

variable {arena : Arena} {mem : Memory} {pool pool' : InternPool} {str : CString} {w : StrView}
  {capacity : Nat}

/-- The memory of the table holds all its slots. -/
structure HoldsTable (pool : InternPool) : Prop where
  /-- The table is allocated. -/
  table_pos : pool.table ≠ 0
  /-- There is a slot. -/
  capacity_pos : 0 < pool.capacity
  /-- The size of the table is a `usize`. -/
  size_lt : pool.capacity * sizeofStrView < usizeSize

/-- A table that was just allocated has its memory. -/
theorem holdsTable_fresh {table : Nat} (htable : table ≠ 0) (hpos : 0 < capacity)
    (hreal : capacity * sizeofStrView < usizeSize) : (fresh arena mem table capacity).HoldsTable :=
  ⟨htable, hpos, hreal⟩

/-- No event takes the memory of the table away. -/
theorem HoldsTable.extends (h : pool.HoldsTable) (hext : pool.Extends pool') :
    pool'.HoldsTable := by
  refine ⟨?_, ?_, ?_⟩
  · rw [hext.table_eq]
    exact h.table_pos
  · rw [hext.capacity_eq]
    exact h.capacity_pos
  · rw [hext.capacity_eq]
    exact h.size_lt

/-- An insertion does not fail. -/
theorem internInsert_ok (pool : InternPool) (str : CString) (index : Nat) :
    ∃ result, internInsert pool str index = .ok result := by
  obtain ⟨arena', p, halloc, -⟩ := pool.arena.alloc_grants
    (show usizeAdd (strLen str) 1 < usizeSize from Nat.mod_lt _ (by decide))
  rw [internInsert]
  split
  · exact ⟨_, rfl⟩
  · rw [halloc, ok_bind]
    dsimp only
    split <;> exact ⟨_, rfl⟩

/-- A search does not leave the memory of such a table. -/
theorem HoldsTable.internLoop_ok (h : pool.HoldsTable) (str : CString) (probes : Nat) {index : Nat}
    (hindex : index < pool.capacity) : ∃ result, internLoop pool str probes index = .ok result := by
  induction probes generalizing index with
  | zero => exact ⟨_, rfl⟩
  | succ probes ih =>
    rw [internLoop, tableSlots_eq h.size_lt, if_pos hindex]
    dsimp only
    split
    · exact internInsert_ok pool str index
    · split
      · exact ⟨_, rfl⟩
      · exact ih (Nat.mod_lt _ h.capacity_pos)

/-- No call leaves the memory of such a table. -/
theorem HoldsTable.internString_ok (h : pool.HoldsTable) (s : Option CString) :
    ∃ v pool', internString pool s = .ok (v, pool') := by
  obtain ⟨⟨v, pool'⟩, hok⟩ := h.internLoop_ok (s.getD .empty) pool.capacity
    (Nat.mod_lt (internHash (s.getD .empty).bytes).toNat h.capacity_pos)
  exact ⟨v, pool', by rw [internString, if_neg h.table_pos, hok]⟩

/-- No event on a pool with such a table fails, and the table keeps its memory. -/
theorem HoldsTable.internStep_ok (h : pool.HoldsTable) (op : InternOp) :
    ∃ out pool', internStep pool op = .ok (out, pool') ∧ pool'.HoldsTable := by
  cases op with
  | intern s =>
    obtain ⟨v, pool', hok⟩ := h.internString_ok s
    exact ⟨some v, pool', by rw [internStep, hok, ok_bind], h.extends (internString_extends hok)⟩
  | allocate size contents =>
    obtain ⟨arena', p, halloc, -⟩ := pool.arena.alloc_grants size.isLt
    let next : InternPool := { pool with
      arena := arena'
      mem := if p = 0 then pool.mem else memCopy pool.mem p (contents.take size) }
    refine ⟨none, next, ?_, h.extends ⟨rfl, rfl, fun _ _ => rfl⟩⟩
    rw [internStep, halloc, ok_bind]

/-- The hash of the empty string is far from a multiple of `2 ^ 60`, and so is its remainder by a
number that lies a little above one. -/
theorem le_internHash_empty_mod {slots : Nat} (hslots : slots < 2 ^ 30)
    (hwraps : 2 ^ 60 ≤ capacity) (hmod : capacity % 2 ^ 60 = slots) :
    slots ≤ (internHash CString.empty.bytes).toNat % capacity := by
  have hhash : (internHash CString.empty.bytes).toNat = 14695981039346656037 := rfl
  rw [hhash]
  by_contra hlt
  let k := 14695981039346656037 / capacity
  have hk : k < 16 := (Nat.div_le_div_left hwraps (by decide)).trans_lt (by decide)
  have hsplit : capacity * k + 14695981039346656037 % capacity = 14695981039346656037 :=
    Nat.div_add_mod _ _
  have hmul : capacity * k % 2 ^ 60 = slots * k := by
    rw [Nat.mul_mod, hmod, Nat.mod_eq_of_lt (a := k) (by omega)]
    exact Nat.mod_eq_of_lt ((Nat.mul_le_mul_left _ hk.le).trans_lt (by omega))
  have hsmall : slots * k ≤ slots * 16 := Nat.mul_le_mul_left _ hk.le
  omega

/-- An initialisation whose table size wraps does not report success: it obtains no memory, or
faults when it looks for the empty string. -/
theorem internPoolInit_wraps (harena : arena.capacity ≤ arenaMaxSize)
    (hcapacity : capacity < usizeSize) (hwraps : usizeSize ≤ capacity * sizeofStrView) :
    internPoolInit arena mem capacity = .ok none ∨
      internPoolInit arena mem capacity = .error outOfBounds := by
  have hpos : 0 < capacity := Nat.pos_of_ne_zero (by rintro rfl; exact absurd hwraps (by decide))
  obtain ⟨arena', p, hok, hgrants⟩ := arena.alloc_grants
    (show usizeMul capacity sizeofStrView < usizeSize from Nat.mod_lt _ (by decide))
  rw [internPoolInit, decide_eq_true hpos, requireMsg_true, ok_bind, hok, ok_bind]
  by_cases hp : p = 0
  · exact .inl (if_pos hp)
  · have hbytes : usizeMul capacity sizeofStrView = capacity % 2 ^ 60 * sizeofStrView :=
      Nat.mul_mod_mul_right sizeofStrView capacity (2 ^ 60)
    have hfits := (hgrants.ne_zero_iff.mp hp).2
    rw [Arena.Fits, hbytes, sizeofStrView] at hfits
    rw [arenaMaxSize] at harena
    obtain ⟨probes, hfirst⟩ := internString_empty (s := some .empty)
      (show (fresh arena' (memSet mem p 0 (usizeMul capacity sizeofStrView)) p capacity).table ≠ 0
        from hp) hpos rfl
    have houtside : ¬ (fresh arena' (memSet mem p 0 (usizeMul capacity sizeofStrView)) p
        capacity).emptyHome < (fresh arena' (memSet mem p 0 (usizeMul capacity sizeofStrView)) p
        capacity).tableSlots := by
      rw [tableSlots, fresh, hbytes, Nat.mul_div_cancel _ (by decide), Nat.not_lt]
      rw [sizeofStrView, usizeSize] at hwraps
      exact le_internHash_empty_mod (by omega) (show 2 ^ 60 ≤ capacity by omega) rfl
    rw [if_neg houtside] at hfirst
    refine .inr ?_
    simp only [if_neg hp]
    rw [fresh] at hfirst
    rw [hfirst, error_bind]

end InternPool

open InternPool

/-- When `intern_pool_init` returns true over an arena within the size limit, the memory it
allocated holds as many entries as the capacity, and no later call leaves it, whatever is interned
and allocated from the arena in between. -/
theorem intern_table_holds_capacity {arena : Arena} {mem : Memory} {capacity : Usize}
    {pool : InternPool} (harena : arena.capacity ≤ arenaMaxSize)
    (hinit : internPoolInit arena mem capacity = .ok (some pool)) :
    (∃ bytes arena', arenaAlloc arena bytes = .ok (arena', pool.table) ∧ pool.table ≠ 0 ∧
      pool.capacity = capacity ∧ capacity * sizeofStrView ≤ bytes) ∧
    ∀ ops : List InternOp, ∃ outs pool', run internStep pool ops = .ok (outs, pool') := by
  have hreal : capacity * sizeofStrView < usizeSize := by
    by_contra hwraps
    obtain hnone | hfault :=
      @internPoolInit_wraps arena mem capacity harena capacity.isLt (Nat.le_of_not_lt hwraps)
    · rw [hinit] at hnone
      cases hnone
    · rw [hinit] at hfault
      cases hfault
  obtain ⟨hpos, arena', p, w, hp, halloc, -, hintern⟩ := internPoolInit_eq_some hinit
  have hext := internString_extends hintern
  have htable : pool.table = p := hext.table_eq
  have hcapacity : pool.capacity = capacity := hext.capacity_eq
  have hholds : pool.HoldsTable := (holdsTable_fresh hp hpos hreal).extends hext
  refine ⟨⟨_, arena', by rwa [htable], by rwa [htable], hcapacity, (usizeMul_of_lt hreal).ge⟩,
    fun ops => ?_⟩
  obtain ⟨outs, pool', hrun, -⟩ := run_total (fun _ op h => h.internStep_ok op) ops hholds
  exact ⟨outs, pool', hrun⟩

/-- A table of two slots. -/
theorem intern_table_holds_capacity_two : ∃ pool : InternPool,
    internPoolInit ⟨4096, 64, 0, 0, by decide, by decide, by decide⟩ (fun _ => 9) (2 : Usize) =
      .ok (some pool) ∧
    ∀ ops : List InternOp, ∃ outs pool', run internStep pool ops = .ok (outs, pool') := by
  obtain ⟨pool, hinit⟩ : ∃ pool : InternPool,
      internPoolInit ⟨4096, 64, 0, 0, by decide, by decide, by decide⟩ (fun _ => 9) (2 : Usize) =
        .ok (some pool) := ⟨_, rfl⟩
  exact ⟨pool, hinit, (intern_table_holds_capacity (by decide) hinit).2⟩

end CanonC
