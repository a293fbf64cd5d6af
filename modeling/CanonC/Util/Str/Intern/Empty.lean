import CanonC.Core.Arena.Regions
import CanonC.Toolkit.Run
import CanonC.Util.Str.Intern.Model

/-!
# The view of the empty string

Initialisation interns the empty string and ignores whether that has succeeded. The copy
takes one byte of the arena behind the table. Where there is one, the first slot its
search looks at keeps the entry for good; where there is none, initialisation still
reports success and the empty string has no view.
-/

namespace CanonC

open Toolkit

namespace InternPool

variable {pool pool' : InternPool} {str : CString} {v w : StrView}

/-- What no event changes: the table, and the slots that are occupied. -/
structure Extends (pool pool' : InternPool) : Prop where
  /-- The table is the same object. -/
  table_eq : pool'.table = pool.table
  /-- The table has the same slots. -/
  capacity_eq : pool'.capacity = pool.capacity
  /-- An occupied slot keeps its view. -/
  keeps : ∀ i, (pool.entries i).ptr ≠ 0 → pool'.entries i = pool.entries i

/-- A pool extends itself. -/
theorem Extends.refl (pool : InternPool) : pool.Extends pool := ⟨rfl, rfl, fun _ _ => rfl⟩

/-- An extension of an extension. -/
theorem Extends.trans {pool'' : InternPool} (h : pool.Extends pool') (h' : pool'.Extends pool'') :
    pool.Extends pool'' where
  table_eq := h'.table_eq.trans h.table_eq
  capacity_eq := h'.capacity_eq.trans h.capacity_eq
  keeps i hi := by
    have hkept := h.keeps i hi
    rw [← hkept] at hi
    exact (h'.keeps i hi).trans hkept

/-- An insertion fills a slot that was empty. -/
theorem internInsert_extends {index : Nat} (hempty : (pool.entries index).ptr = 0)
    (h : internInsert pool str index = .ok (w, pool')) : pool.Extends pool' := by
  unfold internInsert at h
  split at h
  · cases h
    exact .refl pool
  · obtain ⟨⟨arena, p⟩, -, h⟩ := bind_eq_ok.mp h
    by_cases hp : p = 0
    · simp only [if_pos hp] at h
      cases h
      exact ⟨rfl, rfl, fun _ _ => rfl⟩
    · simp only [if_neg hp] at h
      cases h
      refine ⟨rfl, rfl, fun i hi => Function.update_of_ne ?_ _ _⟩
      rintro rfl
      exact hi hempty

/-- A search extends the pool by one entry at most. -/
theorem internLoop_extends {probes index : Nat}
    (h : internLoop pool str probes index = .ok (w, pool')) : pool.Extends pool' := by
  induction probes generalizing index with
  | zero =>
    cases h
    exact .refl pool
  | succ probes ih =>
    unfold internLoop at h
    split at h
    · simp only at h
      split at h
      · exact internInsert_extends ‹_› h
      · split at h
        · cases h
          exact .refl pool
        · exact ih h
    · cases h

/-- Interning a string extends the pool. -/
theorem internString_extends {s : Option CString} (h : internString pool s = .ok (w, pool')) :
    pool.Extends pool' := by
  unfold internString at h
  split at h
  · cases h
  · exact internLoop_extends h

/-- No event changes the table or an occupied slot. -/
theorem internStep_extends {op : InternOp} {out : Option StrView}
    (h : internStep pool op = .ok (out, pool')) : pool.Extends pool' := by
  cases op with
  | intern s =>
    obtain ⟨⟨view, next⟩, hs, h⟩ := bind_eq_ok.mp h
    cases h
    exact internString_extends hs
  | allocate size contents =>
    obtain ⟨⟨arena, p⟩, -, h⟩ := bind_eq_ok.mp h
    cases h
    exact ⟨rfl, rfl, fun _ _ => rfl⟩

/-- The first slot that the search for the empty string looks at. -/
def emptyHome (pool : InternPool) : Nat := (internHash CString.empty.bytes).toNat % pool.capacity

/-- The first slot that the search for the empty string looks at holds its view. -/
structure HoldsEmpty (pool : InternPool) (v : StrView) : Prop where
  /-- The table is allocated. -/
  table_pos : pool.table ≠ 0
  /-- There is a slot. -/
  capacity_pos : 0 < pool.capacity
  /-- The slot lies in the memory of the table. -/
  inside : pool.emptyHome < pool.tableSlots
  /-- The slot holds the view. -/
  entry : pool.entries pool.emptyHome = v
  /-- The view is not null. -/
  ptr_pos : v.ptr ≠ 0
  /-- The view is empty. -/
  len_eq : v.len = 0

/-- A pool that holds the empty string holds it in every extension. -/
theorem HoldsEmpty.extends (h : pool.HoldsEmpty v) (hext : pool.Extends pool') :
    pool'.HoldsEmpty v := by
  have hhome : pool'.emptyHome = pool.emptyHome := by rw [emptyHome, hext.capacity_eq, emptyHome]
  refine ⟨?_, ?_, ?_, ?_, h.ptr_pos, h.len_eq⟩
  · rw [hext.table_eq]
    exact h.table_pos
  · rw [hext.capacity_eq]
    exact h.capacity_pos
  · rw [hhome, tableSlots, hext.capacity_eq]
    exact h.inside
  · have hptr : (pool.entries pool.emptyHome).ptr ≠ 0 := by
      rw [h.entry]
      exact h.ptr_pos
    rw [hhome, hext.keeps _ hptr, h.entry]

/-- A search for the empty string that does not fault looks first at a slot of the table. -/
theorem internString_empty (htable : pool.table ≠ 0) (hpos : 0 < pool.capacity)
    {s : Option CString} (hs : s.getD .empty = .empty) :
    ∃ probes, internString pool s = if pool.emptyHome < pool.tableSlots then
      if (pool.entries pool.emptyHome).ptr = 0 then internInsert pool .empty pool.emptyHome
      else if (pool.entries pool.emptyHome).len = strLen .empty ∧
          memCompare (Cells.read pool.mem (pool.entries pool.emptyHome).ptr (strLen .empty))
            CString.empty.bytes = 0 then
        .ok (pool.entries pool.emptyHome, pool)
      else internLoop pool .empty probes (usizeAdd pool.emptyHome 1 % pool.capacity)
    else .error outOfBounds := by
  obtain ⟨probes, hprobes⟩ := Nat.exists_eq_succ_of_ne_zero hpos.ne'
  refine ⟨probes, ?_⟩
  rw [internString, if_neg htable, hs]
  simp only
  rw [hprobes, internLoop, ← hprobes]
  rfl

/-- The search for the empty string ends at its first slot. -/
theorem HoldsEmpty.intern (h : pool.HoldsEmpty v) {s : Option CString}
    (hs : s.getD .empty = .empty) : internString pool s = .ok (v, pool) := by
  have hmatch : v.len = strLen .empty ∧
      memCompare (Cells.read pool.mem v.ptr (strLen .empty)) CString.empty.bytes = 0 :=
    ⟨h.len_eq, rfl⟩
  obtain ⟨probes, hfirst⟩ := internString_empty h.table_pos h.capacity_pos hs
  rw [hfirst, if_pos h.inside, h.entry, if_neg h.ptr_pos, if_pos hmatch]

variable {arena : Arena} {mem : Memory} {capacity : Nat}

/-- The pool whose table initialisation has just cleared. -/
def fresh (arena : Arena) (mem : Memory) (table capacity : Nat) : InternPool :=
  ⟨arena, mem, table, fun _ => strViewNull, capacity, 0⟩

/-- What a successful initialisation has done: it obtained and cleared a table and called
`intern_string` for the empty string. -/
theorem internPoolInit_eq_some (h : internPoolInit arena mem capacity = .ok (some pool)) :
    0 < capacity ∧ ∃ arena' p w, p ≠ 0 ∧
      arenaAlloc arena (usizeMul capacity sizeofStrView) = .ok (arena', p) ∧
      arena.Grants (usizeMul capacity sizeofStrView) defaultAlign arena' p ∧
      internString (fresh arena' (memSet mem p 0 (usizeMul capacity sizeofStrView)) p capacity)
        (some .empty) = .ok (w, pool) := by
  obtain ⟨_, hpos, h⟩ := bind_eq_ok.mp h
  obtain ⟨arena', p, hok, hgrants⟩ := arena.alloc_grants
    (show usizeMul capacity sizeofStrView < usizeSize from Nat.mod_lt _ (by decide))
  rw [hok, ok_bind] at h
  by_cases hp : p = 0
  · simp only [if_pos hp] at h
    cases h
  · simp only [if_neg hp] at h
    obtain ⟨⟨w, pool'⟩, hintern, h⟩ := bind_eq_ok.mp h
    cases h
    exact ⟨of_decide_eq_true (requireMsg_eq_ok.mp hpos), arena', p, w, hp, hok, hgrants, hintern⟩

/-- Interning the empty string into a cleared table enters it into the first slot looked at,
or fails for lack of a byte and leaves the table cleared. -/
theorem internString_fresh {table : Nat} (htable : table ≠ 0) (hpos : 0 < capacity)
    (h : internString (fresh arena mem table capacity) (some .empty) = .ok (w, pool)) :
    (arena.Fits 1 defaultAlign ∧ pool.HoldsEmpty w) ∨
      (¬ arena.Fits 1 defaultAlign ∧ w = strViewNull ∧
        internString pool (some .empty) = .ok (strViewNull, pool)) := by
  have htable' : (fresh arena mem table capacity).table ≠ 0 := htable
  obtain ⟨probes, hfirst⟩ := internString_empty htable' hpos (s := some .empty) rfl
  have hfresh := h
  rw [hfirst] at h
  split at h
  · rename_i hinside
    have hempty : ∀ i, ((fresh arena mem table capacity).entries i).ptr = 0 := fun _ => rfl
    have hnotFull : ¬ (fresh arena mem table capacity).count ≥
        (fresh arena mem table capacity).capacity := Nat.not_le.mpr hpos
    obtain ⟨arena', p, hok, hgrants⟩ := arena.alloc_grants (show 1 < usizeSize by decide)
    have hfits : p ≠ 0 ↔ arena.Fits 1 defaultAlign :=
      hgrants.ne_zero_iff.trans (and_iff_right Nat.one_pos)
    have hone : arenaAlloc (fresh arena mem table capacity).arena
        (usizeAdd (strLen .empty) 1) = .ok (arena', p) := hok
    rw [if_pos (hempty _), internInsert, if_neg hnotFull, hone, ok_bind] at h
    by_cases hp : p = 0
    · subst hp
      obtain rfl := hgrants.eq_of_null
      simp only at h
      cases h
      exact .inr ⟨mt hfits.mpr (not_not.mpr rfl), rfl, hfresh⟩
    · simp only [if_neg hp] at h
      cases h
      refine .inl ⟨hfits.mp hp, htable, hpos, hinside, ?_, hp, rfl⟩
      exact Function.update_self ..
  · cases h

/-- Behind a table of this many slots the arena has a byte left. -/
def EmptyFits (arena : Arena) (capacity : Nat) : Prop :=
  arena.offset + padding arena.top defaultAlign + usizeMul capacity sizeofStrView < arena.capacity

/-- The copy of the empty string takes the byte behind the table. -/
theorem fits_one_iff {arena' : Arena} {p : Nat} (hp : p ≠ 0)
    (h : arena.Grants (usizeMul capacity sizeofStrView) defaultAlign arena' p) :
    arena'.Fits 1 defaultAlign ↔ EmptyFits arena capacity := by
  have hdvd : defaultAlign ∣ p := h.dvd (by decide)
  have hbytes : defaultAlign ∣ usizeMul capacity sizeofStrView := by
    rw [usizeMul, Nat.dvd_mod_iff (by decide)]
    exact Nat.dvd_mul_left _ _
  rcases h with ⟨-, rfl, hbuffer, hcap, htop⟩ | ⟨-, hnull, -⟩
  · have hpad : padding arena'.top defaultAlign = 0 := by
      rw [padding, htop, Nat.mod_eq_zero_of_dvd (Nat.dvd_add hdvd hbytes)]
      rfl
    rw [Arena.Fits, hpad, EmptyFits, hcap]
    unfold Arena.top at htop ⊢
    omega
  · exact absurd hnull hp

/-- In every later state the empty string and NULL have one view that is not null. -/
def KeepsEmpty (pool₀ : InternPool) : Prop :=
  ∃ v : StrView, v.ptr ≠ 0 ∧ ∀ ops outs pool, run internStep pool₀ ops = .ok (outs, pool) →
    internString pool (some .empty) = .ok (v, pool) ∧ internString pool none = .ok (v, pool)

/-- A slot that holds the view of the empty string keeps it along every run. -/
theorem HoldsEmpty.keepsEmpty (h : pool.HoldsEmpty v) : pool.KeepsEmpty := by
  refine ⟨v, h.ptr_pos, fun ops outs pool' hrun => ?_⟩
  have hext : pool.Extends pool' :=
    run_invariant (fun _ _ _ _ hext hstep => hext.trans (internStep_extends hstep)) (.refl pool)
      hrun
  exact ⟨(h.extends hext).intern rfl, (h.extends hext).intern rfl⟩

end InternPool

open InternPool

/-- After an initialisation that reports success the empty string and NULL have one view
that is not null in every later state exactly when the arena had a byte left behind the
table, whatever is interned or allocated from the arena in between. -/
theorem intern_empty_iff {arena : Arena} {mem : Memory} {capacity : Nat} {pool₀ : InternPool}
    (hinit : internPoolInit arena mem capacity = .ok (some pool₀)) :
    pool₀.KeepsEmpty ↔ EmptyFits arena capacity := by
  obtain ⟨hpos, arena', p, w, hp, -, hgrants, hintern⟩ := internPoolInit_eq_some hinit
  rw [← fits_one_iff hp hgrants]
  rcases internString_fresh hp hpos hintern with ⟨hfits, hholds⟩ | ⟨hfull, -, hnull⟩
  · exact iff_of_true hholds.keepsEmpty hfits
  · refine iff_of_false ?_ hfull
    rintro ⟨v, hv, hlater⟩
    have hfirst := (hlater [] [] pool₀ rfl).1
    rw [hnull] at hfirst
    cases hfirst
    exact hv rfl

/-- An arena of seventeen bytes, one more than a table of one slot takes. -/
theorem intern_empty_iff_byte : ∃ pool₀ : InternPool,
    internPoolInit ⟨4096, 17, 0, 0, by decide, by decide, by decide⟩ (fun _ => 9) 1 =
      .ok (some pool₀) ∧ pool₀.KeepsEmpty := by
  have hinit : ∃ pool₀ : InternPool,
      internPoolInit ⟨4096, 17, 0, 0, by decide, by decide, by decide⟩ (fun _ => 9) 1 =
        .ok (some pool₀) := ⟨_, rfl⟩
  obtain ⟨pool₀, hinit⟩ := hinit
  exact ⟨pool₀, hinit, (intern_empty_iff hinit).mpr (show 16 < 17 by decide)⟩

/-- An arena of sixteen bytes, all taken by a table of one slot: initialisation reports
success, and neither the empty string nor NULL has a view. -/
theorem intern_empty_lost : ∃ pool₀ : InternPool,
    internPoolInit ⟨4096, 16, 0, 0, by decide, by decide, by decide⟩ (fun _ => 9) 1 =
      .ok (some pool₀) ∧
    internString pool₀ (some .empty) = .ok (strViewNull, pool₀) ∧
    internString pool₀ none = .ok (strViewNull, pool₀) ∧ ¬ pool₀.KeepsEmpty := by
  refine ⟨_, rfl, rfl, rfl, ?_⟩
  rintro ⟨v, hv, hlater⟩
  have hnull : v = strViewNull := by
    have hfirst := (hlater [] [] _ rfl).1
    exact (Prod.mk.inj (Except.ok.inj hfirst)).1.symm
  exact hv (congrArg StrView.ptr hnull)

end CanonC
