import CanonC.Util.Str.Intern.Empty
import CanonC.Util.Str.Intern.Table

/-!
# Interned views are equal exactly when their strings are

Along every run each view returned stays the view of its string, so that pointers stand
for strings, and the pool counts the strings it has interned.
-/

namespace CanonC

open Toolkit

namespace InternPool

variable {pool pool' : InternPool}

/-- A table without entries. -/
theorem good_fresh {arena : Arena} {mem : Memory} {table capacity : Nat} (htable : table ≠ 0)
    (hpos : 0 < capacity) (hlt : capacity < usizeSize)
    (hle : table + capacity * sizeofStrView ≤ arena.top) :
    Good ⟨arena, mem, table, fun _ => strViewNull, capacity, 0⟩ ∧
      strings ⟨arena, mem, table, fun _ => strViewNull, capacity, 0⟩ = ∅ := by
  have hempty : strings ⟨arena, mem, table, fun _ => strViewNull, capacity, 0⟩ = ∅ := by
    rw [Finset.eq_empty_iff_forall_notMem]
    intro t ht
    obtain ⟨i, -, hslot⟩ := Probing.mem_keys.mp ht
    exact (slot_eq_some.mp hslot).1 rfl
  refine ⟨⟨htable, hpos, hlt, .empty fun i _ => slot_eq_none.mpr rfl, ?_, hle,
    fun i _ hptr => absurd rfl hptr, fun i _ hptr => absurd rfl hptr,
    fun i _ j _ hptr => absurd rfl hptr⟩, hempty⟩
  rw [hempty, Finset.card_empty]

/-- An initialised pool is good, and holds the empty string if there was memory for it. -/
theorem good_of_init {arena : Arena} {mem : Memory} {capacity : Nat}
    (hreal : capacity * sizeofStrView < usizeSize)
    (h : internPoolInit arena mem capacity = .ok (some pool)) :
    pool.Good ∧ pool.strings = if pool.count = 0 then ∅ else {[]} := by
  obtain ⟨hpos, arena', p, w, hp, -, hgrants, hintern⟩ := internPoolInit_eq_some h
  have hlt : capacity < usizeSize := by
    unfold sizeofStrView at hreal
    omega
  rw [usizeMul_of_lt hreal] at hgrants hintern
  have htop : arena'.top = p + capacity * sizeofStrView := by
    rcases hgrants with ⟨-, -, -, -, htop⟩ | ⟨-, hnull, -⟩
    · exact htop
    · exact absurd hnull hp
  obtain ⟨hgood, hempty⟩ := @good_fresh arena' (memSet mem p 0 (capacity * sizeofStrView)) p
    capacity hp hpos hlt htop.ge
  rcases internString_spec hgood (some .empty) with hnull | ⟨v, pool', hv, hin⟩
  · obtain ⟨-, rfl⟩ := Prod.mk.inj (Except.ok.inj (hnull.symm.trans hintern))
    exact ⟨hgood, hempty⟩
  · obtain ⟨-, rfl⟩ := Prod.mk.inj (Except.ok.inj (hv.symm.trans hintern))
    have hstrings : pool'.strings = {[]} := by
      rw [hin.strings_eq, hempty]
      rfl
    refine ⟨hin.good, ?_⟩
    rw [hin.good.count_eq, hstrings]
    rfl

/-- A call that returns the null view leaves the pool as it was. -/
theorem Good.eq_of_null (hgood : pool.Good) {s : Option CString} {v : StrView}
    (h : internString pool s = .ok (v, pool')) (hv : v.ptr = 0) : pool' = pool := by
  rcases internString_spec hgood s with hnull | ⟨w, pool'', hw, hin⟩
  · exact (Prod.mk.inj (Except.ok.inj (h.symm.trans hnull))).2
  · obtain ⟨rfl, -⟩ := Prod.mk.inj (Except.ok.inj (h.symm.trans hw))
    exact absurd hv hin.known.text_eq.1

/-- The strings for which a run of calls returned a view. -/
def internedIn (calls : List (Option CString × StrView)) : Finset (List UInt8) :=
  ((calls.filter fun c => c.2.ptr ≠ 0).map fun c => (c.1.getD .empty).bytes).toFinset

/-- A call that returns a view interns its string. -/
theorem internedIn_cons (s : Option CString) (v : StrView)
    (calls : List (Option CString × StrView)) :
    internedIn ((s, v) :: calls) =
      if v.ptr = 0 then internedIn calls
      else insert (s.getD .empty).bytes (internedIn calls) := by
  by_cases hv : v.ptr = 0
  · simp [internedIn, hv]
  · simp [internedIn, hv]

/-- A run keeps the invariant and what is known, every string is known under the view
returned for it, and the strings of the run are those added. -/
theorem run_interned {calls : List (Option CString)} {views : List StrView} (hgood : pool.Good)
    (hrun : run internString pool calls = .ok (views, pool')) :
    pool'.Good ∧ (∀ t v, pool.Known t v → pool'.Known t v) ∧
      (∀ c ∈ calls.zip views, c.2.ptr ≠ 0 → pool'.Known (c.1.getD .empty).bytes c.2) ∧
      pool'.strings = pool.strings ∪ internedIn (calls.zip views) := by
  induction calls generalizing pool views with
  | nil =>
    obtain ⟨rfl, rfl⟩ := Prod.mk.inj (Except.ok.inj hrun)
    refine ⟨hgood, fun _ _ h => h, (fun c hc => nomatch hc), ?_⟩
    simp [internedIn]
  | cons s calls ih =>
    obtain ⟨v, next, views, hstep, hrest, rfl⟩ := run_cons_eq_ok.mp hrun
    rw [List.zip_cons_cons, internedIn_cons]
    by_cases hv : v.ptr = 0
    · obtain rfl := hgood.eq_of_null hstep hv
      obtain ⟨hgood', hkeeps, hknown, hstrings⟩ := ih hgood hrest
      refine ⟨hgood', hkeeps, fun c hc hptr => ?_, by rw [if_pos hv, hstrings]⟩
      rcases List.mem_cons.mp hc with rfl | hc
      · exact absurd hv hptr
      · exact hknown c hc hptr
    · rcases internString_spec hgood s with hnull | ⟨w, pool'', hw, hin⟩
      · obtain ⟨rfl, -⟩ := Prod.mk.inj (Except.ok.inj (hstep.symm.trans hnull))
        exact absurd rfl hv
      · obtain ⟨rfl, rfl⟩ := Prod.mk.inj (Except.ok.inj (hstep.symm.trans hw))
        obtain ⟨hgood', hkeeps, hknown, hstrings⟩ := ih hin.good hrest
        refine ⟨hgood', fun t w h => hkeeps t w (hin.keeps t w h), fun c hc hptr => ?_, ?_⟩
        · rcases List.mem_cons.mp hc with rfl | hc
          · exact hkeeps _ _ hin.known
          · exact hknown c hc hptr
        · rw [if_neg hv, hstrings, hin.strings_eq, Finset.insert_union, Finset.union_insert]

/-- The occupied slots are as many as the strings in the table. -/
theorem Good.count_eq_occupied (hgood : pool.Good) : pool.count =
    ((Finset.range pool.capacity).filter fun i => (pool.entries i).ptr ≠ 0).card := by
  rw [hgood.count_eq, strings, hgood.placed.card_keys]
  congr 1
  apply Finset.filter_congr
  intro i _
  exact not_congr slot_eq_none

end InternPool

open InternPool

/-- Along every run of `intern_string` from an initialised pool with a real table: views
are equal exactly when their strings are, each still shows its string and is returned
for it again, the count is that of the occupied slots and of the strings interned, and a
null view changes nothing. No call aborts. -/
theorem intern_pool_refines {arena : Arena} {mem : Memory} {capacity : Nat}
    {pool₀ pool : InternPool} (hreal : capacity * sizeofStrView < usizeSize)
    (hinit : internPoolInit arena mem capacity = .ok (some pool₀))
    {calls : List (Option CString)} {views : List StrView}
    (hrun : run internString pool₀ calls = .ok (views, pool)) :
    (∀ c ∈ calls.zip views, ∀ d ∈ calls.zip views, c.2.ptr ≠ 0 → d.2.ptr ≠ 0 →
      (internEquals c.2 d.2 = true ↔ (c.1.getD .empty).bytes = (d.1.getD .empty).bytes)) ∧
    (∀ c ∈ calls.zip views, c.2.ptr ≠ 0 → c.2.text pool.mem = (c.1.getD .empty).bytes) ∧
    internCount pool =
      ((Finset.range pool.capacity).filter fun i => (pool.entries i).ptr ≠ 0).card ∧
    internCount pool = ((if pool₀.count = 0 then ∅ else {[]}) ∪ internedIn (calls.zip views)).card ∧
    (∀ c ∈ calls.zip views, c.2.ptr ≠ 0 → ∀ s : Option CString,
      (s.getD .empty).bytes = (c.1.getD .empty).bytes → internString pool s = .ok (c.2, pool)) ∧
    ∀ s, ∃ v pool', internString pool s = .ok (v, pool') ∧ (v.ptr = 0 → pool' = pool) := by
  obtain ⟨hgood₀, hstrings₀⟩ := good_of_init hreal hinit
  obtain ⟨hgood, -, hknown, hstrings⟩ := run_interned hgood₀ hrun
  refine ⟨fun c hc d hd hcptr hdptr => ?_, fun c hc hptr => (hknown c hc hptr).text_eq.2,
    hgood.count_eq_occupied, ?_, fun c hc hptr s hs => ?_, fun s => ?_⟩
  · rw [internEquals, beq_iff_eq]
    exact hgood.ptr_eq_iff (hknown c hc hcptr) (hknown d hd hdptr)
  · rw [internCount, hgood.count_eq, hstrings, hstrings₀]
  · apply internString_known hgood
    rw [hs]
    exact hknown c hc hptr
  · rcases internString_spec hgood s with hnull | ⟨v, pool', hv, hin⟩
    · exact ⟨_, _, hnull, fun _ => rfl⟩
    · exact ⟨v, pool', hv, fun hptr => absurd hptr hin.known.text_eq.1⟩

/-- A pool of two slots, one of them taken by the empty string: a second string gets the
other slot, a third finds the table full, and the second keeps its view. -/
theorem intern_pool_refines_full : ∃ (pool₀ pool : InternPool) (views : List StrView),
    internPoolInit ⟨4096, 256, 0, 0, by decide, by decide, by decide⟩ (fun _ => 9) 2 =
      .ok (some pool₀) ∧
    run internString pool₀ [some ⟨[65], by simp, by decide⟩, some ⟨[66], by simp, by decide⟩,
      some ⟨[65], by simp, by decide⟩] = .ok (views, pool) ∧
    views = [⟨4144, 1⟩, strViewNull, ⟨4144, 1⟩] ∧ internCount pool = 2 ∧
    StrView.text ⟨4144, 1⟩ pool.mem = [65] := by
  obtain ⟨pool₀, pool, views, hinit, hrun, hviews, hcount⟩ : ∃ pool₀ pool views,
      internPoolInit ⟨4096, 256, 0, 0, by decide, by decide, by decide⟩ (fun _ => 9) 2 =
        .ok (some pool₀) ∧
      run internString pool₀ [some ⟨[65], by simp, by decide⟩,
        some ⟨[66], by simp, by decide⟩, some ⟨[65], by simp, by decide⟩] = .ok (views, pool) ∧
      views = [⟨4144, 1⟩, strViewNull, ⟨4144, 1⟩] ∧ internCount pool = 2 :=
    ⟨_, _, _, rfl, rfl, rfl, rfl⟩
  refine ⟨pool₀, pool, views, hinit, hrun, hviews, hcount, ?_⟩
  have htext := (intern_pool_refines (by decide) hinit hrun).2.1
  rw [hviews] at htext
  exact htext _ (List.mem_cons_self ..) (by decide)

end CanonC
