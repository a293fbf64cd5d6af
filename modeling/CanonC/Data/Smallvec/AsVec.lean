import CanonC.Data.Smallvec.Refinement
import CanonC.Data.Vec.Model

/-!
# The vector over the buffer of an inline-first vector

The view hands the active buffer to `vec_init`, which has a size limit of its own and answers
a larger capacity with the empty vector, and sets the length after that.
-/

namespace CanonC

open Toolkit

variable {α : Type} {size inlineCap : Nat} {mem : TypedMemory α} {v : Smallvec} {xs : List α}

/-- `smallvec_as_vec`: the slots of the vector it makes are those of the active buffer. -/
def smallvecAsVec (size : Nat) (mem : TypedMemory α) (v : Smallvec) : Except String (Vec α) := do
  let buffer := (smallvecBuf v).bind fun d => (mem.objects d).map (·.cells)
  let w ← vecInit "vec_init" buffer v.cap size
  .ok { w with len := v.len }

/-- The invariant of a vector. -/
structure Vec.WellFormed (size : Nat) (w : Vec α) : Prop where
  /-- The elements have slots. -/
  len_le : w.len ≤ w.capacity
  /-- Where there are slots there is a buffer. -/
  items_isSome : 0 < w.capacity → w.items.isSome = true
  /-- The buffer is within the limit of a vector. -/
  capacity_le : w.capacity ≤ vecMaxCapacity / size

/-- The view of a capacity within the limit has the active buffer, and that of a larger one has
nothing but the length. -/
theorem smallvecAsVec_eq (h : v.Holds size inlineCap mem xs) :
    ∃ cells, Cells.read cells 0 v.len = xs ∧ smallvecAsVec size mem v =
      .ok (if v.cap ≤ vecMaxCapacity / size then ⟨some cells, v.len, v.cap⟩
        else ⟨none, v.len, 0⟩) := by
  obtain ⟨d, hd, hbuffer⟩ := h.exists_buf
  obtain ⟨a, ha, -, hread⟩ := hbuffer.object d rfl
  refine ⟨a.cells, h.len_eq ▸ hread, ?_⟩
  simp only [smallvecAsVec, hd, Option.bind_some, ha, Option.map_some, vecInit,
    Option.isSome_some, true_or, decide_true, requireMsg_true, ok_bind]
  by_cases hle : v.cap ≤ vecMaxCapacity / size
  · rw [if_neg (Nat.not_lt.mpr hle), if_pos hle]
    rfl
  · rw [if_pos (Nat.lt_of_not_le hle), if_neg hle]
    rfl

/-- The view of a vector is well formed and has its elements exactly when the capacity is
within the limit or there are none. -/
theorem smallvecAsVec_wellFormed_iff (h : v.Holds size inlineCap mem xs) :
    ∃ w, smallvecAsVec size mem v = .ok w ∧
      (w.WellFormed size ∧ w.elements = xs ↔ v.cap ≤ vecMaxCapacity / size ∨ v.len = 0) := by
  obtain ⟨cells, hread, hcall⟩ := smallvecAsVec_eq h
  refine ⟨_, hcall, ?_⟩
  by_cases hle : v.cap ≤ vecMaxCapacity / size
  · rw [if_pos hle]
    exact iff_of_true ⟨⟨h.len_eq ▸ h.len_le, fun _ => rfl, hle⟩, hread⟩ (Or.inl hle)
  · rw [if_neg hle]
    constructor
    · exact fun hw => Or.inr (Nat.le_zero.mp hw.1.len_le)
    · rintro (hle' | hzero)
      · exact absurd hle' hle
      · have hxs : xs = [] := List.length_eq_zero_iff.mp (h.len_eq.symm.trans hzero)
        exact ⟨⟨Nat.le_of_eq hzero, fun hpos => absurd hpos (Nat.lt_irrefl 0), Nat.zero_le _⟩,
          hxs.symm⟩

/-- In every state that a program reaches, the view of a vector is a well-formed vector of its
elements exactly when the capacity is within the limit of a vector or there are no elements. -/
theorem smallvecAsVec_iff {s : SmallvecState α} {ops : List (SmallvecOp α)}
    {os : List (SmallvecOut α)} (hsize : 0 < size) (hcap : 0 < inlineCap)
    (hrun : run (smallvecStep size inlineCap) ⟨mem, []⟩ ops = .ok (os, s)) :
    ∀ v ∈ s.vecs, ∃ w, smallvecAsVec size s.mem v = .ok w ∧
      (w.WellFormed size ∧ w.elements = v.elements s.mem ↔
        v.cap ≤ vecMaxCapacity / size ∨ v.len = 0) := by
  intro v hv
  obtain ⟨k, hk⟩ := List.mem_iff_getElem?.mp hv
  exact smallvecAsVec_wellFormed_iff ((smallvec_good_of_run hsize hcap hrun).holds k v hk)

/-- A spilled vector of four elements and the view of it. -/
theorem smallvecAsVec_iff_spilled : ∃ (os : List (SmallvecOut Nat)) (s : SmallvecState Nat),
    run (smallvecStep 4 2) ⟨Store.empty _ _, []⟩ [.new false ⟨1000, fun _ => 0⟩,
      .on 0 (.push 5 none), .on 0 (.push 6 none),
      .on 0 (.push 7 (some ⟨3000, fun _ => 9⟩))] = .ok (os, s) ∧
    ∃ v ∈ s.vecs, v.usingInline = false ∧ ∃ w, smallvecAsVec 4 s.mem v = .ok w ∧
      w.WellFormed 4 ∧ w.elements = [5, 6, 7] := by
  obtain ⟨os, s, hrun, v, hv, hout, hcap, helements⟩ :
      ∃ (os : List (SmallvecOut Nat)) (s : SmallvecState Nat),
      run (smallvecStep 4 2) ⟨Store.empty _ _, []⟩ [.new false ⟨1000, fun _ => 0⟩,
        .on 0 (.push 5 none), .on 0 (.push 6 none),
        .on 0 (.push 7 (some ⟨3000, fun _ => 9⟩))] = .ok (os, s) ∧
      ∃ v ∈ s.vecs, v.usingInline = false ∧ v.cap = 4 ∧ v.elements s.mem = [5, 6, 7] :=
    ⟨_, _, rfl, _, List.mem_singleton.mpr rfl, rfl, rfl, rfl⟩
  obtain ⟨w, hcall, hiff⟩ := smallvecAsVec_iff (show 0 < 4 by decide) (show 0 < 2 by decide)
    hrun v hv
  obtain ⟨hwf, hw⟩ := hiff.mpr (Or.inl (hcap.symm ▸ by decide))
  exact ⟨os, s, hrun, v, hv, hout, w, hcall, hwf, hw.trans helements⟩

/-- An extension by one byte more than a gibibyte. -/
private def gibibyte : SmallvecCall Nat :=
  .extend (some ⟨0, 0⟩) ⟨2 ^ 30 + 1, by decide⟩ (some ⟨2 ^ 31, fun _ => 0⟩)

/-- A vector of bytes that one extension by more than a gibibyte has spilled: its view has
elements but no slots for them. -/
theorem smallvecAsVec_beyond : ∃ (ops : List (SmallvecOp Nat)) (os : List (SmallvecOut Nat))
    (s : SmallvecState Nat), run (smallvecStep 1 8) ⟨Store.empty _ _, []⟩ ops = .ok (os, s) ∧
    ∃ v ∈ s.vecs, v.len = 2 ^ 30 + 1 ∧ ∃ w, smallvecAsVec 1 s.mem v = .ok w ∧ w.items = none ∧
      w.capacity = 0 ∧ w.len = 2 ^ 30 + 1 ∧ ¬w.WellFormed 1 := by
  obtain ⟨os, s, hrun, v, hvecs, hempty, hinline, hroom, hallows, hsource⟩ :
      ∃ (os : List (SmallvecOut Nat)) (s : SmallvecState Nat),
      run (smallvecStep 1 8) ⟨Store.empty _ _, []⟩
        [.other (.malloc (2 ^ 30 + 1) (some ⟨1000, fun _ => 0⟩)), .new false ⟨500, fun _ => 0⟩] =
          .ok (os, s) ∧
      ∃ v, s.vecs = [v] ∧ v.elements s.mem = [] ∧ v.cap = 8 ∧
        Smallvec.CanHold 1 8 s.mem v (0 + (2 ^ 30 + 1)) (some ⟨2 ^ 31, fun _ => 0⟩) ∧
        s.allows 1 8 (.on 0 gibibyte) = true ∧
        (gibibyte.source 1 s.mem) = Cells.read (fun _ => 0) 0 (2 ^ 30 + 1) := by
    refine ⟨_, _, rfl, _, rfl, rfl, rfl, Or.inr ⟨rfl, ?_⟩, ?_, ?_⟩
    · rfl
    · rfl
    · rfl
  have hgood := smallvec_good_of_run (by decide) (by decide) hrun
  obtain ⟨o, s', hstep, houtcome⟩ :=
    smallvecStep_outcome hgood (by decide) (by decide) (.on 0 gibibyte) hallows
  obtain ⟨u, v', hu, hvecs', hcall⟩ := houtcome.call 0 gibibyte rfl
  rw [hvecs] at hu
  obtain rfl : v = u := Option.some.inj hu
  rw [hvecs] at hvecs'
  have hok : o.ok = true := hcall.ok_iff.mpr ⟨rfl, hempty.symm ▸ hroom⟩
  -- The extension has spilled to a capacity beyond the limit of a vector.
  have hcap : v'.cap = 2 ^ 30 + 1 := by
    obtain ⟨-, -, hcap⟩ := hcall.spills hok (by rw [hempty, hinline]; decide)
    rw [hcap, hempty]
    rfl
  have helements : v'.elements s'.mem = Cells.read (fun _ => 0) 0 (2 ^ 30 + 1) := by
    have hdone := congrArg Prod.snd (hcall.done hok)
    rw [hempty, hsource] at hdone
    exact hdone.trans (List.nil_append _)
  have hlen : v'.len = 2 ^ 30 + 1 := by
    have hread := congrArg List.length helements
    rw [Cells.length_read] at hread
    exact hcall.holds.len_eq.trans hread
  obtain ⟨cells, -, hview⟩ := smallvecAsVec_eq hcall.holds
  have hlimit : ¬v'.cap ≤ vecMaxCapacity / 1 := by
    rw [hcap]
    decide
  rw [if_neg hlimit, hlen] at hview
  have hone : run (smallvecStep 1 8) s [.on 0 gibibyte] = .ok ([o], s') :=
    run_cons_eq_ok.mpr ⟨o, s', [], hstep, rfl, rfl⟩
  have hmem : v' ∈ s'.vecs := hvecs'.symm ▸ List.mem_singleton.mpr rfl
  refine ⟨_, _, s', run_append hrun hone, v', hmem, hlen, ⟨none, 2 ^ 30 + 1, 0⟩, hview, rfl, rfl,
    rfl, fun hwf => ?_⟩
  exact absurd hwf.len_le (Nat.not_succ_le_zero _)

end CanonC
