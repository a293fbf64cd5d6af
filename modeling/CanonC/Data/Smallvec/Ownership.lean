import CanonC.Core.OwnedMemory
import CanonC.Data.Smallvec.Refinement

/-!
# Inline-first vectors own one spilled object each

A program whose vectors spill to the heap has, besides the arrays of its structures, one object
for each spilled vector, and giving all vectors back leaves no more than the arrays. A vector
that is copied while it is inline shares nothing with its copy.
-/

namespace CanonC

open Toolkit

variable {α : Type} {size inlineCap : Nat} {mem mem' : TypedMemory α} {v v' : Smallvec}
  {answer : Option (Grant α)} {ok : Bool}

/-- The objects of a vector: the array in the structure and the one of spilled elements. -/
def Smallvec.owned (v : Smallvec) : List Nat := v.inlineBuf :: v.data.toList

/-- A vector that spills to the heap, and has no heap object before. -/
structure Smallvec.OnHeap (v : Smallvec) : Prop where
  noArena : v.arena = false
  inline : v.usingInline = true → v.data = none

/-- The elements lie in an object of the vector. -/
theorem Smallvec.mem_owned {i : Nat} {p : Pointer} (h : elemAt (smallvecBuf v) i = .ok p) :
    p.object ∈ v.owned := by
  have hbuf := object_of_elemAt h
  unfold smallvecBuf at hbuf
  split at hbuf
  · rw [← Option.some.inj hbuf]
    exact List.mem_cons_self
  · exact List.mem_cons_of_mem _ (Option.mem_toList.mpr hbuf)

/-- The buffer is the structure or the block, and both are owned. -/
theorem Smallvec.buf_subset_owned (v : Smallvec) : (smallvecBuf v).toList ⊆ v.owned := by
  intro i hi
  have hbuf : elemAt (smallvecBuf v) 0 = .ok ⟨i, 0⟩ := by rw [Option.mem_toList.mp hi]; rfl
  exact Smallvec.mem_owned hbuf

/-- What a part of a call leaves of the objects, with a vector that still spills to the heap. -/
def Smallvec.Exchanges (mem mem' : TypedMemory α) (v v' : Smallvec) : Prop :=
  mem.Conserves mem' v.owned v'.owned ∧ v'.OnHeap

/-- Where nothing is done nothing is exchanged. -/
theorem Smallvec.exchanges_refl (mem : TypedMemory α) (h : v.OnHeap) :
    Smallvec.Exchanges mem mem v v :=
  ⟨Store.Conserves.refl _ _, h⟩

/-- The number of elements does not matter. -/
theorem Smallvec.exchanges_len (hcons : mem.Conserves mem' v.owned v.owned) (h : v.OnHeap)
    (len : Nat) : Smallvec.Exchanges mem mem' v { v with len } :=
  ⟨hcons, ⟨h.noArena, h.inline⟩⟩

/-- Two exchanges one after the other. -/
theorem Smallvec.Exchanges.trans {mem'' : TypedMemory α} {v'' : Smallvec}
    (h : Smallvec.Exchanges mem mem' v v') (h' : Smallvec.Exchanges mem' mem'' v' v'') :
    Smallvec.Exchanges mem mem'' v v'' :=
  ⟨h.1.trans h'.1, h'.2⟩

/-- A spill exchanges the block of the vector. -/
theorem smallvecSpill_exchanges {minCap : Nat} (hv : v.OnHeap)
    (h : smallvecSpill size mem v minCap answer = .ok (mem', v', ok)) :
    Smallvec.Exchanges mem mem' v v' := by
  unfold smallvecSpill at h
  split at h
  · simp only [Except.ok.injEq, Prod.mk.injEq] at h
    obtain ⟨rfl, rfl, -⟩ := h
    exact Smallvec.exchanges_refl _ hv
  next hin =>
    extract_lets newCap newCap' at h
    rw [smallvecAlloc, hv.noArena, if_neg Bool.false_ne_true] at h
    split at h
    next mem₁ hmalloc =>
      simp only [Except.ok.injEq, Prod.mk.injEq] at h
      obtain ⟨rfl, rfl, -⟩ := h
      rw [(Store.granted_malloc hmalloc).eq_of_refused]
      exact Smallvec.exchanges_refl _ hv
    next mem₁ d hmalloc =>
      obtain ⟨mem₂, hcopy, hrest⟩ := bind_eq_ok.mp h
      simp only [Except.ok.injEq, Prod.mk.injEq] at hrest
      obtain ⟨rfl, rfl, -⟩ := hrest
      have hdata : v.data = none := hv.inline (by simpa using hin)
      have hown : v.owned = [v.inlineBuf] := by rw [Smallvec.owned, hdata]; rfl
      have hcopied : mem₁.Conserves mem₂ [v.inlineBuf, d] [v.inlineBuf, d] :=
        memCopyElems_conserves hcopy (List.mem_cons_of_mem _ List.mem_cons_self)
      refine ⟨?_, ⟨rfl, fun hno => absurd hno Bool.false_ne_true⟩⟩
      rw [hown]
      exact (Store.conserves_malloc hmalloc [v.inlineBuf]).trans hcopied

/-- A store behind the elements exchanges nothing. -/
theorem smallvecPut_exchanges {value : α} (hv : v.OnHeap)
    (h : smallvecPut size mem v value = .ok (mem', v')) : Smallvec.Exchanges mem mem' v v' := by
  obtain ⟨p, hp, hrest⟩ := bind_eq_ok.mp h
  obtain ⟨mem₁, hwrite, hrest⟩ := bind_eq_ok.mp hrest
  simp only [Except.ok.injEq, Prod.mk.injEq] at hrest
  obtain ⟨rfl, rfl⟩ := hrest
  exact Smallvec.exchanges_len (Store.conserves_write hwrite (Smallvec.mem_owned hp)) hv _

/-- A push exchanges the block where it spills. -/
theorem smallvecPush_exchanges {value : α} (hv : v.OnHeap)
    (h : smallvecPush size mem v value answer = .ok (mem', v', ok)) :
    Smallvec.Exchanges mem mem' v v' := by
  unfold smallvecPush at h
  split at h
  · obtain ⟨⟨mem₁, v₁⟩, hput, hrest⟩ := bind_eq_ok.mp h
    simp only [Except.ok.injEq, Prod.mk.injEq] at hrest
    obtain ⟨rfl, rfl, -⟩ := hrest
    exact smallvecPut_exchanges hv hput
  · obtain ⟨⟨mem₁, v₁, spilled⟩, hspill, hrest⟩ := bind_eq_ok.mp h
    have hex : Smallvec.Exchanges mem mem₁ v v₁ := by
      unfold smallvecPushSpill at hspill
      split at hspill
      · exact smallvecSpill_exchanges hv hspill
      · simp only [Except.ok.injEq, Prod.mk.injEq] at hspill
        obtain ⟨rfl, rfl, -⟩ := hspill
        exact Smallvec.exchanges_refl _ hv
    simp only at hrest
    split at hrest
    · simp only [Except.ok.injEq, Prod.mk.injEq] at hrest
      obtain ⟨rfl, rfl, -⟩ := hrest
      exact hex
    · split at hrest
      · simp only [Except.ok.injEq, Prod.mk.injEq] at hrest
        obtain ⟨rfl, rfl, -⟩ := hrest
        exact hex
      · obtain ⟨⟨mem₂, v₂⟩, hput, hlast⟩ := bind_eq_ok.mp hrest
        simp only [Except.ok.injEq, Prod.mk.injEq] at hlast
        obtain ⟨rfl, rfl, -⟩ := hlast
        exact hex.trans (smallvecPut_exchanges hex.2 hput)

/-- A pop exchanges nothing. -/
theorem smallvecPop_exchanges {out : Bool} {x : Option α} (hv : v.OnHeap)
    (h : smallvecPop size mem v out = .ok (v', ok, x)) : Smallvec.Exchanges mem mem v v' := by
  unfold smallvecPop at h
  split at h
  · simp only [Except.ok.injEq, Prod.mk.injEq] at h
    obtain ⟨rfl, -⟩ := h
    exact Smallvec.exchanges_refl _ hv
  · obtain ⟨p, -, hrest⟩ := bind_eq_ok.mp h
    obtain ⟨xs, -, hrest⟩ := bind_eq_ok.mp hrest
    simp only [Except.ok.injEq, Prod.mk.injEq] at hrest
    obtain ⟨rfl, -⟩ := hrest
    exact Smallvec.exchanges_len (Store.Conserves.refl _ _) hv _

/-- Room is made by a spill or is there. -/
theorem smallvecMakeRoom_exchanges {full : Prop} [Decidable full] {minCap : Nat} (hv : v.OnHeap)
    (h : smallvecMakeRoom size mem v full minCap answer = .ok (mem', v', ok)) :
    Smallvec.Exchanges mem mem' v v' := by
  unfold smallvecMakeRoom at h
  split at h
  · split at h
    · simp only [Except.ok.injEq, Prod.mk.injEq] at h
      obtain ⟨rfl, rfl, -⟩ := h
      exact Smallvec.exchanges_refl _ hv
    · exact smallvecSpill_exchanges hv h
  · simp only [Except.ok.injEq, Prod.mk.injEq] at h
    obtain ⟨rfl, rfl, -⟩ := h
    exact Smallvec.exchanges_refl _ hv

/-- An insertion exchanges the block where it spills. -/
theorem smallvecInsert_exchanges {i : Nat} {value : α} (hv : v.OnHeap)
    (h : smallvecInsert size mem v i value answer = .ok (mem', v', ok)) :
    Smallvec.Exchanges mem mem' v v' := by
  unfold smallvecInsert at h
  split at h
  · simp only [Except.ok.injEq, Prod.mk.injEq] at h
    obtain ⟨rfl, rfl, -⟩ := h
    exact Smallvec.exchanges_refl _ hv
  · obtain ⟨⟨mem₁, v₁, room⟩, hroom, hrest⟩ := bind_eq_ok.mp h
    have hex := smallvecMakeRoom_exchanges hv hroom
    simp only at hrest
    split at hrest
    · simp only [Except.ok.injEq, Prod.mk.injEq] at hrest
      obtain ⟨rfl, rfl, -⟩ := hrest
      exact hex
    · obtain ⟨mem₂, hshift, hrest⟩ := bind_eq_ok.mp hrest
      obtain ⟨p, hp, hrest⟩ := bind_eq_ok.mp hrest
      obtain ⟨mem₃, hwrite, hrest⟩ := bind_eq_ok.mp hrest
      simp only [Except.ok.injEq, Prod.mk.injEq] at hrest
      obtain ⟨rfl, rfl, -⟩ := hrest
      have hshifted := shiftElems_conserves hshift v₁.buf_subset_owned
      have hwritten := Store.conserves_write hwrite (Smallvec.mem_owned hp)
      exact hex.trans (Smallvec.exchanges_len (hshifted.trans hwritten) hex.2 _)

/-- A removal exchanges nothing. -/
theorem smallvecRemove_exchanges {i : Nat} {out : Bool} {x : Option α} (hv : v.OnHeap)
    (h : smallvecRemove size mem v i out = .ok (mem', v', ok, x)) :
    Smallvec.Exchanges mem mem' v v' := by
  unfold smallvecRemove at h
  split at h
  · simp only [Except.ok.injEq, Prod.mk.injEq] at h
    obtain ⟨rfl, rfl, -⟩ := h
    exact Smallvec.exchanges_refl _ hv
  · obtain ⟨p, -, hrest⟩ := bind_eq_ok.mp h
    obtain ⟨xs, -, hrest⟩ := bind_eq_ok.mp hrest
    obtain ⟨mem₁, hclose, hrest⟩ := bind_eq_ok.mp hrest
    simp only [Except.ok.injEq, Prod.mk.injEq] at hrest
    obtain ⟨rfl, rfl, -⟩ := hrest
    exact Smallvec.exchanges_len (closeElems_conserves hclose v.buf_subset_owned) hv _

/-- An extension exchanges the block where it spills. -/
theorem smallvecExtend_exchanges {src : Option Pointer} {count : Nat} (hv : v.OnHeap)
    (h : smallvecExtend size mem v src count answer = .ok (mem', v', ok)) :
    Smallvec.Exchanges mem mem' v v' := by
  cases src with
  | none =>
    simp only [smallvecExtend, Except.ok.injEq, Prod.mk.injEq] at h
    obtain ⟨rfl, rfl, -⟩ := h
    exact Smallvec.exchanges_refl _ hv
  | some src =>
    simp only [smallvecExtend] at h
    split at h
    · simp only [Except.ok.injEq, Prod.mk.injEq] at h
      obtain ⟨rfl, rfl, -⟩ := h
      exact Smallvec.exchanges_refl _ hv
    · obtain ⟨⟨mem₁, v₁, room⟩, hroom, hrest⟩ := bind_eq_ok.mp h
      have hex := smallvecMakeRoom_exchanges hv hroom
      simp only at hrest
      split at hrest
      · simp only [Except.ok.injEq, Prod.mk.injEq] at hrest
        obtain ⟨rfl, rfl, -⟩ := hrest
        exact hex
      · obtain ⟨dest, hdest, hrest⟩ := bind_eq_ok.mp hrest
        obtain ⟨mem₂, hcopy, hrest⟩ := bind_eq_ok.mp hrest
        simp only [Except.ok.injEq, Prod.mk.injEq] at hrest
        obtain ⟨rfl, rfl, -⟩ := hrest
        exact hex.trans (Smallvec.exchanges_len
          (memCopyElems_conserves hcopy (Smallvec.mem_owned hdest)) hex.2 _)

/-- Giving a vector back gives its spilled object back. -/
theorem smallvecFree_exchanges (hv : v.OnHeap)
    (h : smallvecFree inlineCap mem v = .ok (mem', v')) : Smallvec.Exchanges mem mem' v v' := by
  have hinit : (smallvecInit inlineCap v.inlineBuf).OnHeap := ⟨rfl, fun _ => rfl⟩
  unfold smallvecFree at h
  split at h
  next =>
    obtain ⟨mem₁, hfree, hrest⟩ := bind_eq_ok.mp h
    simp only [Except.ok.injEq, Prod.mk.injEq] at hrest
    obtain ⟨rfl, rfl⟩ := hrest
    exact ⟨(Store.conserves_free hfree).append_left [v.inlineBuf], hinit⟩
  next hno =>
    simp only [Except.ok.injEq, Prod.mk.injEq] at h
    obtain ⟨rfl, rfl⟩ := h
    have hin : v.usingInline = true := by
      simpa [hv.noArena] using hno
    have hown : v.owned = (smallvecInit inlineCap v.inlineBuf).owned := by
      rw [Smallvec.owned, hv.inline hin]
      rfl
    refine ⟨?_, hinit⟩
    rw [hown]
    exact Store.Conserves.refl _ _

/-- Every call on a heap vector exchanges its block at most. -/
theorem smallvecCall_exchanges {c : SmallvecCall α} {o : SmallvecOut α} (hv : v.OnHeap)
    (h : smallvecCall size inlineCap mem v c = .ok (o, mem', v')) :
    Smallvec.Exchanges mem mem' v v' := by
  cases c with
  | push value answer =>
    obtain ⟨⟨mem₁, v₁, ok⟩, hcall, hrest⟩ := bind_eq_ok.mp h
    simp only [Except.ok.injEq, Prod.mk.injEq] at hrest
    obtain ⟨-, rfl, rfl⟩ := hrest
    exact smallvecPush_exchanges hv hcall
  | pop out =>
    obtain ⟨⟨v₁, ok, x⟩, hcall, hrest⟩ := bind_eq_ok.mp h
    simp only [Except.ok.injEq, Prod.mk.injEq] at hrest
    obtain ⟨-, rfl, rfl⟩ := hrest
    exact smallvecPop_exchanges hv hcall
  | insert i value answer =>
    obtain ⟨⟨mem₁, v₁, ok⟩, hcall, hrest⟩ := bind_eq_ok.mp h
    simp only [Except.ok.injEq, Prod.mk.injEq] at hrest
    obtain ⟨-, rfl, rfl⟩ := hrest
    exact smallvecInsert_exchanges hv hcall
  | remove i out =>
    obtain ⟨⟨mem₁, v₁, ok, x⟩, hcall, hrest⟩ := bind_eq_ok.mp h
    simp only [Except.ok.injEq, Prod.mk.injEq] at hrest
    obtain ⟨-, rfl, rfl⟩ := hrest
    exact smallvecRemove_exchanges hv hcall
  | extend src count answer =>
    obtain ⟨⟨mem₁, v₁, ok⟩, hcall, hrest⟩ := bind_eq_ok.mp h
    simp only [Except.ok.injEq, Prod.mk.injEq] at hrest
    obtain ⟨-, rfl, rfl⟩ := hrest
    exact smallvecExtend_exchanges hv hcall
  | clear =>
    simp only [smallvecCall, Except.ok.injEq, Prod.mk.injEq] at h
    obtain ⟨-, rfl, rfl⟩ := h
    exact Smallvec.exchanges_len (Store.Conserves.refl _ _) hv 0
  | free =>
    obtain ⟨⟨mem₁, v₁⟩, hcall, hrest⟩ := bind_eq_ok.mp h
    simp only [Except.ok.injEq, Prod.mk.injEq] at hrest
    obtain ⟨-, rfl, rfl⟩ := hrest
    exact smallvecFree_exchanges hv hcall

/-- The objects of all vectors. -/
def SmallvecState.owned (s : SmallvecState α) : List Nat := s.vecs.flatMap Smallvec.owned

/-- A step of a program without arenas and without other code. -/
def SmallvecOp.OnHeap (op : SmallvecOp α) : Prop :=
  (∀ c, op ≠ .other c) ∧ ∀ place, op ≠ .new true place

/-- A new vector owns what it owns besides the others. -/
theorem SmallvecState.owned_push (s : SmallvecState α) (mem : TypedMemory α) (w : Smallvec) :
    SmallvecState.owned ⟨mem, s.vecs ++ [w]⟩ = s.owned ++ w.owned := by
  simp only [SmallvecState.owned, List.flatMap_append, List.flatMap_cons, List.flatMap_nil,
    List.append_nil]

/-- The objects of the vectors in front and behind are not exchanged. -/
theorem SmallvecState.conserves_set {s : SmallvecState α} {k : Nat} (hk : s.vecs[k]? = some v)
    (h : s.mem.Conserves mem' v.owned v'.owned) :
    s.mem.Conserves mem' s.owned (SmallvecState.owned ⟨mem', s.vecs.set k v'⟩) := by
  obtain ⟨hlt, hget⟩ := List.getElem?_eq_some_iff.mp hk
  have hsplit : s.vecs = s.vecs.take k ++ v :: s.vecs.drop (k + 1) := by
    rw [← hget, List.getElem_cons_drop, List.take_append_drop]
  have hbefore : s.owned = (s.vecs.take k).flatMap Smallvec.owned ++
      (v.owned ++ (s.vecs.drop (k + 1)).flatMap Smallvec.owned) := by
    conv_lhs => rw [SmallvecState.owned, hsplit, List.flatMap_append, List.flatMap_cons]
  have hafter : SmallvecState.owned ⟨mem', s.vecs.set k v'⟩ =
      (s.vecs.take k).flatMap Smallvec.owned ++
        (v'.owned ++ (s.vecs.drop (k + 1)).flatMap Smallvec.owned) := by
    change (s.vecs.set k v').flatMap Smallvec.owned = _
    rw [List.set_eq_take_append_cons_drop, if_pos hlt, List.flatMap_append, List.flatMap_cons]
  rw [hbefore, hafter]
  exact (h.append _).append_left _

/-- A step exchanges the objects of one vector or adds those of a new one. -/
theorem smallvecRun_conserves {s s' : SmallvecState α} {op : SmallvecOp α} {o : SmallvecOut α}
    (hop : op.OnHeap) (hs : ∀ v ∈ s.vecs, v.OnHeap)
    (hcopied : ∀ k place, op = .copy k place → ∀ v, s.vecs[k]? = some v → v.usingInline = true)
    (h : smallvecRun size inlineCap s op = .ok (o, s')) :
    s.mem.Conserves s'.mem s.owned s'.owned ∧ ∀ v ∈ s'.vecs, v.OnHeap := by
  have hmore : ∀ {w : Smallvec}, w.OnHeap → ∀ v ∈ s.vecs ++ [w], v.OnHeap := by
    intro w hw v hv
    rcases List.mem_append.mp hv with hold | hnew
    · exact hs v hold
    · rw [List.mem_singleton.mp hnew]
      exact hw
  cases op with
  | new arena place =>
    have harena : arena = false := by
      cases arena with
      | false => rfl
      | true => exact absurd rfl (hop.2 place)
    subst harena
    simp only [smallvecRun, if_neg Bool.false_ne_true] at h
    split at h
    · cases h
    next mem₁ d hmalloc =>
      simp only [Except.ok.injEq, Prod.mk.injEq] at h
      obtain ⟨-, rfl⟩ := h
      refine ⟨?_, hmore ⟨rfl, fun _ => rfl⟩⟩
      rw [SmallvecState.owned_push]
      exact Store.conserves_malloc hmalloc s.owned
  | copy k place =>
    simp only [smallvecRun] at h
    split at h
    · cases h
    next v hk =>
      split at h
      · cases h
      next mem₁ d hmalloc =>
        obtain ⟨mem₂, hmove, hrest⟩ := bind_eq_ok.mp h
        simp only [Except.ok.injEq, Prod.mk.injEq] at hrest
        obtain ⟨-, rfl⟩ := hrest
        have hv := hs v (List.mem_of_getElem? hk)
        have hdata := hv.inline (hcopied k place rfl v hk)
        refine ⟨?_, hmore ⟨hv.noArena, hv.inline⟩⟩
        have hown : Smallvec.owned { v with inlineBuf := d } = [d] := by
          rw [Smallvec.owned, hdata]
          rfl
        rw [SmallvecState.owned_push, hown]
        exact (Store.conserves_malloc hmalloc s.owned).trans
          (Store.conserves_move hmove (List.mem_append_right _ List.mem_cons_self))
  | on k c =>
    simp only [smallvecRun] at h
    split at h
    · cases h
    next v hk =>
      obtain ⟨⟨o', mem₁, v'⟩, hcall, hrest⟩ := bind_eq_ok.mp h
      simp only [Except.ok.injEq, Prod.mk.injEq] at hrest
      obtain ⟨-, rfl⟩ := hrest
      obtain ⟨hcons, hv'⟩ := smallvecCall_exchanges (hs v (List.mem_of_getElem? hk)) hcall
      refine ⟨SmallvecState.conserves_set hk hcons, fun w hw => ?_⟩
      rcases List.mem_or_eq_of_mem_set hw with hold | rfl
      · exact hs w hold
      · exact hv'
  | other c => exact absurd rfl (hop.1 c)

/-- What a program without arenas has in the states of a run. -/
theorem smallvecRuns_conserve {ops : List (SmallvecOp α)} {os : List (SmallvecOut α)}
    {s : SmallvecState α} (hops : ∀ op ∈ ops, op.OnHeap)
    (hrun : run (smallvecStep size inlineCap) ⟨mem, []⟩ ops = .ok (os, s)) :
    mem.Conserves s.mem [] s.owned ∧ ∀ v ∈ s.vecs, v.OnHeap := by
  refine run_invariant_of (I := fun t => mem.Conserves t.mem [] t.owned ∧ ∀ v ∈ t.vecs, v.OnHeap)
    ?_ hops ⟨Store.Conserves.refl _ _, fun v hv => nomatch hv⟩ hrun
  intro t op o t' hop ht hstep
  unfold smallvecStep at hstep
  split at hstep
  next hallows =>
    have hcopied : ∀ k place, op = .copy k place → ∀ v, t.vecs[k]? = some v →
        v.usingInline = true := by
      rintro k place rfl v hk
      simp only [SmallvecState.allows, hk, Option.any_some, Bool.and_eq_true] at hallows
      exact hallows.1
    obtain ⟨hcons, hheap⟩ := smallvecRun_conserves hop ht.2 hcopied hstep
    exact ⟨ht.1.trans hcons, hheap⟩
  next => cases hstep

/-- Giving a vector back leaves an empty one in the same structure. -/
theorem smallvecStep_free {s : SmallvecState α} (h : s.Good size inlineCap) (hsize : 0 < size)
    (hcap : 0 < inlineCap) {k : Nat} (hk : k < s.vecs.length) :
    ∃ o s', smallvecStep size inlineCap s (.on k .free) = .ok (o, s') ∧ s'.Good size inlineCap ∧
      s'.vecs = s.vecs.modify k fun v => smallvecInit inlineCap v.inlineBuf := by
  have hget : s.vecs[k]? = some s.vecs[k] := List.getElem?_eq_getElem hk
  have hallows : s.allows size inlineCap (.on k .free) = true := by
    simp only [SmallvecState.allows, hget, Option.any_some, SmallvecCall.allows]
  obtain ⟨o, s', hstep, houtcome⟩ := smallvecStep_outcome h hsize hcap (.on k .free) hallows
  refine ⟨o, s', hstep, houtcome.good, ?_⟩
  rw [smallvecStep, if_pos hallows] at hstep
  simp only [smallvecRun, hget] at hstep
  obtain ⟨⟨o', mem₁, v'⟩, hcall, hrest⟩ := bind_eq_ok.mp hstep
  simp only [Except.ok.injEq, Prod.mk.injEq] at hrest
  obtain ⟨-, rfl⟩ := hrest
  obtain ⟨⟨mem₂, v₂⟩, hfree, hlast⟩ := bind_eq_ok.mp hcall
  simp only [Except.ok.injEq, Prod.mk.injEq] at hlast
  obtain ⟨-, rfl, rfl⟩ := hlast
  have hv : v₂ = smallvecInit inlineCap s.vecs[k].inlineBuf := by
    unfold smallvecFree at hfree
    split at hfree
    · obtain ⟨mem₃, -, hend⟩ := bind_eq_ok.mp hfree
      exact (Prod.mk.inj (Except.ok.inj hend)).2.symm
    · exact (Prod.mk.inj (Except.ok.inj hfree)).2.symm
  rw [hv, List.modify_eq_set_getElem?, hget]
  rfl

/-- The calls that give the vectors of a program back, one after the other. -/
def freeAll (n : Nat) : List (SmallvecOp α) := (List.range n).map fun k => .on k .free

/-- Giving the first vectors back succeeds and leaves them in their structures. -/
theorem run_freeAll {s : SmallvecState α} (h : s.Good size inlineCap) (hsize : 0 < size)
    (hcap : 0 < inlineCap) {n : Nat} (hn : n ≤ s.vecs.length) :
    ∃ os t, run (smallvecStep size inlineCap) s (freeAll n) = .ok (os, t) ∧ t.Good size inlineCap ∧
      t.vecs.map (·.inlineBuf) = s.vecs.map (·.inlineBuf) ∧
      ∀ k < n, ∀ v, t.vecs[k]? = some v → v.data = none := by
  induction n with
  | zero => exact ⟨[], s, rfl, h, rfl, fun k hk => absurd hk (Nat.not_lt_zero k)⟩
  | succ n ih =>
    obtain ⟨os, t, hrun, hgood, hplaces, hfreed⟩ := ih (Nat.le_of_succ_le hn)
    have hlen : t.vecs.length = s.vecs.length := by
      have hlengths := congrArg List.length hplaces
      rwa [List.length_map, List.length_map] at hlengths
    obtain ⟨o, t', hstep, hgood', hvecs⟩ :=
      smallvecStep_free hgood hsize hcap (show n < t.vecs.length by omega)
    have hlast : run (smallvecStep size inlineCap) t [.on n .free] = .ok ([o], t') :=
      run_cons_eq_ok.mpr ⟨o, t', [], hstep, rfl, rfl⟩
    have hmore : freeAll (α := α) (n + 1) = freeAll n ++ [.on n .free] := by
      simp only [freeAll, List.range_succ, List.map_append, List.map_cons, List.map_nil]
    refine ⟨os ++ [o], t', by rw [hmore]; exact run_append hrun hlast, hgood', ?_, ?_⟩
    · rw [← hplaces, hvecs]
      apply List.ext_getElem?
      intro k
      simp only [List.getElem?_map, List.getElem?_modify]
      cases t.vecs[k]? with
      | none => rfl
      | some v =>
        simp only [Option.map_eq_map, Option.map_some]
        split <;> rfl
    · intro k hk v hv
      rw [hvecs, List.getElem?_modify] at hv
      obtain ⟨w, hw, rfl⟩ := Option.map_eq_some_iff.mp hv
      split
      · rfl
      next hkn => exact hfreed k (by omega) w hw

/-- In every state that a program without arenas reaches, whatever the allocator answers, the
objects besides the arrays of its structures and one for each spilled vector are those that were
there before, and giving all vectors back succeeds and leaves no more than the arrays. -/
theorem smallvec_leaks_nothing {ops : List (SmallvecOp α)} {os : List (SmallvecOut α)}
    {s : SmallvecState α} (hsize : 0 < size) (hcap : 0 < inlineCap)
    (hops : ∀ op ∈ ops, op.OnHeap)
    (hrun : run (smallvecStep size inlineCap) ⟨mem, []⟩ ops = .ok (os, s)) :
    s.mem.besides s.owned = mem.objects ∧
      ∃ os' t, run (smallvecStep size inlineCap) s (freeAll s.vecs.length) = .ok (os', t) ∧
        t.mem.besides (s.vecs.map (·.inlineBuf)) = mem.objects := by
  have hbesides : ∀ {t : SmallvecState α}, mem.Conserves t.mem [] t.owned →
      t.mem.besides t.owned = mem.objects := by
    intro t hcons
    have hnil := hcons []
    rwa [List.append_nil] at hnil
  refine ⟨hbesides (smallvecRuns_conserve hops hrun).1, ?_⟩
  obtain ⟨os', t, hfrees, -, hplaces, hfreed⟩ :=
    run_freeAll (smallvec_good_of_run hsize hcap hrun) hsize hcap (Nat.le_refl _)
  refine ⟨os', t, hfrees, ?_⟩
  have hfreeOps : ∀ op ∈ (freeAll s.vecs.length : List (SmallvecOp α)), op.OnHeap := by
    intro op hop
    obtain ⟨k, -, rfl⟩ := List.mem_map.mp hop
    exact ⟨nofun, nofun⟩
  have hall : ∀ op ∈ ops ++ freeAll s.vecs.length, op.OnHeap := by
    intro op hop
    rcases List.mem_append.mp hop with hold | hnew
    · exact hops op hold
    · exact hfreeOps op hnew
  have hend := hbesides (smallvecRuns_conserve hall (run_append hrun hfrees)).1
  have hlen : t.vecs.length = s.vecs.length := by
    have hlengths := congrArg List.length hplaces
    rwa [List.length_map, List.length_map] at hlengths
  have howned : t.owned = t.vecs.map (·.inlineBuf) := by
    rw [SmallvecState.owned, ← List.flatMap_singleton' (t.vecs.map (·.inlineBuf)),
      List.flatMap_map]
    apply List.flatMap_congr
    intro v hv
    obtain ⟨k, hk⟩ := List.mem_iff_getElem?.mp hv
    have hlt := (List.getElem?_eq_some_iff.mp hk).1
    rw [Smallvec.owned, hfreed k (by omega) v hk]
    rfl
  rw [← hplaces, ← howned]
  exact hend

/-- A spilled vector and a copy that was made before it spilled are given back. -/
theorem smallvec_leaks_nothing_copy : ∃ (os : List (SmallvecOut Nat)) (s t : SmallvecState Nat)
    (os' : List (SmallvecOut Nat)),
    run (smallvecStep 4 2) ⟨Store.empty _ _, []⟩ [.new false ⟨1000, fun _ => 0⟩,
      .on 0 (.push 5 none), .copy 0 ⟨2000, fun _ => 9⟩,
      .on 0 (.extend (some ⟨1, 0⟩) 2 (some ⟨3000, fun _ => 9⟩)), .on 1 (.push 7 none)] =
        .ok (os, s) ∧
    s.owned = [0, 2, 1] ∧ run (smallvecStep 4 2) s (freeAll 2) = .ok (os', t) ∧
    t.mem.besides [0, 1] = (Store.empty ptrdiffMax Nat).objects := by
  obtain ⟨os, s, hrun, howned, hvecs⟩ : ∃ (os : List (SmallvecOut Nat)) (s : SmallvecState Nat),
      run (smallvecStep 4 2) ⟨Store.empty _ _, []⟩ [.new false ⟨1000, fun _ => 0⟩,
        .on 0 (.push 5 none), .copy 0 ⟨2000, fun _ => 9⟩,
        .on 0 (.extend (some ⟨1, 0⟩) 2 (some ⟨3000, fun _ => 9⟩)), .on 1 (.push 7 none)] =
          .ok (os, s) ∧
      s.owned = [0, 2, 1] ∧ s.vecs.map (·.inlineBuf) = [0, 1] := ⟨_, _, rfl, rfl, rfl⟩
  have hops : ∀ op ∈ ([.new false ⟨1000, fun _ => 0⟩, .on 0 (.push 5 none),
      .copy 0 ⟨2000, fun _ => 9⟩, .on 0 (.extend (some ⟨1, 0⟩) 2 (some ⟨3000, fun _ => 9⟩)),
      .on 1 (.push 7 none)] : List (SmallvecOp Nat)), op.OnHeap := by
    simp [SmallvecOp.OnHeap]
  have hlen : s.vecs.length = 2 := by
    have hlengths := congrArg List.length hvecs
    rwa [List.length_map] at hlengths
  obtain ⟨-, os', t, hfrees, hobjects⟩ :=
    smallvec_leaks_nothing (show 0 < 4 by decide) (show 0 < 2 by decide) hops hrun
  rw [hlen] at hfrees
  rw [hvecs] at hobjects
  exact ⟨os, s, t, os', hrun, howned, hfrees, hobjects⟩

end CanonC
