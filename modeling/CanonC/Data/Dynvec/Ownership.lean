import CanonC.Core.OwnedMemory
import CanonC.Data.Dynvec.Refinement

/-!
# The growing vector owns one object

Whatever the allocator answers, the vector has at most the object of its elements, and every
other object is one that was there before it. So giving it back leaves the objects that were
there: nothing is leaked, nothing is given back twice and nothing of another is given back.
-/

namespace CanonC

open Toolkit

variable {α : Type} {size : Nat} {mem mem' : TypedMemory α} {v v' : Dynvec}
  {answer : Option (Grant α)} {ok : Bool}

/-- `dynvec_free`. -/
def dynvecFree (mem : TypedMemory α) (v : Dynvec) : Except String (TypedMemory α × Dynvec) := do
  let mem ← mem.free v.data
  .ok (mem, ⟨none, 0, 0⟩)

/-- The object of a vector. -/
def Dynvec.owned (v : Dynvec) : List Nat := v.data.toList

/-- A growth exchanges the object of the vector. -/
theorem dynvecGrow_conserves {minCap : Nat}
    (h : dynvecGrow size mem v minCap answer = .ok (mem', v', ok)) :
    mem.Conserves mem' v.owned v'.owned := by
  unfold dynvecGrow at h
  extract_lets cap newCap at h
  split at h
  · simp only [Except.ok.injEq, Prod.mk.injEq] at h
    obtain ⟨rfl, rfl, -⟩ := h
    exact Store.Conserves.refl _ _
  · obtain ⟨⟨mem₁, d⟩, hrealloc, hrest⟩ := bind_eq_ok.mp h
    rcases Store.granted_realloc hrealloc with ⟨rfl, rfl⟩ | ⟨hne, hcons⟩
    · simp only [Except.ok.injEq, Prod.mk.injEq] at hrest
      obtain ⟨rfl, rfl, -⟩ := hrest
      exact Store.Conserves.refl _ _
    · obtain ⟨d, rfl⟩ := Option.ne_none_iff_exists'.mp hne
      simp only [Except.ok.injEq, Prod.mk.injEq] at hrest
      obtain ⟨rfl, rfl, -⟩ := hrest
      exact hcons

/-- So does one that only a full vector needs. -/
theorem dynvecGrowFull_conserves (h : dynvecGrowFull size mem v answer = .ok (mem', v', ok)) :
    mem.Conserves mem' v.owned v'.owned := by
  unfold dynvecGrowFull at h
  split at h
  · exact dynvecGrow_conserves h
  · simp only [Except.ok.injEq, Prod.mk.injEq] at h
    obtain ⟨rfl, rfl, -⟩ := h
    exact Store.Conserves.refl _ _

/-- A vector of a given room has a new object or none. -/
theorem dynvecWithCapacity_conserves (size : Nat) (mem : TypedMemory α) (capacity : Nat)
    (answer : Option (Grant α)) :
    mem.Conserves (dynvecWithCapacity size mem capacity answer).1 []
      (dynvecWithCapacity size mem capacity answer).2.owned := by
  unfold dynvecWithCapacity
  split
  · exact Store.Conserves.refl _ _
  · split
    · exact Store.Conserves.refl _ _
    · split
      next hmalloc => exact Store.conserves_malloc hmalloc []
      next hmalloc => exact Store.conserves_malloc hmalloc []

/-- A store leaves the vector its object. -/
theorem dynvecSet_conserves {i : Nat} {value : α}
    (h : dynvecSet size mem v i value = .ok (mem', ok)) : mem.Conserves mem' v.owned v.owned := by
  unfold dynvecSet at h
  split at h
  · simp only [Except.ok.injEq, Prod.mk.injEq] at h
    obtain ⟨rfl, -⟩ := h
    exact Store.Conserves.refl _ _
  · obtain ⟨p, hp, h⟩ := bind_eq_ok.mp h
    obtain ⟨mem₁, hwrite, h⟩ := bind_eq_ok.mp h
    simp only [Except.ok.injEq, Prod.mk.injEq] at h
    obtain ⟨rfl, -⟩ := h
    exact Store.conserves_write hwrite (mem_of_elemAt hp)

/-- A push exchanges the object of the vector. -/
theorem dynvecPush_conserves {value : α}
    (h : dynvecPush size mem v value answer = .ok (mem', v', ok)) :
    mem.Conserves mem' v.owned v'.owned := by
  obtain ⟨⟨mem₁, v₁, grown⟩, hgrow, h⟩ := bind_eq_ok.mp h
  have hcons := dynvecGrowFull_conserves hgrow
  simp only at h
  split at h
  · simp only [Except.ok.injEq, Prod.mk.injEq] at h
    obtain ⟨rfl, rfl, -⟩ := h
    exact hcons
  · obtain ⟨p, hp, h⟩ := bind_eq_ok.mp h
    obtain ⟨mem₂, hwrite, h⟩ := bind_eq_ok.mp h
    simp only [Except.ok.injEq, Prod.mk.injEq] at h
    obtain ⟨rfl, rfl, -⟩ := h
    exact hcons.trans (Store.conserves_write hwrite (mem_of_elemAt hp))

/-- A pop leaves the vector its object. -/
theorem dynvecPop_owned {out : Bool} {x : Option α}
    (h : dynvecPop size mem v out = .ok (v', ok, x)) : v'.owned = v.owned := by
  unfold dynvecPop at h
  split at h
  · simp only [Except.ok.injEq, Prod.mk.injEq] at h
    obtain ⟨rfl, -⟩ := h
    rfl
  · obtain ⟨p, -, h⟩ := bind_eq_ok.mp h
    obtain ⟨xs, -, h⟩ := bind_eq_ok.mp h
    simp only [Except.ok.injEq, Prod.mk.injEq] at h
    obtain ⟨rfl, -⟩ := h
    rfl

/-- An insertion exchanges the object of the vector. -/
theorem dynvecInsert_conserves {i : Nat} {value : α}
    (h : dynvecInsert size mem v i value answer = .ok (mem', v', ok)) :
    mem.Conserves mem' v.owned v'.owned := by
  unfold dynvecInsert at h
  split at h
  · simp only [Except.ok.injEq, Prod.mk.injEq] at h
    obtain ⟨rfl, rfl, -⟩ := h
    exact Store.Conserves.refl _ _
  · obtain ⟨⟨mem₁, v₁, grown⟩, hgrow, h⟩ := bind_eq_ok.mp h
    have hcons := dynvecGrowFull_conserves hgrow
    simp only at h
    split at h
    · simp only [Except.ok.injEq, Prod.mk.injEq] at h
      obtain ⟨rfl, rfl, -⟩ := h
      exact hcons
    · obtain ⟨mem₂, hshift, h⟩ := bind_eq_ok.mp h
      obtain ⟨p, hp, h⟩ := bind_eq_ok.mp h
      obtain ⟨mem₃, hwrite, h⟩ := bind_eq_ok.mp h
      simp only [Except.ok.injEq, Prod.mk.injEq] at h
      obtain ⟨rfl, rfl, -⟩ := h
      exact hcons.trans ((shiftElems_conserves hshift (List.Subset.refl _)).trans
        (Store.conserves_write hwrite (mem_of_elemAt hp)))

/-- A removal leaves the vector its object. -/
theorem dynvecRemove_conserves {i : Nat} {out : Bool} {x : Option α}
    (h : dynvecRemove size mem v i out = .ok (mem', v', ok, x)) :
    mem.Conserves mem' v.owned v'.owned := by
  unfold dynvecRemove at h
  split at h
  · simp only [Except.ok.injEq, Prod.mk.injEq] at h
    obtain ⟨rfl, rfl, -⟩ := h
    exact Store.Conserves.refl _ _
  · obtain ⟨p, -, h⟩ := bind_eq_ok.mp h
    obtain ⟨xs, -, h⟩ := bind_eq_ok.mp h
    obtain ⟨mem₁, hclose, h⟩ := bind_eq_ok.mp h
    simp only [Except.ok.injEq, Prod.mk.injEq] at h
    obtain ⟨rfl, rfl, -⟩ := h
    exact closeElems_conserves hclose (List.Subset.refl _)

/-- A growth for a source, which may lie in the vector, exchanges its object. -/
theorem dynvecGrowFor_conserves {src src' : Pointer} {need : Nat}
    (h : dynvecGrowFor size mem v src need answer = .ok (mem', v', ok, src')) :
    mem.Conserves mem' v.owned v'.owned := by
  unfold dynvecGrowFor at h
  split at h
  · obtain ⟨s, -, h⟩ := bind_eq_ok.mp h
    obtain ⟨b, -, h⟩ := bind_eq_ok.mp h
    obtain ⟨⟨mem₁, v₁, grown⟩, hgrow, h⟩ := bind_eq_ok.mp h
    have hcons := dynvecGrow_conserves hgrow
    simp only at h
    split at h
    · obtain ⟨p, -, h⟩ := bind_eq_ok.mp h
      simp only [Except.ok.injEq, Prod.mk.injEq] at h
      obtain ⟨rfl, rfl, -⟩ := h
      exact hcons
    · simp only [Except.ok.injEq, Prod.mk.injEq] at h
      obtain ⟨rfl, rfl, -⟩ := h
      exact hcons
  · simp only [Except.ok.injEq, Prod.mk.injEq] at h
    obtain ⟨rfl, rfl, -⟩ := h
    exact Store.Conserves.refl _ _

/-- An extension exchanges the object of the vector. -/
theorem dynvecExtend_conserves {src : Option Pointer} {count : Nat}
    (h : dynvecExtend size mem v src count answer = .ok (mem', v', ok)) :
    mem.Conserves mem' v.owned v'.owned := by
  cases src with
  | none =>
    simp only [dynvecExtend, Except.ok.injEq, Prod.mk.injEq] at h
    obtain ⟨rfl, rfl, -⟩ := h
    exact Store.Conserves.refl _ _
  | some src =>
    simp only [dynvecExtend] at h
    split at h
    · simp only [Except.ok.injEq, Prod.mk.injEq] at h
      obtain ⟨rfl, rfl, -⟩ := h
      exact Store.Conserves.refl _ _
    · split at h
      · simp only [Except.ok.injEq, Prod.mk.injEq] at h
        obtain ⟨rfl, rfl, -⟩ := h
        exact Store.Conserves.refl _ _
      · obtain ⟨⟨mem₁, v₁, grown, src'⟩, hgrow, h⟩ := bind_eq_ok.mp h
        have hcons := dynvecGrowFor_conserves hgrow
        simp only at h
        split at h
        · simp only [Except.ok.injEq, Prod.mk.injEq] at h
          obtain ⟨rfl, rfl, -⟩ := h
          exact hcons
        · obtain ⟨dest, hdest, h⟩ := bind_eq_ok.mp h
          obtain ⟨mem₂, hcopy, h⟩ := bind_eq_ok.mp h
          simp only [Except.ok.injEq, Prod.mk.injEq] at h
          obtain ⟨rfl, rfl, -⟩ := h
          exact hcons.trans (memCopyElems_conserves hcopy (mem_of_elemAt hdest))

/-- A reservation exchanges the object of the vector. -/
theorem dynvecReserve_conserves {minCap : Nat}
    (h : dynvecReserve size mem v minCap answer = .ok (mem', v', ok)) :
    mem.Conserves mem' v.owned v'.owned := by
  unfold dynvecReserve at h
  split at h
  · simp only [Except.ok.injEq, Prod.mk.injEq] at h
    obtain ⟨rfl, rfl, -⟩ := h
    exact Store.Conserves.refl _ _
  · exact dynvecGrow_conserves h

/-- Shrinking gives the object back or exchanges it for a smaller one. -/
theorem dynvecShrinkToFit_conserves (h : dynvecShrinkToFit size mem v answer = .ok (mem', v', ok)) :
    mem.Conserves mem' v.owned v'.owned := by
  unfold dynvecShrinkToFit at h
  split at h
  · simp only [Except.ok.injEq, Prod.mk.injEq] at h
    obtain ⟨rfl, rfl, -⟩ := h
    exact Store.Conserves.refl _ _
  · split at h
    · obtain ⟨mem₁, hfree, h⟩ := bind_eq_ok.mp h
      simp only [Except.ok.injEq, Prod.mk.injEq] at h
      obtain ⟨rfl, rfl, -⟩ := h
      exact Store.conserves_free hfree
    · obtain ⟨⟨mem₁, d⟩, hrealloc, hrest⟩ := bind_eq_ok.mp h
      rcases Store.granted_realloc hrealloc with ⟨rfl, rfl⟩ | ⟨hne, hcons⟩
      · simp only [Except.ok.injEq, Prod.mk.injEq] at hrest
        obtain ⟨rfl, rfl, -⟩ := hrest
        exact Store.Conserves.refl _ _
      · obtain ⟨d, rfl⟩ := Option.ne_none_iff_exists'.mp hne
        simp only [Except.ok.injEq, Prod.mk.injEq] at hrest
        obtain ⟨rfl, rfl, -⟩ := hrest
        exact hcons

/-- A call on the vector exchanges its object. -/
theorem dynvecCall_conserves {s s' : DynvecState α} {op : DynvecOp α} {o : DynvecOut α}
    (hop : ∀ c, op ≠ .other c) (h : dynvecCall size s op = .ok (o, s')) :
    s.mem.Conserves s'.mem s.vec.owned s'.vec.owned := by
  cases op with
  | push value answer =>
    obtain ⟨⟨mem, v, ok⟩, hpush, hrest⟩ := bind_eq_ok.mp h
    obtain ⟨-, rfl⟩ := Prod.mk.inj (Except.ok.inj hrest)
    exact dynvecPush_conserves hpush
  | pop out =>
    obtain ⟨⟨v, ok, x⟩, hpop, hrest⟩ := bind_eq_ok.mp h
    obtain ⟨-, rfl⟩ := Prod.mk.inj (Except.ok.inj hrest)
    rw [dynvecPop_owned hpop]
    exact Store.Conserves.refl _ _
  | set i value =>
    obtain ⟨⟨mem, ok⟩, hset, hrest⟩ := bind_eq_ok.mp h
    obtain ⟨-, rfl⟩ := Prod.mk.inj (Except.ok.inj hrest)
    exact dynvecSet_conserves hset
  | insert i value answer =>
    obtain ⟨⟨mem, v, ok⟩, hinsert, hrest⟩ := bind_eq_ok.mp h
    obtain ⟨-, rfl⟩ := Prod.mk.inj (Except.ok.inj hrest)
    exact dynvecInsert_conserves hinsert
  | remove i out =>
    obtain ⟨⟨mem, v, ok, x⟩, hremove, hrest⟩ := bind_eq_ok.mp h
    obtain ⟨-, rfl⟩ := Prod.mk.inj (Except.ok.inj hrest)
    exact dynvecRemove_conserves hremove
  | extend src count answer =>
    obtain ⟨⟨mem, v, ok⟩, hextend, hrest⟩ := bind_eq_ok.mp h
    obtain ⟨-, rfl⟩ := Prod.mk.inj (Except.ok.inj hrest)
    exact dynvecExtend_conserves hextend
  | reserve minCap answer =>
    obtain ⟨⟨mem, v, ok⟩, hreserve, hrest⟩ := bind_eq_ok.mp h
    obtain ⟨-, rfl⟩ := Prod.mk.inj (Except.ok.inj hrest)
    exact dynvecReserve_conserves hreserve
  | shrinkToFit answer =>
    obtain ⟨⟨mem, v, ok⟩, hshrink, hrest⟩ := bind_eq_ok.mp h
    obtain ⟨-, rfl⟩ := Prod.mk.inj (Except.ok.inj hrest)
    exact dynvecShrinkToFit_conserves hshrink
  | clear =>
    obtain ⟨-, rfl⟩ := Prod.mk.inj (Except.ok.inj h)
    exact Store.Conserves.refl _ _
  | other c => exact absurd rfl (hop c)

/-- In every state that calls on a new vector reach, whatever the allocator answers, the objects
besides the one of the elements are those that were there before, and giving the vector back
succeeds and leaves exactly these. -/
theorem dynvec_leaks_nothing {capacity : Usize} {ops : List (DynvecOp α)} {os : List (DynvecOut α)}
    {s : DynvecState α} (hsize : 0 < size) (hops : ∀ op ∈ ops, ∀ c, op ≠ .other c)
    (hrun : run (dynvecStep size) (dynvecStart size mem capacity answer) ops = .ok (os, s)) :
    s.mem.besides s.vec.owned = mem.objects ∧
      ∃ mem', dynvecFree s.mem s.vec = .ok (mem', dynvecInit) ∧ mem'.objects = mem.objects := by
  have hstart := dynvecWithCapacity_conserves size mem capacity answer
  have hstep : ∀ t op o t', (∀ c, op ≠ .other c) → mem.Conserves t.mem [] t.vec.owned →
      dynvecStep size t op = .ok (o, t') → mem.Conserves t'.mem [] t'.vec.owned := by
    intro t op o t' hop ht hop'
    unfold dynvecStep at hop'
    split at hop'
    · exact ht.trans (dynvecCall_conserves hop hop')
    · cases hop'
  have hcons := run_invariant_of hstep hops hstart hrun
  obtain ⟨xs, hxs⟩ := run_invariant (fun t op o t' ht hstep => dynvecStep_holds hsize ht hstep)
    (show ∃ xs, (dynvecStart size mem capacity answer).vec.Holds size
      (dynvecStart size mem capacity answer).mem xs from
      ⟨[], dynvecWithCapacity_holds size mem capacity answer⟩) hrun
  have hbesides : s.mem.besides s.vec.owned = mem.objects := by
    have hnil := hcons []
    rwa [List.append_nil] at hnil
  obtain ⟨mem', hfree, -⟩ := hxs.buffer.free
  refine ⟨hbesides, mem', by rw [dynvecFree, hfree, ok_bind]; rfl, ?_⟩
  have hgone := Store.besides_free hfree []
  rw [List.append_nil] at hgone
  exact hgone.trans hbesides

/-- A vector that has moved twice is given back and leaves nothing. -/
theorem dynvec_leaks_nothing_moved : ∃ (os : List (DynvecOut Nat)) (s : DynvecState Nat)
    (mem' : TypedMemory Nat),
    run (dynvecStep 4) (dynvecStart 4 (Store.empty _ _) (1 : Usize) (some ⟨1000, fun _ => 0⟩))
      [.push 5 none, .push 6 (some ⟨2000, fun _ => 9⟩), .push 7 (some ⟨3000, fun _ => 9⟩),
        .shrinkToFit (some ⟨1000, fun _ => 9⟩)] = .ok (os, s) ∧
      dynvecFree s.mem s.vec = .ok (mem', dynvecInit) ∧
      mem'.objects = (Store.empty ptrdiffMax Nat).objects := by
  obtain ⟨os, s, hrun⟩ : ∃ os s,
      run (dynvecStep 4) (dynvecStart 4 (Store.empty _ _) (1 : Usize) (some ⟨1000, fun _ => 0⟩))
        [.push 5 none, .push 6 (some ⟨2000, fun _ => 9⟩), .push 7 (some ⟨3000, fun _ => 9⟩),
          .shrinkToFit (some ⟨1000, fun _ => 9⟩)] = .ok (os, s) := ⟨_, _, rfl⟩
  obtain ⟨-, mem', hfree, hobjects⟩ :=
    dynvec_leaks_nothing (show 0 < 4 by decide) (by simp) hrun
  exact ⟨os, s, mem', hrun, hfree, hobjects⟩

end CanonC
