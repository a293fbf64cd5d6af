import CanonC.Core.OwnedMemory
import CanonC.Data.Dynstring.Format

/-!
# The growing string owns one object

An append that has grown the string holds the old object until the bytes are copied or the text is
written and then gives it back, so between two calls the string has one object at most. A copy made
for the caller is the only object that a call leaves besides.
-/

namespace CanonC

open Toolkit

variable {mem mem' : ByteMemory} {s s' : Dynstring} {answer : Option (Grant UInt8)} {ok : Bool}

/-- `dynstring_free`. -/
def dynstringFree (mem : ByteMemory) (s : Dynstring) : Except String (ByteMemory × Dynstring) :=
  match s.data with
  | some d => do
    let mem ← mem.free (some d)
    .ok (mem, ⟨none, 0, 0⟩)
  | none => .ok (mem, s)

/-- What a program does with a string, with the formatted append and the end of the string. -/
inductive DynstringUse where
  /-- A call. -/
  | op (op : DynstringOp)
  /-- `dynstring_append_fmt` -/
  | appendFmt (fmt : Option Formatted) (answer : Option (Grant UInt8))
  /-- `dynstring_free` -/
  | free

/-- One use of a string that keeps to its contract. -/
def dynstringUse (s : DynstringState) : DynstringUse → Except String (DynstringOut × DynstringState)
  | .op op => dynstringStep s op
  | .appendFmt fmt answer => do
    let (mem, t, ok) ← dynstringAppendFmt s.mem s.str fmt answer
    .ok (⟨ok, none⟩, ⟨mem, t⟩)
  | .free => do
    let (mem, t) ← dynstringFree s.mem s.str
    .ok (⟨true, none⟩, ⟨mem, t⟩)

/-- The object of a string. -/
def Dynstring.owned (s : Dynstring) : List Nat := s.data.toList

/-- A detached growth leaves the new object and the one to give back in place of the old one. -/
theorem dynstringGrowDetached_conserves {minCap : Nat} {old : Option Nat}
    (h : dynstringGrowDetached mem s minCap answer = .ok (mem', s', old, ok)) :
    mem.Conserves mem' s.owned (old.toList ++ s'.owned) := by
  unfold dynstringGrowDetached at h
  split at h
  · simp only [Except.ok.injEq, Prod.mk.injEq] at h
    obtain ⟨rfl, rfl, rfl, -⟩ := h
    exact Store.Conserves.refl _ _
  · extract_lets newCap at h
    split at h
    next mem₁ hmalloc =>
      simp only [Except.ok.injEq, Prod.mk.injEq] at h
      obtain ⟨rfl, rfl, rfl, -⟩ := h
      rw [(Store.granted_malloc hmalloc).eq_of_refused]
      exact Store.Conserves.refl _ _
    next mem₁ d hmalloc =>
      have hmade := Store.conserves_malloc hmalloc s.owned
      split at h
      next d' hd =>
        obtain ⟨mem₂, hcopy, hrest⟩ := bind_eq_ok.mp h
        simp only [Except.ok.injEq, Prod.mk.injEq] at hrest
        obtain ⟨rfl, rfl, rfl, -⟩ := hrest
        have hcopied := @memCopyElems_conserves _ _ _ _ (s.owned ++ [d]) _ _ _ hcopy
          (List.mem_append_right _ List.mem_cons_self)
        have hown : s.owned = [d'] := by rw [Dynstring.owned, hd]; rfl
        exact hown ▸ hmade.trans hcopied
      next hd =>
        obtain ⟨mem₂, hwrite, hrest⟩ := bind_eq_ok.mp h
        simp only [Except.ok.injEq, Prod.mk.injEq] at hrest
        obtain ⟨rfl, rfl, rfl, -⟩ := hrest
        have hown : s.owned = [] := by rw [Dynstring.owned, hd]; rfl
        rw [hown] at hmade ⊢
        exact hmade.trans (Store.conserves_write hwrite List.mem_cons_self)

/-- A growth that was refused leaves no object to give back. -/
theorem dynstringGrowDetached_refused {minCap : Nat} {old : Option Nat}
    (h : dynstringGrowDetached mem s minCap answer = .ok (mem', s', old, false)) : old = none := by
  unfold dynstringGrowDetached at h
  split at h
  · cases h
  · extract_lets newCap at h
    split at h
    · simp only [Except.ok.injEq, Prod.mk.injEq] at h
      exact h.2.2.1.symm
    · split at h
      · obtain ⟨mem₂, -, hrest⟩ := bind_eq_ok.mp h
        cases hrest
      · obtain ⟨mem₂, -, hrest⟩ := bind_eq_ok.mp h
        cases hrest

/-- A reallocation exchanges the object of the string. -/
theorem dynstringEnsureCapacity_conserves {minCap : Nat}
    (h : dynstringEnsureCapacity mem s minCap answer = .ok (mem', s', ok)) :
    mem.Conserves mem' s.owned s'.owned := by
  unfold dynstringEnsureCapacity at h
  split at h
  · simp only [Except.ok.injEq, Prod.mk.injEq] at h
    obtain ⟨rfl, rfl, -⟩ := h
    exact Store.Conserves.refl _ _
  · extract_lets newCap at h
    obtain ⟨⟨mem₁, d⟩, hrealloc, hrest⟩ := bind_eq_ok.mp h
    simp only at hrest
    split at hrest
    · simp only [Except.ok.injEq, Prod.mk.injEq] at hrest
      obtain ⟨rfl, rfl, -⟩ := hrest
      rw [(Store.granted_realloc hrealloc).eq_of_refused]
      exact Store.Conserves.refl _ _
    · simp only [Except.ok.injEq, Prod.mk.injEq] at hrest
      obtain ⟨rfl, rfl, -⟩ := hrest
      exact (Store.granted_realloc hrealloc).conserves
    · obtain ⟨mem₂, hwrite, hlast⟩ := bind_eq_ok.mp hrest
      simp only [Except.ok.injEq, Prod.mk.injEq] at hlast
      obtain ⟨rfl, rfl, -⟩ := hlast
      exact (Store.granted_realloc hrealloc).conserves.trans
        (Store.conserves_write hwrite List.mem_cons_self)

/-- An append exchanges the object of the string, also where its source lies in it. -/
theorem dynstringAppendBytes_conserves {str : Pointer} {addLen : Nat}
    (h : dynstringAppendBytes mem s str addLen answer = .ok (mem', s', ok)) :
    mem.Conserves mem' s.owned s'.owned := by
  unfold dynstringAppendBytes at h
  split at h
  · simp only [Except.ok.injEq, Prod.mk.injEq] at h
    obtain ⟨rfl, rfl, -⟩ := h
    exact Store.Conserves.refl _ _
  · extract_lets requiredCap at h
    obtain ⟨⟨mem₁, s₁, old, grown⟩, hgrow, hrest⟩ := bind_eq_ok.mp h
    have hcons := dynstringGrowDetached_conserves hgrow
    simp only at hrest
    split at hrest
    next hno =>
      simp only [Except.ok.injEq, Prod.mk.injEq] at hrest
      obtain ⟨rfl, rfl, -⟩ := hrest
      obtain rfl : grown = false := by simpa using hno
      rw [dynstringGrowDetached_refused hgrow] at hcons
      exact hcons
    next =>
      obtain ⟨dest, hdest, hrest⟩ := bind_eq_ok.mp hrest
      obtain ⟨mem₂, hcopy, hrest⟩ := bind_eq_ok.mp hrest
      obtain ⟨term, hterm, hrest⟩ := bind_eq_ok.mp hrest
      obtain ⟨mem₃, hwrite, hrest⟩ := bind_eq_ok.mp hrest
      obtain ⟨mem₄, hfree, hrest⟩ := bind_eq_ok.mp hrest
      simp only [Except.ok.injEq, Prod.mk.injEq] at hrest
      obtain ⟨rfl, rfl, -⟩ := hrest
      -- The old object is owned until the bytes have left it.
      have hcopied : mem₁.Conserves mem₂ (old.toList ++ s₁.owned) (old.toList ++ s₁.owned) :=
        memCopyElems_conserves hcopy (List.mem_append_right _ (mem_of_elemAt hdest))
      have hwritten : mem₂.Conserves mem₃ (old.toList ++ s₁.owned) (old.toList ++ s₁.owned) :=
        Store.conserves_write hwrite (List.mem_append_right _ (mem_of_elemAt hterm))
      have hfreed := (Store.conserves_free hfree).append s₁.owned
      exact hcons.trans (hcopied.trans (hwritten.trans hfreed))

/-- An append of a C string exchanges the object of the string. -/
theorem dynstringAppend_conserves {str : Option Pointer}
    (h : dynstringAppend mem s str answer = .ok (mem', s', ok)) :
    mem.Conserves mem' s.owned s'.owned := by
  cases str with
  | none =>
    simp only [dynstringAppend, Except.ok.injEq, Prod.mk.injEq] at h
    obtain ⟨rfl, rfl, -⟩ := h
    exact Store.Conserves.refl _ _
  | some str =>
    obtain ⟨len, -, hrest⟩ := bind_eq_ok.mp h
    exact dynstringAppendBytes_conserves hrest

/-- An append of at most some bytes exchanges the object of the string. -/
theorem dynstringAppendN_conserves {str : Option Pointer} {n : Nat}
    (h : dynstringAppendN mem s str n answer = .ok (mem', s', ok)) :
    mem.Conserves mem' s.owned s'.owned := by
  cases str with
  | none =>
    simp only [dynstringAppendN, Except.ok.injEq, Prod.mk.injEq] at h
    obtain ⟨rfl, rfl, -⟩ := h
    exact Store.Conserves.refl _ _
  | some str =>
    simp only [dynstringAppendN] at h
    split at h
    · simp only [Except.ok.injEq, Prod.mk.injEq] at h
      obtain ⟨rfl, rfl, -⟩ := h
      exact Store.Conserves.refl _ _
    · obtain ⟨len, -, hrest⟩ := bind_eq_ok.mp h
      exact dynstringAppendBytes_conserves hrest

/-- A formatted write to an object of the owner exchanges nothing. -/
theorem vsnprintfAt_conserves {data : Option Nat} {i size : Nat} {text : Option (List UInt8)}
    {written : Int} {own : List Nat} (h : vsnprintfAt mem data i size text = .ok (mem', written))
    (hown : ∀ d, data = some d → d ∈ own) : mem.Conserves mem' own own := by
  cases text with
  | none =>
    obtain ⟨rfl, -⟩ := Prod.mk.inj (Except.ok.inj h)
    exact Store.Conserves.refl _ _
  | some text =>
    simp only [vsnprintfAt] at h
    split at h
    · obtain ⟨rfl, -⟩ := Prod.mk.inj (Except.ok.inj h)
      exact Store.Conserves.refl _ _
    · obtain ⟨dest, hdest, hrest⟩ := bind_eq_ok.mp h
      obtain ⟨mem₁, hwrite, hrest⟩ := bind_eq_ok.mp hrest
      obtain ⟨rfl, -⟩ := Prod.mk.inj (Except.ok.inj hrest)
      exact Store.conserves_write hwrite (hown _ (Option.mem_toList.mp (mem_of_elemAt hdest)))

/-- A formatted append exchanges the object of the string, also where its second pass fails. -/
theorem dynstringAppendFmt_conserves {fmt : Option Formatted}
    (h : dynstringAppendFmt mem s fmt answer = .ok (mem', s', ok)) :
    mem.Conserves mem' s.owned s'.owned := by
  cases fmt with
  | none =>
    simp only [dynstringAppendFmt, Except.ok.injEq, Prod.mk.injEq] at h
    obtain ⟨rfl, rfl, -⟩ := h
    exact Store.Conserves.refl _ _
  | some fmt =>
    simp only [dynstringAppendFmt, vsnprintfAt_measure, ok_bind] at h
    split at h
    · simp only [Except.ok.injEq, Prod.mk.injEq] at h
      obtain ⟨rfl, rfl, -⟩ := h
      exact Store.Conserves.refl _ _
    · obtain ⟨⟨mem₁, s₁, old, grown⟩, hgrow, hrest⟩ := bind_eq_ok.mp h
      have hcons := dynstringGrowDetached_conserves hgrow
      simp only at hrest
      split at hrest
      next hno =>
        simp only [Except.ok.injEq, Prod.mk.injEq] at hrest
        obtain ⟨rfl, rfl, -⟩ := hrest
        obtain rfl : grown = false := by simpa using hno
        rw [dynstringGrowDetached_refused hgrow] at hcons
        exact hcons
      next =>
        obtain ⟨⟨mem₂, written⟩, hprint, hrest⟩ := bind_eq_ok.mp hrest
        obtain ⟨mem₃, hfree, hrest⟩ := bind_eq_ok.mp hrest
        -- The old object is owned until the text is written.
        have hprinted : mem₁.Conserves mem₂ (old.toList ++ s₁.owned) (old.toList ++ s₁.owned) :=
          vsnprintfAt_conserves hprint fun d hd =>
            List.mem_append_right _ (Option.mem_toList.mpr hd)
        have hfreed := (Store.conserves_free hfree).append s₁.owned
        have hgiven := hcons.trans (hprinted.trans hfreed)
        split at hrest
        · obtain ⟨term, hterm, hrest⟩ := bind_eq_ok.mp hrest
          obtain ⟨mem₄, hwrite, hrest⟩ := bind_eq_ok.mp hrest
          simp only [Except.ok.injEq, Prod.mk.injEq] at hrest
          obtain ⟨rfl, rfl, -⟩ := hrest
          exact hgiven.trans (Store.conserves_write hwrite (mem_of_elemAt hterm))
        · simp only [Except.ok.injEq, Prod.mk.injEq] at hrest
          obtain ⟨rfl, rfl, -⟩ := hrest
          exact hgiven

/-- An append of a byte exchanges the object of the string. -/
theorem dynstringAppendChar_conserves {c : UInt8}
    (h : dynstringAppendChar mem s c answer = .ok (mem', s', ok)) :
    mem.Conserves mem' s.owned s'.owned := by
  unfold dynstringAppendChar at h
  extract_lets requiredCap at h
  obtain ⟨⟨mem₁, s₁, grown⟩, hgrow, hrest⟩ := bind_eq_ok.mp h
  have hcons := dynstringEnsureCapacity_conserves hgrow
  simp only at hrest
  split at hrest
  · simp only [Except.ok.injEq, Prod.mk.injEq] at hrest
    obtain ⟨rfl, rfl, -⟩ := hrest
    exact hcons
  · obtain ⟨p, hp, hrest⟩ := bind_eq_ok.mp hrest
    obtain ⟨mem₂, hwrite, hrest⟩ := bind_eq_ok.mp hrest
    obtain ⟨term, hterm, hrest⟩ := bind_eq_ok.mp hrest
    obtain ⟨mem₃, hwrite', hrest⟩ := bind_eq_ok.mp hrest
    simp only [Except.ok.injEq, Prod.mk.injEq] at hrest
    obtain ⟨rfl, rfl, -⟩ := hrest
    exact hcons.trans ((Store.conserves_write hwrite (mem_of_elemAt hp)).trans
      (Store.conserves_write hwrite' (mem_of_elemAt hterm)))

/-- A cleared string has its object. -/
theorem dynstringClear_conserves (h : dynstringClear mem s = .ok (mem', s')) :
    mem.Conserves mem' s.owned s'.owned := by
  unfold dynstringClear at h
  split at h
  · simp only [Except.ok.injEq, Prod.mk.injEq] at h
    obtain ⟨rfl, rfl⟩ := h
    exact Store.Conserves.refl _ _
  next d hd =>
    obtain ⟨mem₁, hwrite, hrest⟩ := bind_eq_ok.mp h
    simp only [Except.ok.injEq, Prod.mk.injEq] at hrest
    obtain ⟨rfl, rfl⟩ := hrest
    exact Store.conserves_write hwrite (Option.mem_toList.mpr hd)

/-- A truncated string has its object. -/
theorem dynstringTruncate_conserves {newLen : Nat}
    (h : dynstringTruncate mem s newLen = .ok (mem', s')) :
    mem.Conserves mem' s.owned s'.owned := by
  unfold dynstringTruncate at h
  split at h
  · simp only [Except.ok.injEq, Prod.mk.injEq] at h
    obtain ⟨rfl, rfl⟩ := h
    exact Store.Conserves.refl _ _
  next d hd =>
    split at h
    · obtain ⟨mem₁, hwrite, hrest⟩ := bind_eq_ok.mp h
      simp only [Except.ok.injEq, Prod.mk.injEq] at hrest
      obtain ⟨rfl, rfl⟩ := hrest
      exact Store.conserves_write hwrite (Option.mem_toList.mpr hd)
    · simp only [Except.ok.injEq, Prod.mk.injEq] at h
      obtain ⟨rfl, rfl⟩ := h
      exact Store.Conserves.refl _ _

/-- Shrinking gives the object back or exchanges it for a smaller one. -/
theorem dynstringShrinkToFit_conserves
    (h : dynstringShrinkToFit mem s answer = .ok (mem', s', ok)) :
    mem.Conserves mem' s.owned s'.owned := by
  unfold dynstringShrinkToFit at h
  split at h
  · simp only [Except.ok.injEq, Prod.mk.injEq] at h
    obtain ⟨rfl, rfl, -⟩ := h
    exact Store.Conserves.refl _ _
  next d hd =>
    have hown : s.owned = (some d).toList := by rw [Dynstring.owned, hd]
    split at h
    · obtain ⟨mem₁, hfree, hrest⟩ := bind_eq_ok.mp h
      simp only [Except.ok.injEq, Prod.mk.injEq] at hrest
      obtain ⟨rfl, rfl, -⟩ := hrest
      exact hown ▸ Store.conserves_free hfree
    · split at h
      · simp only [Except.ok.injEq, Prod.mk.injEq] at h
        obtain ⟨rfl, rfl, -⟩ := h
        exact Store.Conserves.refl _ _
      · extract_lets newCap at h
        obtain ⟨⟨mem₁, d'⟩, hrealloc, hrest⟩ := bind_eq_ok.mp h
        simp only at hrest
        split at hrest
        · simp only [Except.ok.injEq, Prod.mk.injEq] at hrest
          obtain ⟨rfl, rfl, -⟩ := hrest
          rw [(Store.granted_realloc hrealloc).eq_of_refused]
          exact Store.Conserves.refl _ _
        · simp only [Except.ok.injEq, Prod.mk.injEq] at hrest
          obtain ⟨rfl, rfl, -⟩ := hrest
          exact hown ▸ (Store.granted_realloc hrealloc).conserves

/-- The object of a copy is new. -/
theorem dynstringToCstr_conserves {copy : Option Nat}
    (h : dynstringToCstr mem s answer = .ok (mem', copy)) :
    mem.Conserves mem' s.owned (copy.toList ++ s.owned) := by
  have hmake : ∀ {bytes : Nat} {mem₁ : ByteMemory} {d : Option Nat},
      mem.malloc bytes answer = (mem₁, d) → mem.Conserves mem₁ s.owned (d.toList ++ s.owned) := by
    intro bytes mem₁ d hmalloc
    exact (Store.conserves_malloc hmalloc s.owned).trans (Store.conserves_swap _ s.owned d.toList)
  unfold dynstringToCstr at h
  split at h
  · split at h
    next hmalloc =>
      simp only [Except.ok.injEq, Prod.mk.injEq] at h
      obtain ⟨rfl, rfl⟩ := h
      exact hmake hmalloc
    next hmalloc =>
      obtain ⟨mem₂, hwrite, hrest⟩ := bind_eq_ok.mp h
      simp only [Except.ok.injEq, Prod.mk.injEq] at hrest
      obtain ⟨rfl, rfl⟩ := hrest
      exact (hmake hmalloc).trans (Store.conserves_write hwrite List.mem_cons_self)
  · split at h
    next hmalloc =>
      simp only [Except.ok.injEq, Prod.mk.injEq] at h
      obtain ⟨rfl, rfl⟩ := h
      exact hmake hmalloc
    next hmalloc =>
      obtain ⟨mem₂, hcopy, hrest⟩ := bind_eq_ok.mp h
      simp only [Except.ok.injEq, Prod.mk.injEq] at hrest
      obtain ⟨rfl, rfl⟩ := hrest
      exact (hmake hmalloc).trans (memCopyElems_conserves hcopy List.mem_cons_self)

/-- A string of a given room has a new object or none. -/
theorem dynstringWithCapacity_conserves {capacity : Nat}
    (h : dynstringWithCapacity mem capacity answer = .ok (mem', s)) :
    mem.Conserves mem' [] s.owned := by
  unfold dynstringWithCapacity at h
  split at h
  · simp only [Except.ok.injEq, Prod.mk.injEq] at h
    obtain ⟨rfl, rfl⟩ := h
    exact Store.Conserves.refl _ _
  · split at h
    next hmalloc =>
      simp only [Except.ok.injEq, Prod.mk.injEq] at h
      obtain ⟨rfl, rfl⟩ := h
      exact Store.conserves_malloc hmalloc []
    next hmalloc =>
      obtain ⟨mem₂, hwrite, hrest⟩ := bind_eq_ok.mp h
      simp only [Except.ok.injEq, Prod.mk.injEq] at hrest
      obtain ⟨rfl, rfl⟩ := hrest
      exact (Store.conserves_malloc hmalloc []).trans
        (Store.conserves_write hwrite List.mem_cons_self)

/-- A string made of a C string has a new object or none. -/
theorem dynstringFrom_conserves {str : Option Pointer}
    (h : dynstringFrom mem str answer = .ok (mem', s)) : mem.Conserves mem' [] s.owned := by
  cases str with
  | none =>
    simp only [dynstringFrom, Except.ok.injEq, Prod.mk.injEq] at h
    obtain ⟨rfl, rfl⟩ := h
    exact Store.Conserves.refl _ _
  | some str =>
    obtain ⟨len, -, hrest⟩ := bind_eq_ok.mp h
    simp only at hrest
    split at hrest
    next hmalloc =>
      simp only [Except.ok.injEq, Prod.mk.injEq] at hrest
      obtain ⟨rfl, rfl⟩ := hrest
      exact Store.conserves_malloc hmalloc []
    next hmalloc =>
      obtain ⟨mem₂, hcopy, hlast⟩ := bind_eq_ok.mp hrest
      simp only [Except.ok.injEq, Prod.mk.injEq] at hlast
      obtain ⟨rfl, rfl⟩ := hlast
      exact (Store.conserves_malloc hmalloc []).trans
        (memCopyElems_conserves hcopy List.mem_cons_self)

/-- A new string has a new object or none. -/
theorem dynstringStart_conserves {new : DynstringNew} {t : DynstringState}
    (h : dynstringStart mem new = .ok t) : mem.Conserves t.mem [] t.str.owned := by
  cases new with
  | init =>
    obtain rfl := Except.ok.inj h
    exact Store.Conserves.refl _ _
  | withCapacity capacity answer =>
    obtain ⟨⟨mem₁, s⟩, hnew, hrest⟩ := bind_eq_ok.mp h
    obtain rfl := Except.ok.inj hrest
    exact dynstringWithCapacity_conserves hnew
  | fromStr str answer =>
    obtain ⟨⟨mem₁, s⟩, hnew, hrest⟩ := bind_eq_ok.mp h
    obtain rfl := Except.ok.inj hrest
    exact dynstringFrom_conserves hnew

/-- A call on the string exchanges its object, and a copy is all that it leaves besides. -/
theorem dynstringCall_conserves {t t' : DynstringState} {op : DynstringOp} {o : DynstringOut}
    (hop : ∀ c, op ≠ .other c) (h : dynstringCall t op = .ok (o, t')) :
    t.mem.Conserves t'.mem t.str.owned (o.copy.toList ++ t'.str.owned) := by
  cases op with
  | append str answer =>
    obtain ⟨⟨mem, s, ok⟩, hcall, hrest⟩ := bind_eq_ok.mp h
    obtain ⟨rfl, rfl⟩ := Prod.mk.inj (Except.ok.inj hrest)
    exact dynstringAppend_conserves hcall
  | appendN str n answer =>
    obtain ⟨⟨mem, s, ok⟩, hcall, hrest⟩ := bind_eq_ok.mp h
    obtain ⟨rfl, rfl⟩ := Prod.mk.inj (Except.ok.inj hrest)
    exact dynstringAppendN_conserves hcall
  | appendChar c answer =>
    obtain ⟨⟨mem, s, ok⟩, hcall, hrest⟩ := bind_eq_ok.mp h
    obtain ⟨rfl, rfl⟩ := Prod.mk.inj (Except.ok.inj hrest)
    exact dynstringAppendChar_conserves hcall
  | reserve minCap answer =>
    obtain ⟨⟨mem, s, ok⟩, hcall, hrest⟩ := bind_eq_ok.mp h
    obtain ⟨rfl, rfl⟩ := Prod.mk.inj (Except.ok.inj hrest)
    exact dynstringEnsureCapacity_conserves hcall
  | shrinkToFit answer =>
    obtain ⟨⟨mem, s, ok⟩, hcall, hrest⟩ := bind_eq_ok.mp h
    obtain ⟨rfl, rfl⟩ := Prod.mk.inj (Except.ok.inj hrest)
    exact dynstringShrinkToFit_conserves hcall
  | clear =>
    obtain ⟨⟨mem, s⟩, hcall, hrest⟩ := bind_eq_ok.mp h
    obtain ⟨rfl, rfl⟩ := Prod.mk.inj (Except.ok.inj hrest)
    exact dynstringClear_conserves hcall
  | truncate newLen =>
    obtain ⟨⟨mem, s⟩, hcall, hrest⟩ := bind_eq_ok.mp h
    obtain ⟨rfl, rfl⟩ := Prod.mk.inj (Except.ok.inj hrest)
    exact dynstringTruncate_conserves hcall
  | toCstr answer =>
    obtain ⟨⟨mem, copy⟩, hcall, hrest⟩ := bind_eq_ok.mp h
    obtain ⟨rfl, rfl⟩ := Prod.mk.inj (Except.ok.inj hrest)
    exact dynstringToCstr_conserves hcall
  | other c => exact absurd rfl (hop c)

/-- The copies that calls have handed to the caller. -/
def copies (os : List DynstringOut) : List Nat := os.flatMap (·.copy.toList)

/-- A string that is given back has no object any more. -/
theorem dynstringFree_conserves (h : dynstringFree mem s = .ok (mem', s')) :
    mem.Conserves mem' s.owned s'.owned := by
  unfold dynstringFree at h
  split at h
  next d hd =>
    obtain ⟨mem₁, hfree, hrest⟩ := bind_eq_ok.mp h
    simp only [Except.ok.injEq, Prod.mk.injEq] at hrest
    obtain ⟨rfl, rfl⟩ := hrest
    have hown : s.owned = (some d).toList := by rw [Dynstring.owned, hd]
    exact hown ▸ Store.conserves_free hfree
  next =>
    simp only [Except.ok.injEq, Prod.mk.injEq] at h
    obtain ⟨rfl, rfl⟩ := h
    exact Store.Conserves.refl _ _

/-- A string can be given back and then has no object. -/
theorem dynstringFree_spec {xs : List UInt8} (h : s.Holds mem xs) :
    ∃ mem' s', dynstringFree mem s = .ok (mem', s') ∧ s'.Holds mem' [] ∧ s'.owned = [] := by
  cases hd : s.data with
  | none =>
    obtain ⟨-, rfl⟩ := h.null hd
    exact ⟨mem, s, by rw [dynstringFree, hd], h, by rw [Dynstring.owned, hd, Option.toList_none]⟩
  | some d =>
    obtain ⟨mem', hfree, -⟩ := (h.buffer d hd).free
    have hcall : dynstringFree mem s = .ok (mem', ⟨none, 0, 0⟩) := by
      rw [dynstringFree, hd]
      simp only [hfree, ok_bind]
    refine ⟨mem', _, hcall, ⟨fun _ => ⟨rfl, rfl⟩, fun d hsome => ?_, rfl⟩, rfl⟩
    exact absurd hsome.symm (Option.some_ne_none d)

/-- What a call leaves besides the object of the string is a copy. -/
theorem dynstringUse_conserves {t t' : DynstringState} {use : DynstringUse} {o : DynstringOut}
    (huse : ∀ c, use ≠ .op (.other c)) (h : dynstringUse t use = .ok (o, t')) :
    t.mem.Conserves t'.mem t.str.owned (o.copy.toList ++ t'.str.owned) := by
  cases use with
  | op op =>
    simp only [dynstringUse, dynstringStep] at h
    split at h
    · exact dynstringCall_conserves (fun c hop => huse c (congrArg DynstringUse.op hop)) h
    · cases h
  | appendFmt fmt answer =>
    obtain ⟨⟨mem, s, ok⟩, hcall, hrest⟩ := bind_eq_ok.mp h
    obtain ⟨rfl, rfl⟩ := Prod.mk.inj (Except.ok.inj hrest)
    exact dynstringAppendFmt_conserves hcall
  | free =>
    obtain ⟨⟨mem, s⟩, hcall, hrest⟩ := bind_eq_ok.mp h
    obtain ⟨rfl, rfl⟩ := Prod.mk.inj (Except.ok.inj hrest)
    exact dynstringFree_conserves hcall

/-- Every call leaves the string with its bytes and the terminator in its object. -/
theorem dynstringUse_holds {t t' : DynstringState} {use : DynstringUse} {o : DynstringOut}
    (ht : ∃ xs, t.str.Holds t.mem xs) (h : dynstringUse t use = .ok (o, t')) :
    ∃ xs, t'.str.Holds t'.mem xs := by
  obtain ⟨xs, hxs⟩ := ht
  cases use with
  | op op => exact dynstringStep_holds ⟨xs, hxs⟩ h
  | appendFmt fmt answer =>
    obtain ⟨⟨mem, s, ok⟩, hcall, hrest⟩ := bind_eq_ok.mp h
    obtain ⟨rfl, rfl⟩ := Prod.mk.inj (Except.ok.inj hrest)
    rcases dynstringAppendFmt_spec hxs fmt answer with
      ⟨mem', s', hno, hholds, -⟩ | ⟨mem', s', text, hyes, -, hholds, -⟩
    · obtain ⟨rfl, rfl, -⟩ : mem' = mem ∧ s' = s ∧ false = ok := by
        simpa using hno.symm.trans hcall
      exact ⟨xs, hholds⟩
    · obtain ⟨rfl, rfl, -⟩ : mem' = mem ∧ s' = s ∧ true = ok := by
        simpa using hyes.symm.trans hcall
      exact ⟨xs ++ text, hholds⟩
  | free =>
    obtain ⟨⟨mem, s⟩, hcall, hrest⟩ := bind_eq_ok.mp h
    obtain ⟨rfl, rfl⟩ := Prod.mk.inj (Except.ok.inj hrest)
    obtain ⟨mem', s', hfree, hholds, -⟩ := dynstringFree_spec hxs
    obtain ⟨rfl, rfl⟩ : mem' = mem ∧ s' = s := by simpa using hfree.symm.trans hcall
    exact ⟨[], hholds⟩

/-- What calls on the string leave besides its object are the copies. -/
theorem dynstringRun_conserves {uses : List DynstringUse}
    (huses : ∀ use ∈ uses, ∀ c, use ≠ .op (.other c)) {t t' : DynstringState}
    {os : List DynstringOut} (hrun : run dynstringUse t uses = .ok (os, t')) :
    t.mem.Conserves t'.mem t.str.owned (copies os ++ t'.str.owned) := by
  induction uses generalizing t os with
  | nil =>
    obtain ⟨rfl, rfl⟩ := Prod.mk.inj (Except.ok.inj hrun)
    exact Store.Conserves.refl _ _
  | cons use uses ih =>
    obtain ⟨huse, hrest⟩ := List.forall_mem_cons.mp huses
    obtain ⟨o, u, os', hstep, hruns, rfl⟩ := run_cons_eq_ok.mp hrun
    have hmore := (ih hrest hruns).append_left o.copy.toList
    rw [← List.append_assoc] at hmore
    exact (dynstringUse_conserves huse hstep).trans hmore

/-- In every state that calls on a new string reach, whatever the allocator answers and whatever the
two passes of a formatted append make, the objects besides the one of the bytes and the copies made
for the caller are those that were there before, and giving the string back succeeds and leaves
exactly these and the copies. -/
theorem dynstring_leaks_nothing {new : DynstringNew} {uses : List DynstringUse}
    {os : List DynstringOut} {t₀ t : DynstringState} (hnew : new.allows mem = true)
    (hstart : dynstringStart mem new = .ok t₀) (huses : ∀ use ∈ uses, ∀ c, use ≠ .op (.other c))
    (hrun : run dynstringUse t₀ uses = .ok (os, t)) :
    t.mem.besides (copies os ++ t.str.owned) = mem.objects ∧
      ∃ mem' s', dynstringFree t.mem t.str = .ok (mem', s') ∧ s'.owned = [] ∧
        mem'.besides (copies os) = mem.objects := by
  have hcons := (dynstringStart_conserves hstart).trans (dynstringRun_conserves huses hrun)
  obtain ⟨t₁, hstart₁, xs₀, hxs₀, -⟩ := dynstringStart_spec hnew
  rw [hstart] at hstart₁
  obtain rfl := Except.ok.inj hstart₁
  obtain ⟨xs, hxs⟩ := run_invariant (fun t use o t' ht hstep => dynstringUse_holds ht hstep)
    (show ∃ xs, t₀.str.Holds t₀.mem xs from ⟨xs₀, hxs₀⟩) hrun
  obtain ⟨mem', s', hfree, -, hown⟩ := dynstringFree_spec hxs
  have hlast := hcons.trans ((dynstringFree_conserves hfree).append_left (copies os))
  rw [hown, List.append_nil] at hlast
  have hbesides := hcons []
  have hbesides' := hlast []
  rw [List.append_nil] at hbesides hbesides'
  exact ⟨hbesides, mem', s', hfree, hown, hbesides'⟩

/-- A string that has moved under a formatted append that fails in its second pass, and that has
been copied, is given back and leaves the copy. -/
theorem dynstring_leaks_nothing_copied : ∃ (mem : ByteMemory) (t₀ t : DynstringState)
    (os : List DynstringOut) (mem' : ByteMemory) (s' : Dynstring),
    dynstringStart mem (.fromStr (some ⟨0, 0⟩) (some ⟨2000, fun _ => 7⟩)) = .ok t₀ ∧
    run dynstringUse t₀ [.op (.append (some ⟨0, 0⟩) none),
      .appendFmt (some ⟨some [120, 121], none⟩) (some ⟨3000, fun _ => 7⟩),
      .op (.toCstr (some ⟨2000, fun _ => 7⟩)), .op (.appendChar 99 none)] = .ok (os, t) ∧
    os.map (·.ok) = [false, false, true, true] ∧
    copies os = [3] ∧ dynstringFree t.mem t.str = .ok (mem', s') ∧
    mem'.besides (copies os) = mem.objects := by
  obtain ⟨mem, t₀, t, os, hnew, hstart, hrun, hok, hcopies⟩ : ∃ (mem : ByteMemory)
      (t₀ t : DynstringState) (os : List DynstringOut), DynstringNew.allows mem
        (.fromStr (some ⟨0, 0⟩) (some ⟨2000, fun _ => 7⟩)) = true ∧
      dynstringStart mem (.fromStr (some ⟨0, 0⟩) (some ⟨2000, fun _ => 7⟩)) = .ok t₀ ∧
      run dynstringUse t₀ [.op (.append (some ⟨0, 0⟩) none),
        .appendFmt (some ⟨some [120, 121], none⟩) (some ⟨3000, fun _ => 7⟩),
        .op (.toCstr (some ⟨2000, fun _ => 7⟩)), .op (.appendChar 99 none)] = .ok (os, t) ∧
      os.map (·.ok) = [false, false, true, true] ∧ copies os = [3] :=
    ⟨((Store.empty ptrdiffMax UInt8).malloc 3 (some ⟨1000, fun i => [97, 98, 0].getD i 0⟩)).1,
      _, _, _, rfl, rfl, rfl, rfl, rfl⟩
  obtain ⟨-, mem', s', hfree, -, hobjects⟩ :=
    dynstring_leaks_nothing hnew hstart (by simp) hrun
  exact ⟨mem, t₀, t, os, mem', s', hstart, hrun, hok, hcopies, hfree, hobjects⟩

end CanonC
