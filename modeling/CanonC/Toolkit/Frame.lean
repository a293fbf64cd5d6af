import CanonC.Toolkit.Cells

/-!
# Frames

Two memories agree outside some spans of addresses. Writes inside the spans extend such an
agreement, and what lies apart from all of them is read as before.
-/

namespace Toolkit

variable {α : Type*} {mem mem' mem'' : Nat → α} {a : Nat}

/-- Some addresses in a row. -/
structure Span where
  base : Nat
  len : Nat

namespace Span

/-- The address is one of the span. -/
def Contains (r : Span) (a : Nat) : Prop := r.base ≤ a ∧ a < r.base + r.len

/-- One of the spans ends before the other begins. -/
def Apart (r t : Span) : Prop := r.base + r.len ≤ t.base ∨ t.base + t.len ≤ r.base

variable {r t : Span}

/-- Apart does not depend on the order. -/
theorem Apart.symm (h : r.Apart t) : t.Apart r := Or.symm h

/-- A part of a span is apart from what the span is apart from. -/
theorem Apart.part (h : r.Apart t) {base len : Nat} (hlo : r.base ≤ base)
    (hhi : base + len ≤ r.base + r.len) : Apart ⟨base, len⟩ t := by
  unfold Apart at *
  dsimp only
  omega

end Span

/-- The memories agree outside the spans. -/
def Frame (rs : List Span) (mem mem' : Nat → α) : Prop :=
  ∀ a, (∀ r ∈ rs, ¬r.Contains a) → mem' a = mem a

namespace Frame

variable {rs ts : List Span} {r : Span}

/-- Memory that is not changed is changed in no span. -/
theorem refl (rs : List Span) (mem : Nat → α) : Frame rs mem mem := fun _ _ => rfl

/-- Two changes one after the other. -/
theorem trans (h : Frame rs mem mem') (h' : Frame rs mem' mem'') : Frame rs mem mem'' :=
  fun a ha => (h' a ha).trans (h a ha)

/-- More spans may be changed. -/
theorem mono (h : Frame rs mem mem') (hsub : rs ⊆ ts) : Frame ts mem mem' :=
  fun a ha => h a fun r hr => ha r (hsub hr)

/-- The span may be longer. -/
theorem widen {p m n : Nat} (h : Frame [⟨p, n⟩] mem mem') (hle : n ≤ m) :
    Frame [⟨p, m⟩] mem mem' := by
  intro a ha
  have hout := ha ⟨p, m⟩ (List.mem_singleton_self _)
  refine h a fun r hr hin => hout ?_
  rw [List.mem_singleton.mp hr] at hin
  exact ⟨hin.1, Nat.lt_of_lt_of_le hin.2 (Nat.add_le_add_left hle p)⟩

/-- A run written inside a span changes nothing outside it. -/
theorem write (mem : Nat → α) {p : Nat} {xs : List α} (hlo : r.base ≤ p)
    (hhi : p + xs.length ≤ r.base + r.len) : Frame [r] mem (Cells.write mem p xs) := by
  intro a ha
  apply Cells.write_of_outside
  have hout := ha r (List.mem_singleton_self r)
  unfold Span.Contains at hout
  omega

/-- A memory changed at most in a span that is read as before is the same. -/
theorem eq_of_read {p n : Nat} (h : Frame [⟨p, n⟩] mem mem')
    (hread : Cells.read mem' p n = Cells.read mem p n) : mem' = mem := by
  funext a
  by_cases hin : p ≤ a ∧ a < p + n
  · obtain ⟨i, rfl⟩ := Nat.exists_eq_add_of_le hin.1
    have hi : i < n := Nat.lt_of_add_lt_add_left hin.2
    have hcell := congrArg (fun xs => xs[i]?) hread
    simp only [Cells.getElem?_read hi, Option.some.injEq] at hcell
    exact hcell
  · refine h a fun r hr hcontains => hin ?_
    rw [List.mem_singleton.mp hr] at hcontains
    exact hcontains

/-- A run apart from the spans is read as before. -/
theorem read (h : Frame rs mem mem') {p n : Nat} (hapart : ∀ r ∈ rs, Span.Apart ⟨p, n⟩ r) :
    Cells.read mem' p n = Cells.read mem p n := by
  apply Cells.read_congr
  intro a hlo hhi
  refine h a fun r hr hin => ?_
  have hr' := hapart r hr
  unfold Span.Apart at hr'
  unfold Span.Contains at hin
  dsimp only at hr'
  omega

end Frame

end Toolkit
