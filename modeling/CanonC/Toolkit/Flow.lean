import CanonC.Toolkit.Run

/-!
# What flows through a machine

A machine that holds a list takes elements in at its back and gives elements out from its front.
What one step says about the elements held before and taken in, against those given out and held
after, a run says about all of them in order.
-/

namespace Toolkit

variable {ε σ ι ο α : Type*}

/-- The elements that the answered commands move, in order. -/
def moved (f : ι → ο → List α) (is : List ι) (os : List ο) : List α :=
  (List.zipWith f is os).flatten

/-- No command moves anything. -/
@[simp] theorem moved_nil (f : ι → ο → List α) : moved f [] [] = [] := rfl

/-- What the first command moves comes first. -/
@[simp] theorem moved_cons (f : ι → ο → List α) (i : ι) (o : ο) (is : List ι) (os : List ο) :
    moved f (i :: is) (o :: os) = f i o ++ moved f is os := rfl

/-- Commands that move nothing move nothing in all. -/
theorem moved_nothing (is : List ι) :
    ∀ os : List ο, moved (fun _ _ => ([] : List α)) is os = [] := by
  induction is with
  | nil => exact fun _ => rfl
  | cons i is ih =>
    intro os
    cases os with
    | nil => rfl
    | cons o os => exact ih os

/-- A relation of lists that holds at each step, between what comes out and what went in, holds of
the run. -/
theorem run_flow {step : σ → ι → Except ε (ο × σ)} {C : ι → Prop} {contents : σ → List α}
    {takes gives : ι → ο → List α} {R : List α → List α → Prop} (hrefl : ∀ xs, R xs xs)
    (htrans : ∀ xs ys zs, R xs ys → R ys zs → R xs zs)
    (happend : ∀ us xs ys vs, R xs ys → R (us ++ xs ++ vs) (us ++ ys ++ vs))
    (hstep : ∀ s i o s', C i → step s i = .ok (o, s') →
      R (gives i o ++ contents s') (contents s ++ takes i o)) {is : List ι} :
    ∀ {s s' : σ} {os : List ο}, (∀ i ∈ is, C i) → run step s is = .ok (os, s') →
      R (moved gives is os ++ contents s') (contents s ++ moved takes is os) := by
  induction is with
  | nil =>
    intro s s' os _ h
    obtain ⟨rfl, rfl⟩ := Prod.mk.inj (Except.ok.inj h)
    rw [moved_nil, moved_nil, List.nil_append, List.append_nil]
    exact hrefl _
  | cons i is ih =>
    intro s s' os hC h
    obtain ⟨hi, his⟩ := List.forall_mem_cons.mp hC
    obtain ⟨o, t, os', ht, hrest, rfl⟩ := run_cons_eq_ok.mp h
    have hfirst := happend [] _ _ (moved takes is os') (hstep s i o t hi ht)
    have hlast := happend (gives i o) _ _ [] (ih his hrest)
    simp only [List.nil_append, List.append_nil, List.append_assoc] at hfirst hlast
    rw [moved_cons, moved_cons, List.append_assoc]
    exact htrans _ _ _ hlast hfirst

end Toolkit
