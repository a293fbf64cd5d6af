import Mathlib.Tactic.Common

/-!
# Runs of a step function that may abort

A machine is a step function from a state and a command to an output and a next
state, or to an abort. A run applies a list of commands and stops at the first
abort. The rules here turn a fact about one step into a fact about every run:
an invariant, a simulation into a relational specification, and the exact
condition on the steps under which a property holds in every state visited.
-/

namespace Toolkit

variable {ε σ ι ο α : Type*}

/-- Run the commands in order, collecting the outputs, up to the first abort. -/
def run (step : σ → ι → Except ε (ο × σ)) : σ → List ι → Except ε (List ο × σ)
  | s, [] => .ok ([], s)
  | s, i :: is =>
    match step s i with
    | .error e => .error e
    | .ok (o, s') =>
      match run step s' is with
      | .error e => .error e
      | .ok (os, s'') => .ok (o :: os, s'')

/-- A run of no commands. -/
@[simp] theorem run_nil (step : σ → ι → Except ε (ο × σ)) (s : σ) :
    run step s [] = .ok ([], s) := rfl

/-- A run over a nonempty list is its first step followed by the run over the rest. -/
theorem run_cons_eq_ok {step : σ → ι → Except ε (ο × σ)} {s s'' : σ} {i : ι} {is : List ι}
    {os : List ο} :
    run step s (i :: is) = .ok (os, s'') ↔ ∃ o s' os', step s i = .ok (o, s') ∧
      run step s' is = .ok (os', s'') ∧ os = o :: os' := by
  cases hs : step s i with
  | error e => simp [run, hs]
  | ok p =>
    obtain ⟨o, s'⟩ := p
    cases hr : run step s' is with
    | error e => simp [run, hs, hr]
    | ok q =>
      obtain ⟨os', t⟩ := q
      simp only [run, hs, hr, Except.ok.injEq, Prod.mk.injEq]
      constructor
      · rintro ⟨rfl, rfl⟩
        exact ⟨o, s', os', ⟨rfl, rfl⟩, hr, rfl⟩
      · rintro ⟨_, _, _, ⟨rfl, rfl⟩, hr', rfl⟩
        rw [hr] at hr'
        obtain ⟨rfl, rfl⟩ := Prod.mk.inj (Except.ok.inj hr')
        exact ⟨rfl, rfl⟩

/-- A run goes on from where another one ended. -/
theorem run_append {step : σ → ι → Except ε (ο × σ)} {s s' s'' : σ} {is js : List ι}
    {os os' : List ο} (h : run step s is = .ok (os, s')) (h' : run step s' js = .ok (os', s'')) :
    run step s (is ++ js) = .ok (os ++ os', s'') := by
  induction is generalizing s os with
  | nil =>
    obtain ⟨rfl, rfl⟩ := Prod.mk.inj (Except.ok.inj h)
    exact h'
  | cons i is ih =>
    obtain ⟨o, t, ot, hstep, hrest, rfl⟩ := run_cons_eq_ok.mp h
    exact run_cons_eq_ok.mpr ⟨o, t, ot ++ os', hstep, ih hrest, rfl⟩

/-- A run over two commands is one step after the other. -/
theorem run_pair_eq_ok {step : σ → ι → Except ε (ο × σ)} {s u : σ} {i j : ι} {os : List ο} :
    run step s [i, j] = .ok (os, u) ↔ ∃ o t o', step s i = .ok (o, t) ∧
      step t j = .ok (o', u) ∧ os = [o, o'] := by
  constructor
  · intro h
    obtain ⟨o, t, os', hi, hrest, rfl⟩ := run_cons_eq_ok.mp h
    obtain ⟨o', u', os'', hj, hnil, rfl⟩ := run_cons_eq_ok.mp hrest
    obtain ⟨rfl, rfl⟩ := Prod.mk.inj (Except.ok.inj hnil)
    exact ⟨o, t, o', hi, hj, rfl⟩
  · rintro ⟨o, t, o', hi, hj, rfl⟩
    exact run_cons_eq_ok.mpr ⟨o, t, [o'], hi, run_cons_eq_ok.mpr ⟨o', u, [], hj, rfl, rfl⟩, rfl⟩

/-- What every step of some commands keeps, every completed run of these commands keeps. -/
theorem run_invariant_of {step : σ → ι → Except ε (ο × σ)} {C : ι → Prop} {I : σ → Prop}
    (hstep : ∀ s i o s', C i → I s → step s i = .ok (o, s') → I s') {is : List ι} :
    ∀ {s s' : σ} {os : List ο}, (∀ i ∈ is, C i) → I s → run step s is = .ok (os, s') → I s' := by
  induction is with
  | nil =>
    intro s s' os _ hs h
    obtain ⟨-, rfl⟩ := Prod.mk.inj (Except.ok.inj h)
    exact hs
  | cons i is ih =>
    intro s s' os hC hs h
    obtain ⟨hi, his⟩ := List.forall_mem_cons.mp hC
    obtain ⟨o, t, os', ht, hr, -⟩ := run_cons_eq_ok.mp h
    exact ih his (hstep s i o t hi hs ht) hr

/-- What every step keeps, every completed run keeps. -/
theorem run_invariant {step : σ → ι → Except ε (ο × σ)} {I : σ → Prop}
    (hstep : ∀ s i o s', I s → step s i = .ok (o, s') → I s') {is : List ι} {s s' : σ}
    {os : List ο} : I s → run step s is = .ok (os, s') → I s' :=
  run_invariant_of (fun s i o s' (_ : True) => hstep s i o s') fun _ _ => trivial

/-- A machine whose steps succeed from its invariant completes every run. -/
theorem run_total {step : σ → ι → Except ε (ο × σ)} {I : σ → Prop}
    (hstep : ∀ s i, I s → ∃ o s', step s i = .ok (o, s') ∧ I s') (is : List ι) :
    ∀ {s : σ}, I s → ∃ os s', run step s is = .ok (os, s') ∧ I s' := by
  induction is with
  | nil => exact fun {s} hs => ⟨[], s, rfl, hs⟩
  | cons i is ih =>
    intro s hs
    obtain ⟨o, t, ht, hit⟩ := hstep s i hs
    obtain ⟨os, s', hr, hs'⟩ := ih hit
    exact ⟨o :: os, s', run_cons_eq_ok.mpr ⟨o, t, os, ht, hr, rfl⟩, hs'⟩

/-- The observable behaviours of a relational specification: a command and an
output relate the abstract states before and after. -/
inductive Trace (spec : α → ι → ο → α → Prop) : α → List ι → List ο → α → Prop
  /-- Nothing happens. -/
  | nil (a : α) : Trace spec a [] [] a
  /-- One specified step, then the rest. -/
  | cons {a b c : α} {i : ι} {o : ο} {is : List ι} {os : List ο} :
      spec a i o b → Trace spec b is os c → Trace spec a (i :: is) (o :: os) c

/-- Forward simulation: if each step is matched by a specified step between
related states, each completed run is a trace of the specification. -/
theorem run_simulates {step : σ → ι → Except ε (ο × σ)} {spec : α → ι → ο → α → Prop}
    {R : σ → α → Prop}
    (hstep : ∀ s a i o s', R s a → step s i = .ok (o, s') → ∃ b, spec a i o b ∧ R s' b)
    {is : List ι} : ∀ {s s' : σ} {a : α} {os : List ο}, R s a →
      run step s is = .ok (os, s') → ∃ b, Trace spec a is os b ∧ R s' b := by
  induction is with
  | nil =>
    intro s s' a os hR h
    obtain ⟨rfl, rfl⟩ := Prod.mk.inj (Except.ok.inj h)
    exact ⟨a, .nil a, hR⟩
  | cons i is ih =>
    intro s s' a os hR h
    obtain ⟨o, t, os', ht, hr, rfl⟩ := run_cons_eq_ok.mp h
    obtain ⟨b, hb, hRb⟩ := hstep s a i o t hR ht
    obtain ⟨c, hc, hRc⟩ := ih hRb hr
    exact ⟨c, .cons hb hc, hRc⟩

/-- If from related states each allowed command is answered, by a step that the specification
matches, every run of allowed commands completes and is a trace of the specification. -/
theorem run_refines {step : σ → ι → Except ε (ο × σ)} {spec : α → ι → ο → α → Prop}
    {R : σ → α → Prop} {C : ι → Prop}
    (hstep : ∀ s a i, C i → R s a → ∃ o s' b, step s i = .ok (o, s') ∧ spec a i o b ∧ R s' b)
    {is : List ι} : ∀ {s : σ} {a : α}, (∀ i ∈ is, C i) → R s a →
      ∃ os s' b, run step s is = .ok (os, s') ∧ Trace spec a is os b ∧ R s' b := by
  induction is with
  | nil => exact fun {s a} _ hR => ⟨[], s, a, rfl, .nil a, hR⟩
  | cons i is ih =>
    intro s a hC hR
    obtain ⟨hi, his⟩ := List.forall_mem_cons.mp hC
    obtain ⟨o, t, b, ht, hb, hRb⟩ := hstep s a i hi hR
    obtain ⟨os, s', c, hr, hc, hRc⟩ := ih his hRb
    exact ⟨o :: os, s', c, run_cons_eq_ok.mpr ⟨o, t, os, ht, hr, rfl⟩, .cons hb hc, hRc⟩

/-- Two computations agree: both abort, or both answer alike and leave related states. -/
def Agree {ε' : Type*} (R : σ → α → Prop) : Except ε (ο × σ) → Except ε' (ο × α) → Prop
  | .ok (o, s), .ok (o', a) => o = o' ∧ R s a
  | .error _, .error _ => True
  | _, _ => False

/-- Bisimulation: two machines whose steps agree from related states have agreeing runs. -/
theorem run_agree {ε' : Type*} {step : σ → ι → Except ε (ο × σ)}
    {spec : α → ι → Except ε' (ο × α)} {R : σ → α → Prop}
    (hstep : ∀ s a i, R s a → Agree R (step s i) (spec a i)) (is : List ι) :
    ∀ {s : σ} {a : α}, R s a → Agree R (run step s is) (run spec a is) := by
  induction is with
  | nil => exact fun hR => ⟨rfl, hR⟩
  | cons i is ih =>
    intro s a hR
    have hi := hstep s a i hR
    cases hs : step s i with
    | error e =>
      cases ha : spec a i with
      | error e' => simp [run, hs, ha, Agree]
      | ok q =>
        rw [hs, ha] at hi
        exact hi.elim
    | ok p =>
      cases ha : spec a i with
      | error e' =>
        rw [hs, ha] at hi
        exact hi.elim
      | ok q =>
        rw [hs, ha] at hi
        have hrest := ih hi.2
        simp only [run, hs, ha]
        cases hr : run step p.2 is with
        | error e =>
          cases hr' : run spec q.2 is with
          | error e' => trivial
          | ok q' =>
            rw [hr, hr'] at hrest
            exact hrest.elim
        | ok p' =>
          cases hr' : run spec q.2 is with
          | error e' =>
            rw [hr, hr'] at hrest
            exact hrest.elim
          | ok q' =>
            rw [hr, hr'] at hrest
            exact ⟨congrArg₂ List.cons hi.1 hrest.1, hrest.2⟩

/-- The property holds in every state the run visits. -/
def Always (step : σ → ι → Except ε (ο × σ)) (P : σ → Prop) : σ → List ι → Prop
  | s, [] => P s
  | s, i :: is => P s ∧ ∀ o s', step s i = .ok (o, s') → Always step P s' is

/-- Every step of the run is taken from a state that meets the condition. -/
def Meets (step : σ → ι → Except ε (ο × σ)) (C : σ → ι → Prop) : σ → List ι → Prop
  | _, [] => True
  | s, i :: is => ∀ o s', step s i = .ok (o, s') → C s i ∧ Meets step C s' is

/-- If a step keeps the property exactly when its condition holds, the property
holds in every state visited exactly when every step meets the condition. -/
theorem always_iff_meets {step : σ → ι → Except ε (ο × σ)} {P : σ → Prop}
    {C : σ → ι → Prop}
    (hstep : ∀ s i o s', P s → step s i = .ok (o, s') → (P s' ↔ C s i)) (is : List ι) :
    ∀ {s : σ}, P s → (Always step P s is ↔ Meets step C s is) := by
  induction is with
  | nil => exact fun hs => ⟨fun _ => trivial, fun _ => hs⟩
  | cons i is ih =>
    intro s hs
    constructor
    · rintro ⟨-, ha⟩ o s' h
      have hP : P s' := by
        have := ha o s' h
        cases is with
        | nil => exact this
        | cons j js => exact this.1
      exact ⟨(hstep s i o s' hs h).mp hP, (ih hP).mp (ha o s' h)⟩
    · intro hm
      refine ⟨hs, fun o s' h => ?_⟩
      obtain ⟨hC, ht⟩ := hm o s' h
      exact (ih ((hstep s i o s' hs h).mpr hC)).mpr ht

/-- Two conditions on a step that say the same in every state that meets an invariant are met by
the same runs. -/
theorem meets_congr {step : σ → ι → Except ε (ο × σ)} {I : σ → Prop} {C D : σ → ι → Prop}
    (hstep : ∀ s i o s', I s → step s i = .ok (o, s') → I s')
    (hiff : ∀ s i, I s → (C s i ↔ D s i)) (is : List ι) :
    ∀ {s : σ}, I s → (Meets step C s is ↔ Meets step D s is) := by
  induction is with
  | nil => exact fun _ => Iff.rfl
  | cons i is ih =>
    intro s hs
    refine forall_congr' fun o => forall_congr' fun s' => forall_congr' fun h => ?_
    exact and_congr (hiff s i hs) (ih (hstep s i o s' hs h))

end Toolkit
