import Mathlib.Tactic.Common

/-!
# Statements and the ways out of them

Structured statements over a state: expressions that may abort, sequences, branches, loops
with a counter of their own, and the jumps that leave a loop or the function. A statement
relates a state to the ways out of it and the states behind them; one that does not end has
none. The rules say what any execution of a compound statement keeps when its parts keep it.
-/

namespace Toolkit

/-- How a statement is left. -/
inductive Exit (ε ρ : Type*) where
  /-- At its end. -/
  | fall
  /-- By `break`. -/
  | brk
  /-- By `continue`. -/
  | cont
  /-- By `return`. -/
  | ret (value : ρ)
  /-- The program ends. -/
  | abort (error : ε)
  deriving DecidableEq

/-- Statements over a state; a value read from the state can be bound. -/
inductive Stmt (σ β ε ρ : Type) where
  /-- An expression evaluated for its effect. -/
  | expr (f : σ → Except ε σ)
  /-- A local constant. -/
  | letVal (read : σ → β) (body : β → Stmt σ β ε ρ)
  /-- One statement after the other. -/
  | seq (p q : Stmt σ β ε ρ)
  /-- `if` and `else`. -/
  | ite (test : σ → Bool) (p q : Stmt σ β ε ρ)
  /-- `for` with the counter `i`, which the body does not change. -/
  | loop (i : Int) (test : Int → σ → Bool) (next : Int → σ → Except ε (Int × σ))
      (body : Stmt σ β ε ρ)
  /-- `break` -/
  | brk
  /-- `continue` -/
  | cont
  /-- `return` -/
  | ret (value : σ → ρ)

variable {σ β ε ρ : Type} {p q body : Stmt σ β ε ρ} {s t : σ} {e : Exit ε ρ}

/-- The executions of a statement. -/
inductive Exec : Stmt σ β ε ρ → σ → Exit ε ρ → σ → Prop
  /-- The expression has its effect. -/
  | expr {f : σ → Except ε σ} {s t : σ} : f s = .ok t → Exec (.expr f) s .fall t
  /-- The expression aborts. -/
  | exprAbort {f : σ → Except ε σ} {s : σ} {a : ε} : f s = .error a →
      Exec (.expr f) s (.abort a) s
  /-- The value is bound. -/
  | letVal {read : σ → β} {body : β → Stmt σ β ε ρ} {s t : σ} {e : Exit ε ρ} :
      Exec (body (read s)) s e t → Exec (.letVal read body) s e t
  /-- The first statement ends and the second one follows. -/
  | seq {p q : Stmt σ β ε ρ} {s u t : σ} {e : Exit ε ρ} :
      Exec p s .fall u → Exec q u e t → Exec (.seq p q) s e t
  /-- The first statement is left by a jump. -/
  | seqLeave {p q : Stmt σ β ε ρ} {s t : σ} {e : Exit ε ρ} :
      e ≠ .fall → Exec p s e t → Exec (.seq p q) s e t
  /-- One of the branches. -/
  | ite {test : σ → Bool} {p q : Stmt σ β ε ρ} {s t : σ} {e : Exit ε ρ} :
      Exec (bif test s then p else q) s e t → Exec (.ite test p q) s e t
  /-- The loop is over. -/
  | loopDone {i : Int} {test : Int → σ → Bool} {next : Int → σ → Except ε (Int × σ)}
      {body : Stmt σ β ε ρ} {s : σ} : test i s = false → Exec (.loop i test next body) s .fall s
  /-- A round that reaches the increment, and the rounds behind it. -/
  | loopNext {i j : Int} {test : Int → σ → Bool} {next : Int → σ → Except ε (Int × σ)}
      {body : Stmt σ β ε ρ} {s u v t : σ} {e e' : Exit ε ρ} : test i s = true →
      Exec body s e' u → e' = .fall ∨ e' = .cont → next i u = .ok (j, v) →
      Exec (.loop j test next body) v e t → Exec (.loop i test next body) s e t
  /-- The increment aborts. -/
  | loopAbort {i : Int} {test : Int → σ → Bool} {next : Int → σ → Except ε (Int × σ)}
      {body : Stmt σ β ε ρ} {s u : σ} {e' : Exit ε ρ} {a : ε} : test i s = true →
      Exec body s e' u → e' = .fall ∨ e' = .cont → next i u = .error a →
      Exec (.loop i test next body) s (.abort a) u
  /-- The body leaves the loop by `break`. -/
  | loopBrk {i : Int} {test : Int → σ → Bool} {next : Int → σ → Except ε (Int × σ)}
      {body : Stmt σ β ε ρ} {s t : σ} : test i s = true → Exec body s .brk t →
      Exec (.loop i test next body) s .fall t
  /-- The body leaves more than the loop. -/
  | loopLeave {i : Int} {test : Int → σ → Bool} {next : Int → σ → Except ε (Int × σ)}
      {body : Stmt σ β ε ρ} {s t : σ} {e : Exit ε ρ} : test i s = true → Exec body s e t →
      e ≠ .fall → e ≠ .cont → e ≠ .brk → Exec (.loop i test next body) s e t
  /-- `break` -/
  | brk {s : σ} : Exec .brk s .brk s
  /-- `continue` -/
  | cont {s : σ} : Exec .cont s .cont s
  /-- `return` -/
  | ret {value : σ → ρ} {s : σ} : Exec (.ret value) s (.ret (value s)) s

/-- An execution of a loop is over, or it starts with a round. -/
theorem exec_loop_iff {i : Int} {test : Int → σ → Bool} {next : Int → σ → Except ε (Int × σ)} :
    Exec (.loop i test next body) s e t ↔
      (test i s = false ∧ e = .fall ∧ t = s) ∨
      (test i s = true ∧ ∃ e' u, Exec body s e' u ∧
        ((e' = .fall ∨ e' = .cont) ∧
            ((∃ j v, next i u = .ok (j, v) ∧ Exec (.loop j test next body) v e t) ∨
              ∃ a, next i u = .error a ∧ e = .abort a ∧ t = u) ∨
          e' = .brk ∧ e = .fall ∧ t = u ∨
          e' ≠ .fall ∧ e' ≠ .cont ∧ e' ≠ .brk ∧ e = e' ∧ t = u)) := by
  constructor
  · intro h
    cases h with
    | loopDone htest => exact Or.inl ⟨htest, rfl, rfl⟩
    | loopNext htest hbody hexit hnext hrest =>
      exact Or.inr ⟨htest, _, _, hbody, Or.inl ⟨hexit, Or.inl ⟨_, _, hnext, hrest⟩⟩⟩
    | loopAbort htest hbody hexit hnext =>
      exact Or.inr ⟨htest, _, _, hbody, Or.inl ⟨hexit, Or.inr ⟨_, hnext, rfl, rfl⟩⟩⟩
    | loopBrk htest hbody =>
      exact Or.inr ⟨htest, _, _, hbody, Or.inr (Or.inl ⟨rfl, rfl, rfl⟩)⟩
    | loopLeave htest hbody hfall hcont hbrk =>
      exact Or.inr ⟨htest, _, _, hbody, Or.inr (Or.inr ⟨hfall, hcont, hbrk, rfl, rfl⟩)⟩
  · rintro (⟨htest, rfl, rfl⟩ | ⟨htest, e', u, hbody, hround⟩)
    · exact .loopDone htest
    · rcases hround with ⟨hexit, ⟨j, v, hnext, hrest⟩ | ⟨a, hnext, rfl, rfl⟩⟩ | hround
      · exact .loopNext htest hbody hexit hnext hrest
      · exact .loopAbort htest hbody hexit hnext
      · rcases hround with ⟨rfl, rfl, rfl⟩ | ⟨hfall, hcont, hbrk, rfl, rfl⟩
        · exact .loopBrk htest hbody
        · exact .loopLeave htest hbody hfall hcont hbrk

/-- From states that meet an invariant every execution of the statement keeps it, relates the states
before and behind it, and does not abort. -/
def Keeps (I : σ → Prop) (R : σ → σ → Prop) (p : Stmt σ β ε ρ) : Prop :=
  ∀ s e t, I s → Exec p s e t → I t ∧ R s t ∧ ∀ a, e ≠ .abort a

namespace Keeps

variable {I : σ → Prop} {R : σ → σ → Prop}

/-- An expression keeps the invariant where it is evaluated without a fault. -/
theorem expr {f : σ → Except ε σ} (hf : ∀ s, I s → ∃ t, f s = .ok t ∧ I t ∧ R s t) :
    Keeps I R (.expr f : Stmt σ β ε ρ) := by
  intro s e t hs h
  obtain ⟨u, hu, hI, hR⟩ := hf s hs
  cases h with
  | expr ht =>
    obtain rfl := Except.ok.inj (hu.symm.trans ht)
    exact ⟨hI, hR, nofun⟩
  | exprAbort ha => cases hu.symm.trans ha

/-- Jumps change nothing. -/
theorem jump (hrefl : ∀ s, R s s) : Keeps I R (.brk : Stmt σ β ε ρ) ∧
    Keeps I R (.cont : Stmt σ β ε ρ) ∧ ∀ value, Keeps I R (.ret value : Stmt σ β ε ρ) := by
  refine ⟨?_, ?_, fun value => ?_⟩
  all_goals
    intro s e t hs h
    cases h
    exact ⟨hs, hrefl s, nofun⟩

/-- Two statements one after the other. -/
theorem seq (htrans : ∀ s t u, R s t → R t u → R s u) (hp : Keeps I R p) (hq : Keeps I R q) :
    Keeps I R (.seq p q) := by
  intro s e t hs h
  cases h with
  | seq hfirst hsecond =>
    obtain ⟨hu, hsu, -⟩ := hp s _ _ hs hfirst
    obtain ⟨ht, hut, hexit⟩ := hq _ e t hu hsecond
    exact ⟨ht, htrans _ _ _ hsu hut, hexit⟩
  | seqLeave _ hfirst => exact hp s e t hs hfirst

/-- Either branch keeps the invariant. -/
theorem ite {test : σ → Bool} (hp : Keeps I R p) (hq : Keeps I R q) :
    Keeps I R (.ite test p q) := by
  intro s e t hs h
  cases h with
  | ite hbranch =>
    cases hc : test s with
    | true =>
      rw [hc] at hbranch
      exact hp s e t hs hbranch
    | false =>
      rw [hc] at hbranch
      exact hq s e t hs hbranch

/-- A loop keeps what its body and its increment keep. -/
theorem loop {i : Int} {test : Int → σ → Bool} {next : Int → σ → Except ε (Int × σ)}
    (hrefl : ∀ s, R s s) (htrans : ∀ s t u, R s t → R t u → R s u) (hbody : Keeps I R body)
    (hnext : ∀ i s, I s → ∃ j t, next i s = .ok (j, t) ∧ I t ∧ R s t) :
    Keeps I R (.loop i test next body) := by
  intro s e t hs h
  generalize hloop : (Stmt.loop i test next body : Stmt σ β ε ρ) = whole at h
  -- On the execution: each round that reaches the increment leaves an execution of the loop.
  induction h generalizing i with
  | loopDone htest => exact ⟨hs, hrefl _, nofun⟩
  | loopNext htest hround hexit hinc hrest _ ih =>
    obtain ⟨rfl, rfl, rfl, rfl⟩ := Stmt.loop.inj hloop
    obtain ⟨hu, hsu, -⟩ := hbody _ _ _ hs hround
    obtain ⟨j, v, hv, hIv, huv⟩ := hnext i _ hu
    obtain ⟨rfl, rfl⟩ := Prod.mk.inj (Except.ok.inj (hv.symm.trans hinc))
    obtain ⟨ht, hvt, hfine⟩ := ih hIv rfl
    exact ⟨ht, htrans _ _ _ hsu (htrans _ _ _ huv hvt), hfine⟩
  | loopAbort htest hround hexit hinc =>
    obtain ⟨rfl, rfl, rfl, rfl⟩ := Stmt.loop.inj hloop
    obtain ⟨hu, -, -⟩ := hbody _ _ _ hs hround
    obtain ⟨j, v, hv, -⟩ := hnext i _ hu
    cases hv.symm.trans hinc
  | loopBrk htest hround =>
    obtain ⟨rfl, rfl, rfl, rfl⟩ := Stmt.loop.inj hloop
    obtain ⟨ht, hst, -⟩ := hbody _ _ _ hs hround
    exact ⟨ht, hst, nofun⟩
  | loopLeave htest hround =>
    obtain ⟨rfl, rfl, rfl, rfl⟩ := Stmt.loop.inj hloop
    exact hbody _ _ _ hs hround
  | _ => cases hloop

end Keeps

/-- Run a statement with so many nested steps at most. -/
def Stmt.exec : Nat → Stmt σ β ε ρ → σ → Option (Exit ε ρ × σ)
  | 0, _, _ => none
  | _ + 1, .expr f, s =>
    match f s with
    | .ok t => some (.fall, t)
    | .error a => some (.abort a, s)
  | fuel + 1, .letVal read body, s => (body (read s)).exec fuel s
  | fuel + 1, .seq p q, s =>
    match p.exec fuel s with
    | some (.fall, u) => q.exec fuel u
    | out => out
  | fuel + 1, .ite test p q, s => (bif test s then p else q).exec fuel s
  | fuel + 1, .loop i test next body, s =>
    if test i s then
      match body.exec fuel s with
      | none => none
      | some (.brk, u) => some (.fall, u)
      | some (.ret v, u) => some (.ret v, u)
      | some (.abort a, u) => some (.abort a, u)
      | some (_, u) =>
        match next i u with
        | .ok (j, v) => (Stmt.loop j test next body).exec fuel v
        | .error a => some (.abort a, u)
    else some (.fall, s)
  | _ + 1, .brk, s => some (.brk, s)
  | _ + 1, .cont, s => some (.cont, s)
  | _ + 1, .ret value, s => some (.ret (value s), s)

/-- What a run ends in is an execution. -/
theorem Stmt.exec_sound {fuel : Nat} : ∀ {p : Stmt σ β ε ρ} {s t : σ} {e : Exit ε ρ},
    p.exec fuel s = some (e, t) → Exec p s e t := by
  induction fuel with
  | zero => exact fun h => nomatch h
  | succ fuel ih =>
    intro p s t e h
    cases p with
    | expr f =>
      rw [exec] at h
      split at h
      · next hf =>
        obtain ⟨rfl, rfl⟩ := Prod.mk.inj (Option.some.inj h)
        exact .expr hf
      · next hf =>
        obtain ⟨rfl, rfl⟩ := Prod.mk.inj (Option.some.inj h)
        exact .exprAbort hf
    | letVal read body => exact .letVal (ih h)
    | seq p q =>
      rw [exec] at h
      split at h
      · next hp => exact .seq (ih hp) (ih h)
      · next hp =>
        refine .seqLeave (fun hfall => ?_) (ih h)
        exact hp t (by rw [h, hfall])
    | ite test p q => exact .ite (ih h)
    | loop i test next body =>
      -- A round that reaches the increment.
      have ends {u : σ} {e' : Exit ε ρ} (htest : test i s = true) (hround : Exec body s e' u)
          (hexit : e' = .fall ∨ e' = .cont) (h : (match next i u with
            | .ok (j, v) => (Stmt.loop j test next body).exec fuel v
            | .error a => some (.abort a, u)) = some (e, t)) :
          Exec (.loop i test next body) s e t := by
        split at h
        · next hnext => exact .loopNext htest hround hexit hnext (ih h)
        · next hnext =>
          obtain ⟨rfl, rfl⟩ := Prod.mk.inj (Option.some.inj h)
          exact .loopAbort htest hround hexit hnext
      rw [exec] at h
      split at h
      · next htest =>
        cases hbody : body.exec fuel s with
        | none =>
          rw [hbody] at h
          cases h
        | some out =>
          obtain ⟨e', u⟩ := out
          rw [hbody] at h
          have hround := ih hbody
          cases e' with
          | brk =>
            obtain ⟨rfl, rfl⟩ := Prod.mk.inj (Option.some.inj h)
            exact .loopBrk htest hround
          | ret v =>
            obtain ⟨rfl, rfl⟩ := Prod.mk.inj (Option.some.inj h)
            exact .loopLeave htest hround nofun nofun nofun
          | abort a =>
            obtain ⟨rfl, rfl⟩ := Prod.mk.inj (Option.some.inj h)
            exact .loopLeave htest hround nofun nofun nofun
          | fall => exact ends htest hround (Or.inl rfl) h
          | cont => exact ends htest hround (Or.inr rfl) h
      · next htest =>
        obtain ⟨rfl, rfl⟩ := Prod.mk.inj (Option.some.inj h)
        exact .loopDone (by simpa using htest)
    | brk =>
      obtain ⟨rfl, rfl⟩ := Prod.mk.inj (Option.some.inj h)
      exact .brk
    | cont =>
      obtain ⟨rfl, rfl⟩ := Prod.mk.inj (Option.some.inj h)
      exact .cont
    | ret value =>
      obtain ⟨rfl, rfl⟩ := Prod.mk.inj (Option.some.inj h)
      exact .ret

end Toolkit
