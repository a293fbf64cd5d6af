import CanonC.Toolkit.Control

/-!
# Cleanup behind a block

`DEFER` is a loop of one round with the cleanup in its increment. The cleanups of nested blocks
run from the inside out when the innermost block reaches its end; a `break` leaves out the one
of the block that it leaves, and a `return` leaves out all of them.
-/

namespace CanonC

open Toolkit

variable {σ β ε ρ : Type}

/-- `DEFER(cleanup_expr)` in front of a block. -/
def defer (cleanupExpr : σ → Except ε σ) (body : Stmt σ β ε ρ) : Stmt σ β ε ρ :=
  .loop 0 (fun i _ => i == 0) (fun _ s => (cleanupExpr s).map fun t => (1, t)) body

/-- Blocks in one another, the cleanup of the outermost one first. -/
def deferNest (cleanups : List (σ → Except ε σ)) (body : Stmt σ β ε ρ) : Stmt σ β ε ρ :=
  cleanups.foldr defer body

/-- Expressions one after the other, up to one that aborts. -/
def evalAll : List (σ → Except ε σ) → σ → Exit ε ρ × σ
  | [], s => (.fall, s)
  | f :: fs, s =>
    match f s with
    | .ok t => evalAll fs t
    | .error a => (.abort a, s)

/-- Expressions behind others, which are reached unless one of these aborts. -/
theorem evalAll_append (fs gs : List (σ → Except ε σ)) (s : σ) :
    (evalAll (fs ++ gs) s : Exit ε ρ × σ) =
      match (evalAll fs s : Exit ε ρ × σ) with
      | (.fall, t) => evalAll gs t
      | out => out := by
  induction fs generalizing s with
  | nil => rfl
  | cons f fs ih =>
    rw [List.cons_append, evalAll, evalAll]
    cases f s with
    | ok t => exact ih t
    | error a => rfl

/-- Expressions are left at their end, or the program ends. -/
theorem evalAll_exit (fs : List (σ → Except ε σ)) (s : σ) :
    (evalAll fs s : Exit ε ρ × σ).1 = .fall ∨
      ∃ a, (evalAll fs s : Exit ε ρ × σ).1 = .abort a := by
  induction fs generalizing s with
  | nil => exact Or.inl rfl
  | cons f fs ih =>
    rw [evalAll]
    cases f s with
    | ok t => exact ih t
    | error a => exact Or.inr ⟨a, rfl⟩

/-- What follows when the block behind `DEFER` is left. -/
def afterBlock (cleanupExpr : σ → Except ε σ) : Exit ε ρ × σ → Exit ε ρ × σ
  | (.fall, u) | (.cont, u) => evalAll [cleanupExpr] u
  | (.brk, u) => (.fall, u)
  | (.ret v, u) => (.ret v, u)
  | (.abort a, u) => (.abort a, u)

/-- The executions of a block with a cleanup are those of the block and what follows. -/
theorem exec_defer_iff {cleanupExpr : σ → Except ε σ} {body : Stmt σ β ε ρ} {s t : σ}
    {e : Exit ε ρ} : Exec (defer cleanupExpr body) s e t ↔
      ∃ e' u, Exec body s e' u ∧ afterBlock cleanupExpr (e', u) = (e, t) := by
  have hover {v w : σ} {e : Exit ε ρ} : Exec (.loop 1 (fun i _ => i == 0)
      (fun _ s => (cleanupExpr s).map fun t => (1, t)) body) v e w ↔ e = .fall ∧ w = v := by
    rw [exec_loop_iff, or_iff_left (fun h => nomatch h.1)]
    exact and_iff_right rfl
  -- What the increment does decides on the way out at the end of the block.
  have hincrement (u : σ) : (∃ j v, (cleanupExpr u).map (fun t => ((1 : Int), t)) = .ok (j, v) ∧
        Exec (.loop j (fun i _ => i == 0) (fun _ s => (cleanupExpr s).map fun t => (1, t)) body)
          v e t) ∨
      (∃ a, (cleanupExpr u).map (fun t => ((1 : Int), t)) = .error a ∧ e = .abort a ∧ t = u) ↔
      evalAll [cleanupExpr] u = (e, t) := by
    rw [evalAll]
    cases hc : cleanupExpr u with
    | ok v =>
      constructor
      · rintro (⟨j, w, hw, hrest⟩ | ⟨a, ha, -⟩)
        · obtain ⟨rfl, rfl⟩ := Prod.mk.inj (Except.ok.inj hw)
          obtain ⟨rfl, rfl⟩ := hover.mp hrest
          rfl
        · cases ha
      · intro h
        obtain ⟨rfl, rfl⟩ := Prod.mk.inj h
        exact Or.inl ⟨1, _, rfl, hover.mpr ⟨rfl, rfl⟩⟩
    | error a =>
      constructor
      · rintro (⟨j, w, hw, -⟩ | ⟨a', ha, rfl, rfl⟩)
        · cases hw
        · rw [Except.error.inj ha]
      · intro h
        obtain ⟨rfl, rfl⟩ := Prod.mk.inj h
        exact Or.inr ⟨a, rfl, rfl, rfl⟩
  rw [defer, exec_loop_iff, or_iff_right (fun h => nomatch h.1),
    and_iff_right (show ((0 : Int) == 0) = true from rfl)]
  refine exists_congr fun e' => exists_congr fun u => and_congr_right fun _ => ?_
  rw [hincrement u]
  cases e' with
  | fall => simp [afterBlock]
  | cont => simp [afterBlock]
  | brk => simp [afterBlock, eq_comm]
  | ret v => simp [afterBlock, eq_comm]
  | abort a => simp [afterBlock, eq_comm]

/-- What follows when the innermost of some blocks is left: the cleanups from the inside out, all of
them at its end or by `continue`, all but the innermost one by `break`, and none otherwise. -/
def unwound (cleanups : List (σ → Except ε σ)) : Exit ε ρ × σ → Exit ε ρ × σ
  | (.fall, u) | (.cont, u) => evalAll cleanups.reverse u
  | (.brk, u) => evalAll cleanups.dropLast.reverse u
  | (.ret v, u) => (.ret v, u)
  | (.abort a, u) => (.abort a, u)

/-- Behind the expressions of the inner blocks comes the one of the outer block. -/
theorem afterBlock_evalAll (cleanupExpr : σ → Except ε σ) (fs : List (σ → Except ε σ)) (s : σ) :
    afterBlock cleanupExpr (evalAll fs s : Exit ε ρ × σ) = evalAll (fs ++ [cleanupExpr]) s := by
  rw [evalAll_append]
  have hexit := @evalAll_exit _ _ ρ fs s
  generalize (evalAll fs s : Exit ε ρ × σ) = out at hexit ⊢
  obtain ⟨e, t⟩ := out
  rcases hexit with rfl | ⟨a, rfl⟩
  · rfl
  · rfl

/-- An inner nest is left, and then the outer block. -/
theorem afterBlock_unwound (cleanupExpr : σ → Except ε σ) {cleanups : List (σ → Except ε σ)}
    (hne : cleanups ≠ []) (out : Exit ε ρ × σ) :
    afterBlock cleanupExpr (unwound cleanups out) = unwound (cleanupExpr :: cleanups) out := by
  obtain ⟨e, u⟩ := out
  cases e with
  | fall => rw [unwound, unwound, afterBlock_evalAll, List.reverse_cons]
  | cont => rw [unwound, unwound, afterBlock_evalAll, List.reverse_cons]
  | brk => rw [unwound, unwound, afterBlock_evalAll, List.dropLast_cons_of_ne_nil hne,
      List.reverse_cons]
  | ret v => rfl
  | abort a => rfl

/-- No jump inside a loop is left over. -/
theorem unwound_exit (cleanups : List (σ → Except ε σ)) (out : Exit ε ρ × σ) :
    (unwound cleanups out).1 ≠ .brk ∧ (unwound cleanups out).1 ≠ .cont := by
  obtain ⟨e, u⟩ := out
  have heval (fs : List (σ → Except ε σ)) :
      (evalAll fs u : Exit ε ρ × σ).1 ≠ .brk ∧ (evalAll fs u : Exit ε ρ × σ).1 ≠ .cont := by
    rcases @evalAll_exit _ _ ρ fs u with hfall | ⟨a, habort⟩
    · rw [hfall]
      exact ⟨nofun, nofun⟩
    · rw [habort]
      exact ⟨nofun, nofun⟩
  cases e with
  | fall => exact heval _
  | cont => exact heval _
  | brk => exact heval _
  | ret v => exact ⟨nofun, nofun⟩
  | abort a => exact ⟨nofun, nofun⟩

/-- In every nest of `DEFER` blocks around any statement, the cleanups run once each from the
inside out when the statement reaches its end or a `continue`, all but the innermost one after a
`break`, and none after a `return` or when the program ends, and behind a cleanup that ends the
program no other one runs. No `break` and no `continue` gets out of the nest, so a surrounding loop
goes on behind it. -/
theorem deferNest_unwinds {cleanups : List (σ → Except ε σ)} (hne : cleanups ≠ [])
    (body : Stmt σ β ε ρ) (s : σ) :
    (∀ e t, Exec (deferNest cleanups body) s e t ↔
      ∃ e' u, Exec body s e' u ∧ unwound cleanups (e', u) = (e, t)) ∧
    (∀ t, ¬ Exec (deferNest cleanups body) s .brk t ∧
      ¬ Exec (deferNest cleanups body) s .cont t) ∧
    ∀ next e t, Exec (.seq (deferNest cleanups body) next) s e t → e = .brk ∨ e = .cont →
      ∃ u, Exec (deferNest cleanups body) s .fall u ∧ Exec next u e t := by
  have hexec : ∀ e t, Exec (deferNest cleanups body) s e t ↔
      ∃ e' u, Exec body s e' u ∧ unwound cleanups (e', u) = (e, t) := by
    induction cleanups with
    | nil => exact absurd rfl hne
    | cons cleanupExpr cleanups ih =>
      intro e t
      rw [deferNest, List.foldr_cons, exec_defer_iff]
      by_cases hrest : cleanups = []
      · subst hrest
        refine exists_congr fun e' => exists_congr fun u => and_congr_right fun _ => ?_
        cases e' <;> rfl
      · simp only [← afterBlock_unwound cleanupExpr hrest]
        constructor
        · rintro ⟨e₁, u₁, hinner, hafter⟩
          obtain ⟨e', u, hbody, hleft⟩ := (ih hrest e₁ u₁).mp hinner
          exact ⟨e', u, hbody, by rw [hleft, hafter]⟩
        · rintro ⟨e', u, hbody, hafter⟩
          exact ⟨_, _, (ih hrest _ _).mpr ⟨e', u, hbody, rfl⟩, hafter⟩
  have hinside : ∀ t, ¬ Exec (deferNest cleanups body) s .brk t ∧
      ¬ Exec (deferNest cleanups body) s .cont t := by
    intro t
    constructor
    · intro h
      obtain ⟨e', u, -, hleft⟩ := (hexec _ _).mp h
      exact (unwound_exit cleanups (e', u)).1 (congrArg Prod.fst hleft)
    · intro h
      obtain ⟨e', u, -, hleft⟩ := (hexec _ _).mp h
      exact (unwound_exit cleanups (e', u)).2 (congrArg Prod.fst hleft)
  refine ⟨hexec, hinside, fun next e t hseq hexit => ?_⟩
  cases hseq with
  | seq hnest hnext => exact ⟨_, hnest, hnext⟩
  | seqLeave _ hnest =>
    rcases hexit with rfl | rfl
    · exact absurd hnest (hinside t).1
    · exact absurd hnest (hinside t).2

/-- A trace of two blocks: the inner cleanup runs after a `continue` and not after a `break`. -/
theorem deferNest_unwinds_trace :
    let append (n : Nat) (trace : List Nat) : Except String (List Nat) := .ok (trace ++ [n])
    let block (jump : Stmt (List Nat) Unit String Unit) := deferNest [append 1, append 2]
      (.seq (.expr (append 0)) jump)
    Exec (block .cont) [] .fall [0, 2, 1] ∧ Exec (block .brk) [] .fall [0, 1] ∧
      Exec (block (.ret fun _ => ())) [] (.ret ()) [0] := by
  intro append block
  have h (jump : Stmt (List Nat) Unit String Unit) :=
    @deferNest_unwinds (List Nat) Unit String Unit [append 1, append 2] (List.cons_ne_nil _ _)
      (.seq (.expr (append 0)) jump) []
  refine ⟨?_, ?_, ?_⟩
  · exact ((h .cont).1 _ _).mpr ⟨.cont, [0], .seq (.expr rfl) .cont, rfl⟩
  · exact ((h .brk).1 _ _).mpr ⟨.brk, [0], .seq (.expr rfl) .brk, rfl⟩
  · exact ((h (.ret fun _ => ())).1 _ _).mpr ⟨.ret (), [0], .seq (.expr rfl) .ret, rfl⟩

end CanonC
