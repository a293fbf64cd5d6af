import CanonC.Core.Arena.Regions
import CanonC.Core.Scope

/-!
# Checkpoints of an arena

A block behind `DEFER` that resets the arena to a mark taken in front of it. The programs
here allocate, test, loop and jump in any way and nest such blocks; nothing else rolls the
arena back.
-/

namespace CanonC

open Toolkit

/-- A call that requests memory at a power of two. -/
def ArenaOp.IsRequest (op : ArenaOp) : Bool :=
  match op.request with
  | some (_, alignment) => isPowerOfTwo alignment
  | none => false

/-- Programs over an arena and the other variables of their caller. -/
inductive ArenaProg (κ ρ : Type) where
  /-- A request, whose answer goes to the variables. -/
  | alloc (op : { op : ArenaOp // op.IsRequest = true }) (use : ArenaOut → κ → κ)
  /-- Anything that changes variables and memory and leaves the arena alone. -/
  | other (f : Memory → κ → Memory × κ)
  /-- One after the other. -/
  | seq (p q : ArenaProg κ ρ)
  /-- `if` and `else`. -/
  | ite (test : κ → Bool) (p q : ArenaProg κ ρ)
  /-- `for` -/
  | loop (i : Int) (test : Int → κ → Bool) (next : Int → Int) (body : ArenaProg κ ρ)
  /-- `break` -/
  | brk
  /-- `continue` -/
  | cont
  /-- `return` -/
  | ret (value : κ → ρ)
  /-- `ArenaMark mark = arena_mark(&arena); DEFER(arena_reset_to(&arena, mark)) { … }` -/
  | checkpoint (body : ArenaProg κ ρ)

namespace ArenaProg

variable {κ ρ : Type}

/-- A call as an expression. -/
def call (op : ArenaOp) (use : ArenaOut → κ → κ) (s : ArenaState × κ) :
    Except String (ArenaState × κ) := do
  let (o, t) ← arenaLiveStep s.1 op
  .ok (t, use o s.2)

/-- The mark of an arena is a `usize`. -/
def markOf (arena : Arena) : Usize :=
  ⟨arenaMark arena, by
    have hmax := usizeMax_succ
    have htop := arena.top_le
    unfold Arena.top at htop
    unfold arenaMark
    omega⟩

/-- The statement that a program is. -/
def stmt : ArenaProg κ ρ → Stmt (ArenaState × κ) Usize String ρ
  | alloc op use => .expr (call op.val use)
  | other f => .expr fun s =>
    .ok ({ s.1 with mem := (f s.1.mem s.2).1 }, (f s.1.mem s.2).2)
  | seq p q => .seq p.stmt q.stmt
  | ite test p q => .ite (fun s => test s.2) p.stmt q.stmt
  | loop i test next body =>
    .loop i (fun i s => test i s.2) (fun i s => .ok (next i, s)) body.stmt
  | brk => .brk
  | cont => .cont
  | ret value => .ret fun s => value s.2
  | checkpoint body => .letVal (fun s => markOf s.1.arena) fun mark =>
    defer (call (.resetTo mark) fun _ => id) body.stmt

end ArenaProg

/-- The second state has the blocks of the first one, and blocks above its bump pointer. -/
structure ArenaState.Grows (s t : ArenaState) : Prop where
  /-- The buffer is the same. -/
  buffer_eq : t.arena.buffer = s.arena.buffer
  /-- The bump pointer has not moved down. -/
  offset_le : s.arena.offset ≤ t.arena.offset
  /-- What is in use was in use before or lies above the bump pointer. -/
  live_eq : ∃ new, t.live = new ++ s.live ∧ ∀ b ∈ new, s.arena.top ≤ b.start ∧ 0 < b.size

namespace ArenaState.Grows

variable {s t u : ArenaState}

/-- A state is a growth of itself. -/
theorem refl (s : ArenaState) : s.Grows s :=
  ⟨rfl, Nat.le_refl _, [], rfl, fun _ h => nomatch h⟩

/-- Growth moves the next free address up. -/
theorem top_le (h : s.Grows t) : s.arena.top ≤ t.arena.top := by
  unfold Arena.top
  rw [h.buffer_eq]
  exact Nat.add_le_add_left h.offset_le _

/-- A growth of a growth. -/
theorem trans (h : s.Grows t) (h' : t.Grows u) : s.Grows u := by
  obtain ⟨new, hlive, hnew⟩ := h.live_eq
  obtain ⟨new', hlive', hnew'⟩ := h'.live_eq
  refine ⟨h'.buffer_eq.trans h.buffer_eq, h.offset_le.trans h'.offset_le, new' ++ new,
    by rw [hlive', hlive, List.append_assoc], fun b hb => ?_⟩
  rcases List.mem_append.mp hb with hb | hb
  · exact ⟨h.top_le.trans (hnew' b hb).1, (hnew' b hb).2⟩
  · exact hnew b hb

/-- A request adds the block that it is granted, if any. -/
theorem request (s : ArenaState) {op : ArenaOp} (hop : op.IsRequest = true) :
    ∃ o t, arenaLiveStep s op = .ok (o, t) ∧ s.Grows t := by
  unfold ArenaOp.IsRequest at hop
  cases hreq : op.request with
  | none =>
    rw [hreq] at hop
    cases hop
  | some r =>
    obtain ⟨size, alignment⟩ := r
    rw [hreq] at hop
    obtain ⟨p, t, hstep, hgrants, hlive, hnull⟩ := arenaLiveStep_request s hreq hop
    refine ⟨.ptr p, t, hstep, ?_⟩
    rcases hgrants with ⟨⟨hsize, -⟩, hp, hbuffer, -, htop⟩ | ⟨-, hp, -⟩
    · have hpos := s.arena.buffer_pos
      have hp0 : p ≠ 0 := by
        unfold Arena.top at hp
        omega
      refine ⟨hbuffer, ?_, [⟨p, size⟩], ?_, fun b hb => ?_⟩
      · unfold Arena.top at hp htop
        omega
      · rw [hlive, if_neg hp0]
        rfl
      · rw [List.mem_singleton.mp hb]
        exact ⟨by rw [hp]; exact Nat.le_add_right _ _, hsize⟩
    · rw [hnull hp]
      exact refl s

/-- A reset to the mark of the first state takes back what was added since. -/
theorem undone {buffer capacity : Nat} (hs : s.Sound buffer capacity) (h : s.Grows t) :
    ∃ u, arenaLiveStep t (.resetTo (ArenaProg.markOf s.arena)) = .ok (.done, u) ∧
      u.arena.offset = s.arena.offset ∧ u.live = s.live ∧ u.mem = t.mem := by
  obtain ⟨new, hlive, hnew⟩ := h.live_eq
  obtain ⟨rolled, hrolled, -, -, hoffset⟩ :=
    @Arena.resetTo_eq t.arena (ArenaProg.markOf s.arena).val h.offset_le
  refine ⟨⟨rolled, t.mem, t.live.filter fun b => b.stop ≤ t.arena.buffer + s.arena.offset⟩, ?_,
    hoffset, ?_, rfl⟩
  · rw [arenaLiveStep, arenaStep, hrolled]
    rfl
  · have htop : t.arena.buffer + s.arena.offset = s.arena.top := by
      rw [h.buffer_eq]
      rfl
    have hdropped : new.filter (fun b => b.stop ≤ s.arena.top) = [] := by
      refine List.filter_eq_nil_iff.mpr fun b hb => ?_
      obtain ⟨hstart, hsize⟩ := hnew b hb
      have hstop : b.stop = b.start + b.size := rfl
      simp only [decide_eq_true_eq]
      omega
    have hkept : s.live.filter (fun b => b.stop ≤ s.arena.top) = s.live :=
      List.filter_eq_self.mpr fun b hb => decide_eq_true (hs.stacked.within b hb).2
    simp only [htop, hlive, List.filter_append, hdropped, hkept, List.nil_append]

end ArenaState.Grows

section Programs

variable {κ ρ : Type} {buffer capacity : Nat}

/-- An execution of a checkpoint is one of its body, and behind an end of the body the arena has the
mark and the blocks it had in front of it. -/
theorem exec_checkpoint {body : ArenaProg κ ρ} {s t : ArenaState} {k l : κ} {e : Exit String ρ}
    (hbody : Keeps (fun s => s.1.Sound buffer capacity) (fun s t => s.1.Grows t.1) body.stmt)
    (hs : s.Sound buffer capacity) (h : Exec (ArenaProg.checkpoint body).stmt (s, k) e (t, l)) :
    ∃ e' u, Exec body.stmt (s, k) e' (u, l) ∧ t.mem = u.mem ∧ t.Sound buffer capacity ∧
      ((e' = .fall ∨ e' = .cont) ∧ e = .fall ∧ t.arena.offset = s.arena.offset ∧
          t.live = s.live ∨
        e' = .brk ∧ e = .fall ∧ t = u ∨ (∃ v, e' = .ret v ∧ e = .ret v) ∧ t = u) := by
  obtain ⟨e', ⟨u, m⟩, hinner, hafter⟩ : ∃ e' u, Exec body.stmt (s, k) e' u ∧
      afterBlock (ArenaProg.call (.resetTo (ArenaProg.markOf s.arena)) fun _ => id) (e', u) =
        (e, (t, l)) := by
    cases h with
    | letVal hscope => exact exec_defer_iff.mp hscope
  obtain ⟨hu, hgrows, hfine⟩ := hbody _ _ _ hs hinner
  obtain ⟨v, hreset, hoffset, hlive, hmem⟩ := hgrows.undone hs
  have hv := arenaLiveStep_sound hu hreset
  have hcall : ArenaProg.call (.resetTo (ArenaProg.markOf s.arena)) (fun _ => id) (u, m) =
      .ok (v, m) := by
    rw [ArenaProg.call, hreset]
    rfl
  have hend : evalAll [ArenaProg.call (.resetTo (ArenaProg.markOf s.arena)) fun _ => id] (u, m) =
      ((.fall, (v, m)) : Exit String ρ × ArenaState × κ) := by
    rw [evalAll, hcall]
    rfl
  cases e' with
  | fall =>
    rw [afterBlock, hend] at hafter
    obtain ⟨rfl, hstate⟩ := Prod.mk.inj hafter
    obtain ⟨rfl, rfl⟩ := Prod.mk.inj hstate
    exact ⟨.fall, u, hinner, hmem, hv, Or.inl ⟨Or.inl rfl, rfl, hoffset, hlive⟩⟩
  | cont =>
    rw [afterBlock, hend] at hafter
    obtain ⟨rfl, hstate⟩ := Prod.mk.inj hafter
    obtain ⟨rfl, rfl⟩ := Prod.mk.inj hstate
    exact ⟨.cont, u, hinner, hmem, hv, Or.inl ⟨Or.inr rfl, rfl, hoffset, hlive⟩⟩
  | brk =>
    obtain ⟨rfl, hstate⟩ := Prod.mk.inj hafter
    obtain ⟨rfl, rfl⟩ := Prod.mk.inj hstate
    exact ⟨.brk, u, hinner, rfl, hu, Or.inr (Or.inl ⟨rfl, rfl, rfl⟩)⟩
  | ret w =>
    obtain ⟨rfl, hstate⟩ := Prod.mk.inj hafter
    obtain ⟨rfl, rfl⟩ := Prod.mk.inj hstate
    exact ⟨.ret w, u, hinner, rfl, hu, Or.inr (Or.inr ⟨⟨w, rfl, rfl⟩, rfl⟩)⟩
  | abort a => exact absurd rfl (hfine a)

/-- Whatever a program does, the arena has grown behind it, and no contract is broken. -/
theorem ArenaProg.keeps (prog : ArenaProg κ ρ) :
    Keeps (fun s => s.1.Sound buffer capacity) (fun s t => s.1.Grows t.1) prog.stmt := by
  have hrefl (s : ArenaState × κ) : s.1.Grows s.1 := .refl _
  have htrans (s t u : ArenaState × κ) : s.1.Grows t.1 → t.1.Grows u.1 → s.1.Grows u.1 := .trans
  induction prog with
  | alloc op use =>
    refine Keeps.expr fun s hs => ?_
    obtain ⟨o, t, hstep, hgrows⟩ := ArenaState.Grows.request s.1 op.property
    exact ⟨(t, use o s.2), by rw [call, hstep]; rfl, arenaLiveStep_sound hs hstep, hgrows⟩
  | other f =>
    exact Keeps.expr fun s hs => ⟨_, rfl, ⟨hs.buffer_eq, hs.capacity_eq, hs.stacked⟩,
      rfl, Nat.le_refl _, [], rfl, fun _ h => nomatch h⟩
  | seq p q hp hq => exact hp.seq htrans hq
  | ite test p q hp hq => exact hp.ite hq
  | loop i test next body hbody =>
    exact Keeps.loop hrefl htrans hbody fun i s hs => ⟨_, s, rfl, hs, .refl _⟩
  | brk => exact (Keeps.jump hrefl).1
  | cont => exact (Keeps.jump hrefl).2.1
  | ret value => exact (Keeps.jump hrefl).2.2 _
  | checkpoint body hbody =>
    rintro ⟨s, k⟩ e ⟨t, l⟩ hs h
    obtain ⟨e', u, hinner, -, ht, hleft⟩ := exec_checkpoint hbody hs h
    obtain ⟨-, hgrows, -⟩ := hbody _ _ _ hs hinner
    rcases hleft with ⟨-, rfl, hoffset, hlive⟩ | ⟨-, rfl, rfl⟩ | ⟨⟨v, -, rfl⟩, rfl⟩
    · exact ⟨ht, ⟨ht.buffer_eq.trans hs.buffer_eq.symm, hoffset.ge, [], hlive,
        fun _ h => nomatch h⟩, nofun⟩
    · exact ⟨ht, hgrows, nofun⟩
    · exact ⟨ht, hgrows, nofun⟩

/-- From every state that calls on an arena reach, a program of requests, tests, loops, jumps and
nested checkpoints breaks no contract, so no mark is ahead of the bump pointer, and keeps the blocks
in use before it, all disjoint and in the buffer. When the body of a checkpoint reaches its end or a
`continue`, all that was requested in it is taken back, what inner checkpoints left behind by a
`break` included; when it is left by a `break` or a `return`, nothing is. -/
theorem arena_checkpoints {hobj : buffer + capacity ≤ usizeMax} {arena : Arena}
    (hinit : arenaInit buffer capacity hobj = .ok arena) (mem : Memory) {ops : List ArenaOp}
    {os : List ArenaOut} {s : ArenaState}
    (hrun : run arenaLiveStep ⟨arena, mem, []⟩ ops = .ok (os, s)) (k : κ) :
    (∀ (prog : ArenaProg κ ρ) e t l, Exec prog.stmt (s, k) e (t, l) →
      (∀ a, e ≠ .abort a) ∧ (∃ newer, t.live = newer ++ s.live) ∧
      t.live.Pairwise Block.Disjoint ∧
      ∀ b ∈ t.live, b.Within buffer (buffer + t.arena.offset)) ∧
    ∀ (body : ArenaProg κ ρ) e t l, Exec (ArenaProg.checkpoint body).stmt (s, k) e (t, l) →
      ∃ e' u, Exec body.stmt (s, k) e' (u, l) ∧ t.mem = u.mem ∧
        ((e' = .fall ∨ e' = .cont) ∧ e = .fall ∧ t.arena.offset = s.arena.offset ∧
            t.live = s.live ∨
          e' = .brk ∧ e = .fall ∧ t = u ∨ (∃ v, e' = .ret v ∧ e = .ret v) ∧ t = u) := by
  have hs := run_invariant (fun t op o t' ht h => arenaLiveStep_sound ht h)
    (arenaInit_sound hinit mem) hrun
  refine ⟨fun prog e t l h => ?_, fun body e t l h => ?_⟩
  · obtain ⟨ht, hgrows, hfine⟩ := prog.keeps _ _ _ hs h
    obtain ⟨newer, hnewer, -⟩ := hgrows.live_eq
    refine ⟨hfine, ⟨newer, hnewer⟩, ht.stacked.disjoint, fun b hb => ?_⟩
    obtain ⟨hlo, hhi⟩ := ht.stacked.within b hb
    rw [Arena.top, ht.buffer_eq] at hhi
    exact ⟨hlo, hhi⟩
  · obtain ⟨e', u, hinner, hmem, -, hleft⟩ := exec_checkpoint body.keeps hs h
    exact ⟨e', u, hinner, hmem, hleft⟩

/-- The block that an inner checkpoint leaves behind by a `break` goes with the outer one. -/
theorem arena_checkpoints_break :
    let request (n : Usize) : ArenaProg Unit Unit := .alloc ⟨.alloc n, rfl⟩ fun _ => id
    let inner : ArenaProg Unit Unit := .checkpoint (.seq (request 4) .brk)
    ∃ arena s t u, arenaInit 4096 64 (by decide) = .ok arena ∧
      run arenaLiveStep ⟨arena, fun _ => 7, []⟩ [.alloc 5] = .ok ([.ptr 4096], s) ∧
      Exec inner.stmt (s, ()) .fall (u, ()) ∧ u.live = [⟨4112, 4⟩, ⟨4096, 5⟩] ∧
      Exec (ArenaProg.checkpoint inner).stmt (s, ()) .fall (t, ()) ∧ t.live = [⟨4096, 5⟩] := by
  intro request inner
  obtain ⟨arena, s, u, t, hinit, hrun, hs, hinner, hu, houter⟩ : ∃ arena s u t,
      arenaInit 4096 64 (by decide) = .ok arena ∧
      run arenaLiveStep ⟨arena, fun _ => 7, []⟩ [.alloc 5] = .ok ([.ptr 4096], s) ∧
      s.live = [⟨4096, 5⟩] ∧
      inner.stmt.exec 9 (s, ()) = some (.fall, (u, ())) ∧ u.live = [⟨4112, 4⟩, ⟨4096, 5⟩] ∧
      (ArenaProg.checkpoint inner).stmt.exec 9 (s, ()) = some (.fall, (t, ())) :=
    ⟨_, _, _, _, rfl, rfl, rfl, rfl, rfl, rfl⟩
  have hscopes := (@arena_checkpoints Unit Unit 4096 64 _ arena hinit (fun _ => 7) _ _ s hrun ()).2
  have hexec := Stmt.exec_sound houter
  refine ⟨arena, s, t, u, hinit, hrun, Stmt.exec_sound hinner, hu, hexec, ?_⟩
  obtain ⟨e', v, hbody, -, hleft⟩ := hscopes inner _ _ _ hexec
  rcases hleft with ⟨-, -, -, hlive⟩ | ⟨rfl, -, -⟩ | ⟨⟨_, -, he⟩, -⟩
  · rw [hlive, hs]
  · obtain ⟨_, _, -, -, hno⟩ := hscopes _ _ _ _ hbody
    rcases hno with ⟨-, he, -, -⟩ | ⟨-, he, -⟩ | ⟨⟨_, -, he⟩, -⟩ <;> cases he
  · cases he

end Programs

end CanonC
