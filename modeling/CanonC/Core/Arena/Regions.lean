import CanonC.Core.Arena.Model
import CanonC.Toolkit.Blocks
import CanonC.Toolkit.Run

/-!
# The allocations of an arena are disjoint blocks of its buffer

What one allocation does is decided over the integers: the wrapped guards admit exactly
the requests that fit. The blocks handed out and not taken back are stacked in the buffer
below the bump pointer.
-/

namespace CanonC

open Toolkit

private theorem guards_iff (offset : Nat) {pad size capacity : Nat} (hcap : capacity ≤ usizeMax)
    (hpad : pad ≤ usizeMax) (hsize : size ≤ usizeMax) :
    (offset > usizeSub usizeMax pad ∨ usizeAdd offset pad > usizeSub usizeMax size ∨
      usizeAdd (usizeAdd offset pad) size > capacity) ↔ ¬ offset + pad + size ≤ capacity := by
  have hmax := usizeMax_succ
  rw [usizeSub_of_le hpad (by omega), usizeSub_of_le hsize (by omega)]
  by_cases h₁ : offset + pad ≤ usizeMax
  · rw [usizeAdd_of_lt (show offset + pad < usizeSize by omega)]
    by_cases h₂ : offset + pad + size ≤ usizeMax
    · rw [usizeAdd_of_lt (show offset + pad + size < usizeSize by omega)]
      omega
    · exact iff_of_true (Or.inr (Or.inl (by omega))) (by omega)
  · exact iff_of_true (Or.inl (by omega)) (by omega)

namespace Arena

variable {arena arena' : Arena} {size alignment p : Nat}

/-- The address of the next free byte. -/
def top (arena : Arena) : Nat := arena.buffer + arena.offset

/-- The next free address is an address. -/
theorem top_le (arena : Arena) : arena.top ≤ usizeMax :=
  (Nat.add_le_add_left arena.offset_le _).trans arena.capacity_fits

/-- The bytes that an arena has left. -/
theorem remaining_eq (arena : Arena) :
    arenaRemaining arena = arena.capacity - arena.offset := by
  have hmax := usizeMax_succ
  have hfits := arena.capacity_fits
  rw [arenaRemaining, usizeSub_of_le arena.offset_le (by omega)]

private theorem ptrOffset_eq {n : Nat} (h : n ≤ arena.capacity) :
    ptrOffset arena.buffer n = .ok (arena.buffer + n) :=
  ptrOffset_of_le arena.buffer_pos (Nat.le_trans (Nat.add_le_add_left h _) arena.capacity_fits)

/-- The request fits behind the padding, over the integers. -/
def Fits (arena : Arena) (size alignment : Nat) : Prop :=
  arena.offset + padding arena.top alignment + size ≤ arena.capacity

/-- What a request answers and leaves: the first aligned address and the arena with the
bytes up to the end of the block consumed, or NULL and the arena unchanged. -/
def Grants (arena : Arena) (size alignment : Nat) (arena' : Arena) (p : Nat) : Prop :=
  ((0 < size ∧ arena.Fits size alignment) ∧ p = arena.top + padding arena.top alignment ∧
    arena'.buffer = arena.buffer ∧ arena'.capacity = arena.capacity ∧ arena'.top = p + size) ∨
  (¬(0 < size ∧ arena.Fits size alignment) ∧ p = 0 ∧ arena' = arena)

/-- The common body of the allocation functions grants the request. -/
theorem bump_grants (arena : Arena) (hpos : 0 < size) (hsize : size < usizeSize)
    (halign : isPowerOfTwo alignment = true) (hlt : alignment < usizeSize) :
    ∃ arena' p, arenaBump arena size alignment = .ok (arena', p) ∧
      arena.Grants size alignment arena' p := by
  have hmax := usizeMax_succ
  have hfits := arena.capacity_fits
  have hoffset := arena.offset_le
  have htop := arena.top_le
  have hbuf := arena.buffer_pos
  have hpow := pos_of_isPowerOfTwo halign
  have hpadlt := @padding_lt arena.top alignment hpow
  have hpad : ptrAlignPadding (arena.buffer + arena.offset) alignment =
      padding arena.top alignment := by
    rw [ptrAlignPadding, if_neg (by omega)]
    exact alignPadding_eq halign hlt (by unfold top at htop; omega)
  have hguards := @guards_iff arena.offset (padding arena.top alignment) size arena.capacity
    (by omega) (by omega) (by omega)
  simp only [arenaBump, ptrOffset_eq arena.offset_le, ok_bind, hpad]
  by_cases hfit : arena.offset + padding arena.top alignment + size ≤ arena.capacity
  · have hadd := usizeAdd_of_lt (show arena.offset + padding arena.top alignment < usizeSize by
      omega)
    have hadd' := usizeAdd_of_lt
      (show arena.offset + padding arena.top alignment + size < usizeSize by omega)
    have hres := ptrOffset_eq (show arena.offset + padding arena.top alignment ≤ arena.capacity by
      omega)
    rw [dif_neg fun h => hguards.mp h hfit]
    simp only [hadd, hres, ok_bind]
    refine ⟨_, _, rfl, Or.inl ⟨⟨hpos, hfit⟩, ?_, rfl, rfl, ?_⟩⟩
    · unfold top
      omega
    · change arena.buffer + usizeAdd (arena.offset + padding arena.top alignment) size = _
      rw [hadd', ← Nat.add_assoc]
  · rw [dif_pos (hguards.mpr hfit)]
    exact ⟨_, _, rfl, Or.inr ⟨fun h => hfit h.2, rfl, rfl⟩⟩

/-- `arena_alloc_aligned` grants every request with a power of two. -/
theorem allocAligned_grants (arena : Arena) (hsize : size < usizeSize)
    (halign : isPowerOfTwo alignment = true) (hlt : alignment < usizeSize) :
    ∃ arena' p, arenaAllocAligned arena size alignment = .ok (arena', p) ∧
      arena.Grants size alignment arena' p := by
  rw [arenaAllocAligned, halign, requireMsg_true, ok_bind]
  by_cases hzero : size = 0
  · rw [if_pos hzero]
    exact ⟨arena, 0, rfl, Or.inr ⟨fun h => by omega, rfl, rfl⟩⟩
  · rw [if_neg hzero]
    exact arena.bump_grants (Nat.pos_of_ne_zero hzero) hsize halign hlt

/-- `arena_alloc` grants every request at the default alignment. -/
theorem alloc_grants (arena : Arena) (hsize : size < usizeSize) :
    ∃ arena' p, arenaAlloc arena size = .ok (arena', p) ∧
      arena.Grants size defaultAlign arena' p := by
  have hdefault : isPowerOfTwo defaultAlign = true := by decide
  have h := arena.allocAligned_grants hsize hdefault (by decide)
  rw [arenaAllocAligned, hdefault, requireMsg_true, ok_bind] at h
  exact h

/-- A rollback to a mark that is not ahead sets the offset and nothing else. -/
theorem resetTo_eq {mark : Nat} (h : mark ≤ arena.offset) : ∃ rolled,
    arenaResetTo arena mark = .ok rolled ∧ rolled.buffer = arena.buffer ∧
      rolled.capacity = arena.capacity ∧ rolled.offset = mark :=
  ⟨_, dif_pos h, rfl, rfl, rfl⟩

/-- A granted address is not NULL exactly when the request fits. -/
theorem Grants.ne_zero_iff (h : arena.Grants size alignment arena' p) :
    p ≠ 0 ↔ 0 < size ∧ arena.Fits size alignment := by
  have hpos := arena.buffer_pos
  rcases h with ⟨hfit, rfl, -⟩ | ⟨hfit, rfl, -⟩
  · exact iff_of_true (by unfold top; omega) hfit
  · exact iff_of_false (fun h => h rfl) hfit

/-- A granted address is a multiple of the alignment. -/
theorem Grants.dvd (h : arena.Grants size alignment arena' p) (halign : 0 < alignment) :
    alignment ∣ p := by
  rcases h with ⟨-, rfl, -⟩ | ⟨-, rfl, -⟩
  · exact dvd_add_padding _ halign
  · exact Nat.dvd_zero _

/-- A refused request changes nothing. -/
theorem Grants.eq_of_null (h : arena.Grants size alignment arena' 0) : arena' = arena := by
  rcases h with ⟨hfit, hp, -⟩ | ⟨-, -, he⟩
  · have hpos := arena.buffer_pos
    unfold top at hp
    omega
  · exact he

end Arena

/-- The size and the alignment that a call requests, if it requests memory. -/
def ArenaOp.request : ArenaOp → Option (Nat × Nat)
  | .alloc size | .allocZero size => some (size, defaultAlign)
  | .allocAligned size alignment | .allocAlignedZero size alignment => some (size, alignment)
  | .mark | .resetTo _ | .reset => none

/-- The blocks in use after a call: an allocation adds the block it returned, a rollback
takes back the blocks that reach past the mark. -/
def ArenaOp.track (buffer : Nat) (live : List Block) : ArenaOp → ArenaOut → List Block
  | op, .ptr p =>
    match op.request with
    | some (size, _) => if p = 0 then live else ⟨p, size⟩ :: live
    | none => live
  | .resetTo m, _ => live.filter fun b => b.stop ≤ buffer + m
  | .reset, _ => []
  | _, _ => live

/-- An arena with its memory and the blocks in use, as its callers see them. -/
structure ArenaState where
  arena : Arena
  /-- The memory its buffer lies in. -/
  mem : Memory
  /-- The blocks returned and not taken back. -/
  live : List Block

/-- One call, with the blocks in use kept track of. -/
def arenaLiveStep (s : ArenaState) (op : ArenaOp) : Except String (ArenaOut × ArenaState) := do
  let (o, arena, mem) ← arenaStep s.arena s.mem op
  .ok (o, ⟨arena, mem, op.track s.arena.buffer s.live o⟩)

/-- The blocks in use after a call. -/
theorem arenaLiveStep_live {s s' : ArenaState} {op : ArenaOp} {o : ArenaOut}
    (h : arenaLiveStep s op = .ok (o, s')) : s'.live = op.track s.arena.buffer s.live o := by
  obtain ⟨p, -, h⟩ := bind_eq_ok.mp h
  obtain ⟨rfl, rfl⟩ := Prod.mk.inj (Except.ok.inj h)
  rfl

/-- A call that rolls nothing back takes no block back. -/
theorem ArenaOp.sublist_track {op : ArenaOp} (hto : ∀ m, op ≠ .resetTo m) (hreset : op ≠ .reset)
    (buffer : Nat) (live : List Block) (o : ArenaOut) :
    live.Sublist (op.track buffer live o) := by
  have hpush (p size : Nat) : live.Sublist (if p = 0 then live else ⟨p, size⟩ :: live) := by
    split
    · exact List.Sublist.refl _
    · exact List.sublist_cons_self _ _
  cases op with
  | alloc size => cases o <;> first | exact hpush _ _ | exact List.Sublist.refl _
  | allocAligned size alignment => cases o <;> first | exact hpush _ _ | exact List.Sublist.refl _
  | allocZero size => cases o <;> first | exact hpush _ _ | exact List.Sublist.refl _
  | allocAlignedZero size alignment =>
    cases o <;> first | exact hpush _ _ | exact List.Sublist.refl _
  | mark => cases o <;> exact List.Sublist.refl _
  | resetTo m => exact absurd rfl (hto m)
  | reset => exact absurd rfl hreset

/-- The blocks in use are stacked in the part of the buffer that is consumed. -/
structure ArenaState.Sound (buffer capacity : Nat) (s : ArenaState) : Prop where
  buffer_eq : s.arena.buffer = buffer
  capacity_eq : s.arena.capacity = capacity
  /-- The blocks lie below the bump pointer without overlap. -/
  stacked : Block.Stacked buffer s.arena.top s.live

/-- A request with a power of two is granted, and a refusal changes nothing. -/
theorem arenaLiveStep_request (s : ArenaState) {op : ArenaOp} {size alignment : Nat}
    (hop : op.request = some (size, alignment)) (halign : isPowerOfTwo alignment = true) :
    ∃ p s', arenaLiveStep s op = .ok (.ptr p, s') ∧
      s.arena.Grants size alignment s'.arena p ∧
      s'.live = (if p = 0 then s.live else ⟨p, size⟩ :: s.live) ∧ (p = 0 → s' = s) := by
  have hstep : ∃ arena' mem' p, arenaStep s.arena s.mem op = .ok (.ptr p, arena', mem') ∧
      s.arena.Grants size alignment arena' p ∧ (p = 0 → mem' = s.mem) := by
    cases op with
    | alloc n =>
      obtain ⟨rfl, rfl⟩ := Prod.mk.inj (Option.some.inj hop)
      obtain ⟨arena', p, he, hg⟩ := s.arena.alloc_grants n.isLt
      exact ⟨arena', s.mem, p, by rw [arenaStep, he]; rfl, hg, fun _ => rfl⟩
    | allocAligned n a =>
      obtain ⟨rfl, rfl⟩ := Prod.mk.inj (Option.some.inj hop)
      obtain ⟨arena', p, he, hg⟩ := s.arena.allocAligned_grants n.isLt halign a.isLt
      exact ⟨arena', s.mem, p, by rw [arenaStep, he]; rfl, hg, fun _ => rfl⟩
    | allocZero n =>
      obtain ⟨rfl, rfl⟩ := Prod.mk.inj (Option.some.inj hop)
      obtain ⟨arena', p, he, hg⟩ := s.arena.alloc_grants n.isLt
      refine ⟨arena', _, p, by rw [arenaStep, arenaAllocZero, he]; rfl, hg, fun hp => ?_⟩
      rw [if_neg (fun h => h hp)]
    | allocAlignedZero n a =>
      obtain ⟨rfl, rfl⟩ := Prod.mk.inj (Option.some.inj hop)
      obtain ⟨arena', p, he, hg⟩ := s.arena.allocAligned_grants n.isLt halign a.isLt
      refine ⟨arena', _, p, by rw [arenaStep, arenaAllocAlignedZero, he]; rfl, hg, fun hp => ?_⟩
      rw [if_neg (fun h => h hp)]
    | mark => cases hop
    | resetTo m => cases hop
    | reset => cases hop
  obtain ⟨arena', mem', p, he, hg, hmem⟩ := hstep
  have htrack : op.track s.arena.buffer s.live (.ptr p) =
      if p = 0 then s.live else ⟨p, size⟩ :: s.live := by
    cases op <;> simp_all [ArenaOp.track, ArenaOp.request]
  refine ⟨p, ⟨arena', mem', op.track s.arena.buffer s.live (.ptr p)⟩,
    by rw [arenaLiveStep, he]; rfl, hg, htrack, fun hp => ?_⟩
  subst hp
  rw [hg.eq_of_null, hmem rfl, htrack, if_pos rfl]

private theorem isPowerOfTwo_of_step {s s' : ArenaState} {op : ArenaOp} {o : ArenaOut}
    {size alignment : Nat} (hop : op.request = some (size, alignment))
    (h : arenaLiveStep s op = .ok (o, s')) : isPowerOfTwo alignment = true := by
  cases op with
  | alloc n =>
    obtain ⟨-, rfl⟩ := Prod.mk.inj (Option.some.inj hop)
    decide
  | allocZero n =>
    obtain ⟨-, rfl⟩ := Prod.mk.inj (Option.some.inj hop)
    decide
  | allocAligned n a =>
    obtain ⟨-, rfl⟩ := Prod.mk.inj (Option.some.inj hop)
    by_contra hno
    rw [Bool.not_eq_true] at hno
    rw [arenaLiveStep, arenaStep, arenaAllocAligned, hno] at h
    cases h
  | allocAlignedZero n a =>
    obtain ⟨-, rfl⟩ := Prod.mk.inj (Option.some.inj hop)
    by_contra hno
    rw [Bool.not_eq_true] at hno
    rw [arenaLiveStep, arenaStep, arenaAllocAlignedZero, arenaAllocAligned, hno] at h
    cases h
  | mark => cases hop
  | resetTo m => cases hop
  | reset => cases hop

/-- Every call keeps the blocks in use stacked. -/
theorem arenaLiveStep_sound {buffer capacity : Nat} {s s' : ArenaState} {op : ArenaOp}
    {o : ArenaOut} (hs : s.Sound buffer capacity) (h : arenaLiveStep s op = .ok (o, s')) :
    s'.Sound buffer capacity := by
  obtain ⟨hbuffer, hcapacity, hstacked⟩ := hs
  have htop : buffer ≤ s.arena.top := by
    rw [← hbuffer]
    exact Nat.le_add_right _ _
  cases hop : op.request with
  | some r =>
    obtain ⟨size, alignment⟩ := r
    obtain ⟨p, t, he, hg, hlive, hnull⟩ :=
      arenaLiveStep_request s hop (isPowerOfTwo_of_step hop h)
    obtain ⟨-, rfl⟩ := Prod.mk.inj (Except.ok.inj (h.symm.trans he))
    by_cases hp : p = 0
    · rw [hnull hp]
      exact ⟨hbuffer, hcapacity, hstacked⟩
    · rw [if_neg hp] at hlive
      rcases hg with ⟨-, hp', hb, hc, ht⟩ | ⟨-, hp', -⟩
      · refine ⟨hb.trans hbuffer, hc.trans hcapacity, ?_⟩
        rw [hlive, ht]
        exact hstacked.push (b := ⟨p, size⟩) htop (hp' ▸ Nat.le_add_right _ _)
      · exact absurd hp' hp
  | none =>
    cases op with
    | mark =>
      obtain ⟨-, rfl⟩ := Prod.mk.inj (Except.ok.inj h)
      exact ⟨hbuffer, hcapacity, hstacked⟩
    | reset =>
      obtain ⟨-, rfl⟩ := Prod.mk.inj (Except.ok.inj h)
      exact ⟨hbuffer, hcapacity, .nil⟩
    | resetTo m =>
      simp only [arenaLiveStep, arenaStep, arenaResetTo] at h
      split at h
      · obtain ⟨-, rfl⟩ := Prod.mk.inj (Except.ok.inj h)
        refine ⟨hbuffer, hcapacity, ?_⟩
        have hroll := hstacked.rollback (buffer + m)
        rw [← hbuffer] at hroll ⊢
        exact hroll
      · cases h
    | alloc n => cases hop
    | allocAligned n a => cases hop
    | allocZero n => cases hop
    | allocAlignedZero n a => cases hop

/-- An initialised arena has the buffer it was given, within the largest size, and no byte of it is
consumed. -/
theorem arenaInit_spec {buffer capacity : Nat} {hobj : buffer + capacity ≤ usizeMax}
    {arena : Arena} (hinit : arenaInit buffer capacity hobj = .ok arena) :
    arena.buffer = buffer ∧ arena.capacity = capacity ∧ arena.offset = 0 ∧
      capacity ≤ arenaMaxSize := by
  unfold arenaInit at hinit
  split at hinit
  · by_cases hpos : 0 < capacity
    · by_cases hmax : capacity ≤ arenaMaxSize
      · simp only [hpos, hmax, decide_true, requireMsg_true, ok_bind] at hinit
        obtain rfl := Except.ok.inj hinit
        exact ⟨rfl, rfl, rfl, hmax⟩
      · simp [hpos, hmax] at hinit
    · simp [hpos] at hinit
  · cases hinit

/-- An initialised arena has handed out nothing. -/
theorem arenaInit_sound {buffer capacity : Nat} {hobj : buffer + capacity ≤ usizeMax}
    {arena : Arena} (hinit : arenaInit buffer capacity hobj = .ok arena) (mem : Memory) :
    (⟨arena, mem, []⟩ : ArenaState).Sound buffer capacity := by
  obtain ⟨hbuffer, hcapacity, -, -⟩ := arenaInit_spec hinit
  exact ⟨hbuffer, hcapacity, .nil⟩

/-- In every state a run reaches, the blocks in use are disjoint and lie in the buffer,
and a request is granted at its alignment exactly when it fits over the integers and
changes nothing otherwise. -/
theorem arena_allocations_disjoint {buffer capacity : Nat} {hobj : buffer + capacity ≤ usizeMax}
    {arena : Arena} (hinit : arenaInit buffer capacity hobj = .ok arena) (mem : Memory)
    {ops : List ArenaOp} {os : List ArenaOut} {s : ArenaState}
    (hrun : run arenaLiveStep ⟨arena, mem, []⟩ ops = .ok (os, s)) :
    s.live.Pairwise Block.Disjoint ∧
    (∀ b ∈ s.live, b.Within buffer (buffer + capacity)) ∧
    ∀ (op : ArenaOp) (size alignment : Nat), op.request = some (size, alignment) →
      isPowerOfTwo alignment = true → ∃ p s', arenaLiveStep s op = .ok (.ptr p, s') ∧
        (p ≠ 0 ↔ 0 < size ∧
          s.arena.offset + padding (buffer + s.arena.offset) alignment + size ≤ capacity) ∧
        alignment ∣ p ∧ (p ≠ 0 → s'.live = ⟨p, size⟩ :: s.live) ∧ (p = 0 → s' = s) := by
  have hs := run_invariant (fun t op o t' ht h => arenaLiveStep_sound ht h)
    (arenaInit_sound hinit mem) hrun
  obtain ⟨hbuffer, hcapacity, hstacked⟩ := hs
  refine ⟨hstacked.disjoint, fun b hb => ?_, fun op size alignment hop halign => ?_⟩
  · obtain ⟨hlo, hhi⟩ := hstacked.within b hb
    have hle := s.arena.offset_le
    unfold Arena.top at hhi
    exact ⟨hlo, by omega⟩
  · obtain ⟨p, s', he, hg, hlive, hnull⟩ := arenaLiveStep_request s hop halign
    refine ⟨p, s', he, ?_, hg.dvd (pos_of_isPowerOfTwo halign),
      fun hp => hlive.trans (if_neg hp), hnull⟩
    rw [hg.ne_zero_iff, Arena.Fits, Arena.top, hbuffer, hcapacity]

/-- A rollback between allocations at different alignments, and a refused huge request. -/
theorem arena_allocations_disjoint_rollback : ∃ (arena : Arena) (os : List ArenaOut)
    (s : ArenaState), arenaInit 4097 64 (by decide) = .ok arena ∧
      run arenaLiveStep ⟨arena, fun _ => 7, []⟩ [.alloc 5, .mark, .allocAligned 8 32,
        .resetTo 20, .allocZero 3, .alloc ⟨usizeMax, by decide⟩] = .ok (os, s) ∧
      s.live = [⟨4128, 3⟩, ⟨4112, 5⟩] ∧ s.live.Pairwise Block.Disjoint := by
  obtain ⟨arena, os, s, hinit, hrun, hlive⟩ : ∃ arena os s,
      arenaInit 4097 64 (by decide) = .ok arena ∧
      run arenaLiveStep ⟨arena, fun _ => 7, []⟩ [.alloc 5, .mark, .allocAligned 8 32,
        .resetTo 20, .allocZero 3, .alloc ⟨usizeMax, by decide⟩] = .ok (os, s) ∧
      s.live = [⟨4128, 3⟩, ⟨4112, 5⟩] := ⟨_, _, _, rfl, rfl, rfl⟩
  exact ⟨arena, os, s, hinit, hrun, hlive, (arena_allocations_disjoint hinit _ hrun).1⟩

end CanonC
