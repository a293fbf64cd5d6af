import CanonC.Semantics.Diag.Model
import CanonC.Toolkit.Run
import CanonC.Toolkit.Window

/-!
# The chain is the last frames that were pushed

A frame records the arguments of its push, the message cut to what the array takes. One push
turns the frames recorded into those of the history that drops its oldest entry.
-/

namespace CanonC

open Toolkit

variable {c : DiagConfig} {d : Diag} {f : DiagFrame} {p : DiagPush} {ws : List DiagPush}

/-- What a frame keeps of a message. -/
def diagKept (c : DiagConfig) (msg : Option CString) : List UInt8 :=
  match msg with
  | none => []
  | some msg => msg.bytes.take (c.maxMsgLen - 1)

/-- The frame records the arguments of a push. -/
structure DiagFrame.Records (c : DiagConfig) (f : DiagFrame) (p : DiagPush) : Prop where
  file_eq : f.file = p.file
  func_eq : f.func = p.func
  line_eq : f.line = p.line
  code_eq : f.code = p.code
  /-- The message that is kept, terminated within the array. -/
  message_eq : Cells.read f.message 0 ((diagKept c p.msg).length + 1) = diagKept c p.msg ++ [0]
  /-- The terminator is in the array. -/
  length_lt : (diagKept c p.msg).length < c.maxMsgLen

/-- The frames of the chain record the pushes. -/
structure Diag.Holds (c : DiagConfig) (d : Diag) (ws : List DiagPush) : Prop where
  /-- There are as many. -/
  depth_eq : d.depth = ws.length
  /-- There is room for them. -/
  length_le : ws.length ≤ c.maxFrames
  /-- Each records its push. -/
  records : ∀ i p, ws[i]? = some p → (d.frames i).Records c p

/-- The loop stops at the terminator or where the room ends. -/
theorem diagMsgLen_eq (pre : List UInt8) : ∀ (rest : List UInt8) (left : Nat),
    (∀ b ∈ rest, b ≠ 0) →
    diagMsgLen (pre ++ rest ++ [0]) left pre.length = pre.length + min rest.length left
  | [], left, _ => by
    cases left with
    | zero => rfl
    | succ left =>
      rw [diagMsgLen, if_neg (by simp), List.length_nil, Nat.zero_min, Nat.add_zero]
  | b :: rest, 0, _ => rfl
  | b :: rest, left + 1, h => by
    obtain ⟨hb, hrest⟩ := List.forall_mem_cons.mp h
    have hnext := diagMsgLen_eq (pre ++ [b]) rest left hrest
    rw [List.append_assoc pre, List.singleton_append, List.length_append,
      List.length_singleton] at hnext
    rw [diagMsgLen, if_pos (by simpa using hb), hnext, List.length_cons, Nat.succ_min_succ]
    omega

/-- The copy of a message is the part that is kept, with its terminator. -/
theorem read_diagCopyMsg (c : DiagConfig) (message : Nat → UInt8) (msg : Option CString) :
    Cells.read (diagCopyMsg c message msg) 0 ((diagKept c msg).length + 1) =
      diagKept c msg ++ [0] := by
  cases msg with
  | none =>
    rw [diagCopyMsg, Cells.update_eq_write]
    exact Cells.read_write_self
  | some msg =>
    have hlen : diagMsgLen msg.object (c.maxMsgLen - 1) 0 =
        min msg.bytes.length (c.maxMsgLen - 1) := by
      simpa [CString.object] using
        diagMsgLen_eq [] msg.bytes (c.maxMsgLen - 1) msg.noTerminator
    have htake : msg.object.take (min msg.bytes.length (c.maxMsgLen - 1)) =
        msg.bytes.take (c.maxMsgLen - 1) := by
      rw [CString.object, List.take_append_of_le_length (Nat.min_le_left _ _), Nat.min_comm]
      exact List.take_eq_take_min.symm
    have hwrite := Cells.update_write message 0 (msg.bytes.take (c.maxMsgLen - 1)) 0
    rw [Nat.zero_add, List.length_take, Nat.min_comm] at hwrite
    have hread := @Cells.read_write_self _ message 0 (msg.bytes.take (c.maxMsgLen - 1) ++ [0])
    rw [List.length_append, List.length_singleton] at hread
    rw [diagCopyMsg, hlen, htake, hwrite, diagKept, hread]

/-- What is kept of a message has room for a terminator. -/
theorem length_diagKept (c : DiagConfig) (msg : Option CString) :
    (diagKept c msg).length < c.maxMsgLen := by
  have hpos := c.maxMsgLen_pos
  cases msg with
  | none => exact hpos
  | some msg =>
    rw [diagKept, List.length_take]
    omega

/-- The shift moves every frame behind the oldest one down. -/
theorem diagShift_frames (d : Diag) {i : Nat} (hi : i + 1 < c.maxFrames) :
    (diagShift c d).frames i = d.frames (i + 1) := by
  have hcell := @Cells.write_apply _ d.frames 0 (Cells.read d.frames 1 (c.maxFrames - 1)) i
    (by rw [Cells.length_read]; omega)
  rw [Nat.zero_add, (List.getElem_eq_iff _).mpr (Cells.getElem?_read (by omega))] at hcell
  rwa [Nat.add_comm 1 i] at hcell

/-- Shifting a full chain drops the oldest frame and keeps the others. -/
theorem Diag.Holds.shift (h : d.Holds c ws) (hfull : ws.length = c.maxFrames) :
    (diagShift c d).Holds c ws.tail := by
  constructor
  · rw [diagShift, h.depth_eq, List.length_tail]
  · rw [List.length_tail]
    omega
  · intro i p hi
    rw [List.getElem?_tail] at hi
    have hlt : i + 1 < ws.length := (List.getElem?_eq_some_iff.mp hi).1
    rw [diagShift_frames d (by omega)]
    exact h.records (i + 1) p hi

/-- A frame stored behind the others is one frame more. -/
theorem Diag.Holds.store (h : d.Holds c ws) (hroom : ws.length < c.maxFrames)
    (hf : f.Records c p) :
    Diag.Holds c ⟨Function.update d.frames d.depth f, d.depth + 1⟩ (ws ++ [p]) := by
  constructor
  · rw [h.depth_eq, List.length_append, List.length_singleton]
  · rw [List.length_append, List.length_singleton]
    exact hroom
  · intro i q hi
    rcases Nat.lt_trichotomy i ws.length with hlt | rfl | hgt
    · rw [List.getElem?_append_left hlt] at hi
      have hother : i ≠ d.depth := by
        rw [h.depth_eq]
        exact hlt.ne
      change (Function.update d.frames d.depth f i).Records c q
      rw [Function.update_of_ne hother]
      exact h.records i q hi
    · rw [List.getElem?_concat_length, Option.some.injEq] at hi
      change (Function.update d.frames d.depth f ws.length).Records c q
      rw [h.depth_eq, Function.update_self, ← hi]
      exact hf
    · rw [List.getElem?_eq_none (by simp; omega)] at hi
      exact absurd hi.symm (Option.some_ne_none q)

/-- A push drops a frame exactly when the chain is full, and records its arguments in the last
frame. -/
theorem diagPush_spec (h : d.Holds c ws) (p : DiagPush) : ∃ d',
    diagPush c (some d) p = .ok (decide (ws.length = c.maxFrames), some d') ∧
      d'.Holds c (pushLast c.maxFrames ws p) := by
  have hpos := c.maxFrames_pos
  have hdepth := h.depth_eq
  have hle := h.length_le
  have hf : ∀ message : Nat → UInt8, DiagFrame.Records c
      ⟨p.file, p.func, p.line, p.code, diagCopyMsg c message p.msg⟩ p := fun message =>
    ⟨rfl, rfl, rfl, rfl, read_diagCopyMsg c message p.msg, length_diagKept c p.msg⟩
  by_cases hfull : ws.length = c.maxFrames
  · have hshift := h.shift hfull
    have hless : (diagShift c d).depth < c.maxFrames := by
      rw [hshift.depth_eq, List.length_tail]
      omega
    have hstore := hshift.store (hshift.depth_eq ▸ hless)
      (hf ((diagShift c d).frames (diagShift c d).depth).message)
    rw [pushLast, if_pos hfull]
    refine ⟨_, ?_, hstore⟩
    simp [diagPush, hdepth, hfull, Nat.not_le.mpr hless]
  · have hless : d.depth < c.maxFrames := by omega
    have hstore := h.store (by omega) (hf (d.frames d.depth).message)
    rw [pushLast, if_neg hfull]
    refine ⟨_, ?_, hstore⟩
    have hopen : ¬c.maxFrames ≤ ws.length := by omega
    simp [diagPush, hdepth, hle, hfull, hopen]

/-- Pushes behind earlier ones leave the last frames of both. A push drops a frame exactly when
the pushes before it have filled the chain. -/
theorem diagPush_run (c : DiagConfig) : ∀ (ps earlier : List DiagPush) (d : Diag),
    d.Holds c (earlier.rtake c.maxFrames) → ∃ d',
      run (diagPush c) (some d) ps =
        .ok ((List.range ps.length).map fun k => decide (c.maxFrames ≤ earlier.length + k),
          some d') ∧
      d'.Holds c ((earlier ++ ps).rtake c.maxFrames) := by
  intro ps
  induction ps with
  | nil =>
    intro earlier d h
    exact ⟨d, rfl, by rwa [List.append_nil]⟩
  | cons p ps ih =>
    intro earlier d h
    obtain ⟨d₁, hpush, h₁⟩ := diagPush_spec h p
    rw [pushLast_rtake c.maxFrames_pos] at h₁
    obtain ⟨d', hrun, h'⟩ := ih (earlier ++ [p]) d₁ h₁
    have hfull : (earlier.rtake c.maxFrames).length = c.maxFrames ↔
        c.maxFrames ≤ earlier.length + 0 := by
      rw [length_rtake]
      omega
    have hnext : ∀ k, (earlier ++ [p]).length + k = earlier.length + (k + 1) := by
      intro k
      rw [List.length_append, List.length_singleton]
      omega
    rw [List.append_assoc, List.singleton_append] at h'
    refine ⟨d', run_cons_eq_ok.mpr ⟨_, _, _, hpush, hrun, ?_⟩, h'⟩
    rw [List.length_cons, List.range_succ_eq_map, List.map_cons, List.map_map]
    congr 1
    · exact (decide_eq_decide.mpr hfull).symm
    · apply List.map_congr_left
      intro k _
      exact decide_eq_decide.mpr (by rw [hnext])

/-- A chain read at an index. -/
theorem Diag.Holds.frameAt (h : d.Holds c ws) (i : Nat) :
    Option.Rel (DiagFrame.Records c) (diagFrameAt (some d) i) ws[i]? := by
  rw [diagFrameAt, Option.bind_some, h.depth_eq]
  by_cases hi : i < ws.length
  · rw [if_neg (by omega), List.getElem?_eq_getElem hi]
    exact .some (h.records i _ (List.getElem?_eq_getElem hi))
  · rw [if_pos (by omega), List.getElem?_eq_none (by omega)]
    exact .none

/-- The latest frame is the one at the last index. -/
theorem diagLatest_eq (d : Diag) : diagLatest (some d) = diagFrameAt (some d) (d.depth - 1) := by
  rw [diagLatest, diagFrameAt, Option.bind_some, Option.bind_some]
  split <;> rename_i h
  · rw [if_pos (by omega)]
  · rw [if_neg (by omega)]

/-- From a clear on, the chain holds the last frames that were pushed, in order, and gives them
back at their index, the first as the root and the last as the latest. A push reports a dropped
frame exactly when the chain was full. -/
theorem diag_history (c : DiagConfig) (d : Diag) (ps : List DiagPush) :
    ∃ d', run (diagPush c) (diagClear (some d)) ps =
        .ok ((List.range ps.length).map fun k => decide (c.maxFrames ≤ k), some d') ∧
      d'.depth = min c.maxFrames ps.length ∧
      (∀ i, Option.Rel (DiagFrame.Records c) (diagFrameAt (some d') i)
        (ps.rtake c.maxFrames)[i]?) ∧
      Option.Rel (DiagFrame.Records c) (diagRoot (some d')) (ps.rtake c.maxFrames).head? ∧
      Option.Rel (DiagFrame.Records c) (diagLatest (some d')) (ps.rtake c.maxFrames).getLast? := by
  have hclear : Diag.Holds c { d with depth := 0 } (([] : List DiagPush).rtake c.maxFrames) :=
    ⟨by simp, by simp, fun i p hi => by simp at hi⟩
  obtain ⟨d', hrun, hheld⟩ := diagPush_run c ps [] _ hclear
  have hdepth := hheld.depth_eq
  rw [List.nil_append] at hheld hdepth
  simp only [List.length_nil, Nat.zero_add] at hrun
  refine ⟨d', hrun, by rw [hdepth, length_rtake], hheld.frameAt, ?_, ?_⟩
  · rw [List.head?_eq_getElem?]
    exact hheld.frameAt 0
  · rw [List.getLast?_eq_getElem?, diagLatest_eq, hdepth]
    exact hheld.frameAt _

/-- A chain that was just made is a cleared one. -/
example : diagClear (some diagInit) = some diagInit := rfl

end CanonC
