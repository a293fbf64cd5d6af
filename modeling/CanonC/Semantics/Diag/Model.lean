import CanonC.Core.Bytes

/-!
# The diagnostic chain as the code computes it

A chain has room for a fixed number of frames and drops the oldest one to take another. The
message of a frame is an array in it, cut to its length; the bytes behind the terminator are
left over from earlier frames. An absent chain is a NULL pointer.
-/

namespace CanonC

open Toolkit

/-- The limits that a build fixes. -/
structure DiagConfig where
  /-- `DIAG_MAX_FRAMES` -/
  maxFrames : Nat
  /-- `DIAG_MAX_MSG_LEN` -/
  maxMsgLen : Nat
  /-- Checked when the header is compiled. -/
  maxFrames_pos : 1 ≤ maxFrames
  /-- Checked when the header is compiled. -/
  maxMsgLen_pos : 1 ≤ maxMsgLen

/-- A single frame. -/
structure DiagFrame where
  /-- `__FILE__`, absent for NULL. -/
  file : Option CString
  /-- `__func__`, absent for NULL. -/
  func : Option CString
  /-- `__LINE__` -/
  line : Nat
  /-- The number of the error code. -/
  code : Int
  /-- The bytes of the message. -/
  message : Nat → UInt8

/-- The chain. -/
structure Diag where
  /-- Frame storage, the root cause first. -/
  frames : Nat → DiagFrame
  /-- Number of valid frames. -/
  depth : Nat

/-- The arguments of `diag_push` besides the chain. -/
structure DiagPush where
  file : Option CString
  line : Nat
  func : Option CString
  /-- The number of the error code. -/
  code : Int
  /-- Context message, absent for NULL. -/
  msg : Option CString

/-- `diag_init`. -/
def diagInit : Diag := ⟨fun _ => ⟨none, none, 0, 0, fun _ => 0⟩, 0⟩

/-- `diag_clear`. -/
def diagClear (d : Option Diag) : Option Diag := d.map fun d => { d with depth := 0 }

/-- The loop of `diag_push` that finds how much of the message it copies, with `left` bytes of
room. -/
def diagMsgLen (msg : List UInt8) : Nat → Nat → Nat
  | 0, len => len
  | left + 1, len => if msg.getD len 0 ≠ 0 then diagMsgLen msg left (len + 1) else len

/-- The copy of a message into a frame. -/
def diagCopyMsg (c : DiagConfig) (message : Nat → UInt8) : Option CString → Nat → UInt8
  | none => Function.update message 0 0
  | some msg =>
    let len := diagMsgLen msg.object (c.maxMsgLen - 1) 0
    Function.update (Cells.write message 0 (msg.object.take len)) len 0

/-- The chain with its oldest frame discarded. -/
def diagShift (c : DiagConfig) (d : Diag) : Diag :=
  { frames := Cells.write d.frames 0 (Cells.read d.frames 1 (c.maxFrames - 1))
    depth := d.depth - 1 }

/-- `diag_push`: whether the oldest frame was dropped, and the chain. -/
def diagPush (c : DiagConfig) (d : Option Diag) (p : DiagPush) :
    Except String (Bool × Option Diag) :=
  match d with
  | none => .ok (false, none)
  | some d => do
    requireMsg (d.depth ≤ c.maxFrames)
      "diag_push: depth exceeded DIAG_MAX_FRAMES -- chain is corrupt"
    let dropped := decide (d.depth = c.maxFrames)
    let d := if dropped then diagShift c d else d
    let depth := if d.depth ≥ c.maxFrames then c.maxFrames - 1 else d.depth
    let f : DiagFrame :=
      { file := p.file
        line := p.line
        func := p.func
        code := p.code
        message := diagCopyMsg c (d.frames depth).message p.msg }
    .ok (dropped, some { frames := Function.update d.frames depth f, depth := depth + 1 })

/-- `diag_frame_at`. -/
def diagFrameAt (d : Option Diag) (i : Nat) : Option DiagFrame :=
  d.bind fun d => if i ≥ d.depth then none else some (d.frames i)

/-- `diag_root`. -/
def diagRoot (d : Option Diag) : Option DiagFrame := diagFrameAt d 0

/-- `diag_latest`. -/
def diagLatest (d : Option Diag) : Option DiagFrame :=
  d.bind fun d => if d.depth = 0 then none else some (d.frames (d.depth - 1))

end CanonC
