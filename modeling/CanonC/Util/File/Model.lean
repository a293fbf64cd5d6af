import CanonC.Core.Arena.Model
import CanonC.Core.Memory
import CanonC.Util.File.Stdio

/-!
# The file functions as the code computes them

Reading goes into an arena: by the size where the file can be sought, and otherwise chunk by chunk
into all that the arena has left. The atomic write goes to a second path that is renamed.
-/

namespace CanonC

open Toolkit

/-- `FILE_READ_CHUNK_SIZE` -/
def fileReadChunkSize : Nat := 4096

/-- The loop of `file_read_stream_`: the memory, the stream and the bytes read in total, absent
after an error. A round that goes on reads a byte or more, so `fuel` is the number of rounds that
there can be. -/
def fileReadLoop (base usable : Nat) :
    Nat → Memory → Stream → Nat → Memory × Stream × Option Nat
  | 0, mem, f, total => (mem, f, some total)
  | fuel + 1, mem, f, total =>
    if total < usable then
      let chunk := min (usable - total) fileReadChunkSize
      let (bytes, f) := fread f chunk
      let mem := Cells.write mem (base + total) bytes
      let total := usizeAdd total bytes.length
      if bytes.length < chunk then (mem, f, if f.error then none else some total)
      else fileReadLoop base usable fuel mem f total
    else (mem, f, some total)

/-- `file_read_stream_`: the memory, the arena, the stream and the address of the bytes. -/
def fileReadStream (f : Stream) (arena : Arena) (mem : Memory) :
    Except String (Memory × Arena × Stream × Option Nat) := do
  let available := arenaRemaining arena
  if available < 2 then .ok (mem, arena, f, none)
  else
    let mark := arenaMark arena
    let (arena, base) ← arenaAlloc arena available
    if base = 0 then .ok (mem, arena, f, none)
    else
      let usable := available - 1
      match fileReadLoop base usable usable mem f 0 with
      | (mem, f, none) => do
        let arena ← arenaResetTo arena mark
        .ok (mem, arena, f, none)
      | (mem, f, some total) => do
        let mem := Function.update mem (base + total) 0
        let arena ← arenaResetTo arena mark
        let (arena, result) ← arenaAlloc arena (usizeAdd total 1)
        if result = 0 then .ok (mem, arena, f, none)
        else .ok (Function.update mem (result + total) 0, arena, f, some result)

/-- The part of `file_read_all_arena` behind the size of the file. -/
def fileReadSized (f : Stream) (len : Nat) (arena : Arena) (mem : Memory) :
    Except String (Memory × Arena × Stream × Option Nat) :=
  if usizeAdd len 1 < len then .ok (mem, arena, f, none)
  else
    let (f, sought) := fseek f 0
    if !sought then .ok (mem, arena, f, none)
    else do
      let (arena, buf) ← arenaAlloc arena (usizeAdd len 1)
      if buf = 0 then .ok (mem, arena, f, none)
      else
        let (bytes, f) := fread f len
        let mem := Cells.write mem buf bytes
        if bytes.length ≠ len then .ok (mem, arena, f, none)
        else .ok (Function.update mem (buf + len) 0, arena, f, some buf)

/-- `file_read_all_arena`: the memory, the arena, the stream when it is closed and the address of
the bytes. -/
def fileReadAllArena (opens : Bool) (io : ReadAnswers) (fs : FileSystem) (path : CString)
    (arena : Arena) (mem : Memory) :
    Except String (Memory × Arena × Option Stream × Option Nat) :=
  match fopenRead opens io fs path.bytes with
  | none => .ok (mem, arena, none, none)
  | some f => do
    let (f, sought) := fseek f f.content.length
    let (f, len) := if sought then ftell f else (f, -1)
    let (mem, arena, f, result) ←
      if len ≥ 0 then fileReadSized f len.toNat arena mem else fileReadStream f arena mem
    .ok (mem, arena, some f, result)

/-- `file_write_all`: the file system, and the number of bytes. -/
def fileWriteAll (io : WriteAnswers) (fs : FileSystem) (path : List UInt8) (content : CString) :
    FileSystem × Except Error Nat :=
  match fopenWrite io fs path with
  | none => (fs, .error .ioFailed)
  | some fs =>
    let len := strLen content
    let buffered := fwrite io content.bytes
    let r := if buffered.length ≠ len then .error .ioFailed else .ok len
    -- the result of `fclose` is not looked at
    ((fclose io fs path buffered).1, r)

/-- The suffix of the temporary path. -/
def tmpSuffix : List UInt8 := ".tmp".toList.map fun ch => UInt8.ofNat ch.toNat

/-- `file_write_all_atomic`, with `FILE_MAX_PATH` and what the array for the temporary path holds
at first. -/
def fileWriteAllAtomic (maxPath : Usize) (stack : Memory) (io : WriteAnswers) (fs : FileSystem)
    (path content : CString) : Except String (FileSystem × Except Error Nat) :=
  let tmp := Cells.read stack 0 maxPath
  let pathLen := strLen path
  if usizeAdd pathLen 5 > maxPath then .ok (fs, .error .bufferTooSmall)
  else do
    let tmp ← copyElems tmp 0 path.object pathLen
    let tmp ← copyElems tmp pathLen (tmpSuffix ++ [0]) 5
    let tmp := tmp.takeWhile (· ≠ 0)
    let (fs, r) := fileWriteAll io fs tmp content
    match r with
    | .error e => .ok (remove io fs tmp, .error e)
    | .ok n =>
      let (fs, renamed) := rename io fs tmp path.bytes
      if !renamed then .ok (remove io fs tmp, .error .ioFailed)
      else .ok (fs, .ok n)

end CanonC
