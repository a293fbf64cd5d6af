import CanonC.Core.Bytes

/-!
# Files and streams

A file system gives each path the content of its file. Every call may fail; which calls do is an
answer of the environment that the call consumes. A stream delivers the bytes of its content from
its position on; a stream that is written keeps its bytes in a buffer until it is closed.
-/

namespace CanonC

open Toolkit

/-- The content of the file at a path. -/
abbrev FileSystem : Type := List UInt8 → Option (List UInt8)

/-- `LONG_MAX` -/
def longMax : Nat := 2 ^ 63 - 1

/-- What the next calls on a stream that is read answer, the first one first. -/
structure ReadAnswers where
  /-- Whether a call of `fseek` succeeds. -/
  seeks : Nat → Bool
  /-- Whether a call of `ftell` succeeds. -/
  tells : Nat → Bool
  /-- After how many bytes a call of `fread` fails, absent where it does not. -/
  reads : Nat → Option Nat

/-- A stream that is read. -/
structure Stream where
  /-- The bytes of the file. -/
  content : List UInt8
  position : Nat
  error : Bool
  /-- What the next calls answer. -/
  answers : ReadAnswers

/-- `fopen` with `"rb"`, absent for NULL. -/
def fopenRead (opens : Bool) (answers : ReadAnswers) (fs : FileSystem) (path : List UInt8) :
    Option Stream :=
  if opens then (fs path).map fun content => ⟨content, 0, false, answers⟩ else none

/-- `fseek` to a position: the stream, and whether the call succeeded. -/
def fseek (f : Stream) (position : Nat) : Stream × Bool :=
  let rest := { f.answers with seeks := fun i => f.answers.seeks (i + 1) }
  if f.answers.seeks 0 then ({ f with position := position, answers := rest }, true)
  else ({ f with answers := rest }, false)

/-- `ftell`: the position where it is a `long`, and -1 where the call fails. -/
def ftell (f : Stream) : Stream × Int :=
  let rest := { f.answers with tells := fun i => f.answers.tells (i + 1) }
  ({ f with answers := rest },
    if f.answers.tells 0 ∧ f.position ≤ longMax then f.position else -1)

/-- `fread` of `count` bytes: a short count is the end of the file or an error. -/
def fread (f : Stream) (count : Nat) : List UInt8 × Stream :=
  let rest := { f.answers with reads := fun i => f.answers.reads (i + 1) }
  let delivered := (f.answers.reads 0).getD count
  let bytes := (f.content.drop f.position).take (min delivered count)
  (bytes, { f with
    position := f.position + bytes.length
    error := f.error || decide (delivered < count)
    answers := rest })

/-- What the calls that write a file answer. -/
structure WriteAnswers where
  /-- Whether `fopen` succeeds. -/
  opens : Bool
  /-- How many bytes `fwrite` accepts at most. -/
  accepts : Nat
  /-- After how many bytes writing out the buffer fails, absent where it does not. -/
  closes : Option Nat
  /-- Whether `rename` succeeds. -/
  renames : Bool
  /-- Whether `remove` succeeds. -/
  removes : Bool

/-- `fopen` with `"wb"`, absent for NULL. -/
def fopenWrite (io : WriteAnswers) (fs : FileSystem) (path : List UInt8) : Option FileSystem :=
  if io.opens then some (Function.update fs path (some [])) else none

/-- `fwrite`: the bytes that the buffer of the stream takes. -/
def fwrite (io : WriteAnswers) (bytes : List UInt8) : List UInt8 := bytes.take io.accepts

/-- `fclose` of a stream with bytes in its buffer: the file gets them, or a part of them and the
call fails. -/
def fclose (io : WriteAnswers) (fs : FileSystem) (path buffered : List UInt8) :
    FileSystem × Bool :=
  match io.closes with
  | none => (Function.update fs path (some buffered), true)
  | some k => (Function.update fs path (some (buffered.take k)), false)

/-- `rename`: whether the call succeeded. -/
def rename (io : WriteAnswers) (fs : FileSystem) (old new : List UInt8) : FileSystem × Bool :=
  if io.renames then
    match fs old with
    | none => (fs, false)
    | some content => (Function.update (Function.update fs new (some content)) old none, true)
  else (fs, false)

/-- `remove` -/
def remove (io : WriteAnswers) (fs : FileSystem) (path : List UInt8) : FileSystem :=
  if io.removes then Function.update fs path none else fs

/-- A path of one byte. -/
def shortPath : CString := ⟨[97], by simp, by decide⟩

end CanonC
