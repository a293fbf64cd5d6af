import CanonC.Toolkit.Run
import CanonC.Util.File.ReadAll
import CanonC.Util.File.Write

/-!
# Files written atomically are registers

A program writes files atomically and reads them, and any of the calls of the environment may
fail. As long as closing a file does not fail, each path holds what the last write to it that
succeeded has written, and a read that returns an address returns that content.
-/

namespace CanonC

open Toolkit

variable {fs fs' : FileSystem} {path content : CString}

/-- What a program does with files. -/
inductive FileOp where
  /-- `file_write_all_atomic`, with `FILE_MAX_PATH`, what the array of the path holds at first and
  what the environment answers -/
  | write (maxPath : Usize) (stack : Memory) (io : WriteAnswers) (path content : CString)
  /-- `file_read_all_arena` -/
  | read (opens : Bool) (io : ReadAnswers) (path : CString) (arena : Arena) (mem : Memory)

/-- What a call answers. -/
inductive FileOut where
  /-- The result of a write. -/
  | wrote (r : Except Error Nat)
  /-- The memory and the arena left, and the address of the bytes. -/
  | read (mem : Memory) (arena : Arena) (r : Option Nat)

/-- One call. -/
def fileStep (fs : FileSystem) : FileOp → Except String (FileOut × FileSystem)
  | .write maxPath stack io path content => do
    let (fs, r) ← fileWriteAllAtomic maxPath stack io fs path content
    .ok (.wrote r, fs)
  | .read opens io path arena mem => do
    let (mem, arena, _, r) ← fileReadAllArena opens io fs path arena mem
    .ok (.read mem arena r, fs)

/-- One call on registers that hold contents: a write replaces a content or fails and changes
nothing, and a read that does not miss bytes returns the content. -/
def Registers (regs : FileSystem) : FileOp → FileOut → FileSystem → Prop
  | .write _ _ _ path content, .wrote r, regs' =>
    (r = .ok content.bytes.length ∧
        regs' = Function.update regs path.bytes (some content.bytes)) ∨
      ((∃ e, r = .error e) ∧ regs' = regs)
  | .read _ io path arena _, .read mem' arena' r, regs' =>
    regs' = regs ∧ ∀ p, r = some p → ∃ content, regs path.bytes = some content ∧
      (¬MissesBytes io content arena → Delivered content mem' arena' p)
  | _, _, _ => False

/-- The call is on one of the given paths, which fits the address space with its suffix, and
closing the file that it writes does not fail. -/
def FileOp.Within (paths : Set (List UInt8)) : FileOp → Prop
  | .write _ _ io path _ => path.bytes ∈ paths ∧ path.bytes.length + 5 < usizeSize ∧
    io.closes = none
  | .read _ _ path _ _ => path.bytes ∈ paths

/-- Writing a file leaves the others. -/
theorem fileWriteAll_of_ne {io : WriteAnswers} {p q : List UInt8} (h : q ≠ p) :
    (fileWriteAll io fs p content).1 q = fs q := by
  rw [fileWriteAll_eq]
  split
  · exact Function.update_of_ne h _ _
  · rfl

/-- A rename touches the two files only. -/
theorem rename_of_ne {io : WriteAnswers} {p q old : List UInt8} (hp : q ≠ p) (hold : q ≠ old) :
    (rename io fs old p).1 q = fs q := by
  rw [rename]
  split
  · split
    · rfl
    · exact (Function.update_of_ne hold _ _).trans (Function.update_of_ne hp _ _)
  · rfl

/-- The atomic write touches no other path than its own and the temporary one. -/
theorem fileWriteAllAtomic_of_ne {maxPath : Usize} {stack : Memory} {io : WriteAnswers}
    {r : Except Error Nat} {q : List UInt8}
    (h : fileWriteAllAtomic maxPath stack io fs path content = .ok (fs', r))
    (hlen : path.bytes.length + 5 < usizeSize) (hq : q ≠ path.bytes) (htmp : q ≠ tmpPath path) :
    fs' q = fs q := by
  have hfits : usizeAdd (strLen path) 5 = path.bytes.length + 5 := usizeAdd_of_lt hlen
  simp only [fileWriteAllAtomic, hfits] at h
  split at h
  · obtain ⟨rfl, -⟩ := Prod.mk.inj (Except.ok.inj h)
    rfl
  next hroom =>
    obtain ⟨rest, hfirst, array, hsecond, hpath⟩ :=
      @copy_tmpPath path (Cells.read stack 0 maxPath) (by rw [Cells.length_read]; omega)
    rw [hfirst, ok_bind, hsecond, ok_bind, hpath] at h
    have hwrite := @fileWriteAll_of_ne fs content io (tmpPath path) q htmp
    generalize fileWriteAll io fs (tmpPath path) content = written at h hwrite
    obtain ⟨fs₁, r₁⟩ := written
    cases r₁ with
    | error e =>
      obtain ⟨rfl, -⟩ := Prod.mk.inj (Except.ok.inj h)
      exact (remove_of_ne htmp).trans hwrite
    | ok n =>
      have hrename := @rename_of_ne fs₁ io path.bytes q (tmpPath path) hq htmp
      simp only at h
      split at h
      · obtain ⟨rfl, -⟩ := Prod.mk.inj (Except.ok.inj h)
        exact (remove_of_ne htmp).trans (hrename.trans hwrite)
      · obtain ⟨rfl, -⟩ := Prod.mk.inj (Except.ok.inj h)
        exact hrename.trans hwrite

/-- The atomic write is answered, and replaces the file at the path or fails and leaves it. -/
theorem fileWriteAllAtomic_outcome (maxPath : Usize) (stack : Memory) {io : WriteAnswers}
    (hlen : path.bytes.length + 5 < usizeSize) (hclose : io.closes = none) :
    ∃ fs' r, fileWriteAllAtomic maxPath stack io fs path content = .ok (fs', r) ∧
      ((r = .ok content.bytes.length ∧ fs' path.bytes = some content.bytes) ∨
        ((∃ e, r = .error e) ∧ fs' path.bytes = fs path.bytes)) := by
  by_cases hroom : path.bytes.length + 4 < maxPath
  · obtain ⟨fs', r, hrun, ⟨-, hr, hpath, -⟩ | ⟨-, hr, hpath⟩⟩ :=
      @fileWriteAllAtomic_cases fs io path content maxPath stack hroom
    · have hkept : io.kept content.bytes = content.bytes := by rw [WriteAnswers.kept, hclose]
      exact ⟨fs', r, hrun, Or.inl ⟨hr, hkept ▸ hpath⟩⟩
    · exact ⟨fs', r, hrun, Or.inr ⟨hr, hpath⟩⟩
  · have hfits : usizeAdd (strLen path) 5 = path.bytes.length + 5 := usizeAdd_of_lt hlen
    refine ⟨fs, .error .bufferTooSmall, ?_, Or.inr ⟨⟨_, rfl⟩, rfl⟩⟩
    simp only [fileWriteAllAtomic, hfits]
    exact if_pos (by omega)

/-- The contents of the paths are those of the registers. -/
def AgreesOn (paths : Set (List UInt8)) (fs regs : FileSystem) : Prop := ∀ p ∈ paths, fs p = regs p

/-- One call on files is one call on registers. -/
theorem fileStep_registers {paths : Set (List UInt8)} {regs : FileSystem} {op : FileOp}
    (hpaths : ∀ path : CString, path.bytes ∈ paths → tmpPath path ∉ paths)
    (hop : op.Within paths) (hagree : AgreesOn paths fs regs) :
    ∃ o fs' regs', fileStep fs op = .ok (o, fs') ∧ Registers regs op o regs' ∧
      AgreesOn paths fs' regs' := by
  cases op with
  | write maxPath stack io path content =>
    obtain ⟨hin, hlen, hclose⟩ := hop
    obtain ⟨fs', r, hrun, houtcome⟩ :=
      @fileWriteAllAtomic_outcome fs path content maxPath stack io hlen hclose
    have hother : ∀ p ∈ paths, p ≠ path.bytes → fs' p = fs p := fun p hp hne =>
      fileWriteAllAtomic_of_ne hrun hlen hne (ne_of_mem_of_not_mem hp (hpaths path hin))
    have hstep : fileStep fs (.write maxPath stack io path content) = .ok (.wrote r, fs') := by
      rw [fileStep, hrun, ok_bind]
    rcases houtcome with ⟨hr, hpath⟩ | ⟨hr, hpath⟩
    · refine ⟨_, fs', Function.update regs path.bytes (some content.bytes), hstep,
        Or.inl ⟨hr, rfl⟩, ?_⟩
      intro p hp
      by_cases hne : p = path.bytes
      · rw [hne, hpath, Function.update_self]
      · rw [hother p hp hne, Function.update_of_ne hne, hagree p hp]
    · refine ⟨_, fs', regs, hstep, Or.inr ⟨hr, rfl⟩, ?_⟩
      intro p hp
      by_cases hne : p = path.bytes
      · rw [hne, hpath, hagree _ hin]
      · rw [hother p hp hne, hagree p hp]
  | read opens io path arena mem =>
    have hregs := hagree _ hop
    by_cases hopened : opens = true ∧ ∃ content, fs path.bytes = some content
    · obtain ⟨rfl, content, hfile⟩ := hopened
      obtain ⟨mem', arena', f', r, hrun, hreads⟩ := fileReadAllArena_reads hfile io arena mem
      refine ⟨.read mem' arena' r, fs, regs, by rw [fileStep, hrun, ok_bind], ⟨rfl, ?_⟩, hagree⟩
      intro p hp
      exact ⟨content, by rw [← hregs, hfile], fun hno => hreads.delivers_iff.mpr hno p hp⟩
    · have hrun := fileReadAllArena_unopened hopened io arena mem
      refine ⟨.read mem arena none, fs, regs, by rw [fileStep, hrun, ok_bind], ⟨rfl, ?_⟩, hagree⟩
      exact fun p hp => nomatch hp

/-- Every run of atomic writes and reads on paths none of which is the temporary path of another
completes and is a run on registers, whatever calls of the environment fail but closing a written
file: a path holds what the last successful write to it has written, and a read that does not miss
bytes returns that. -/
theorem atomic_files_refine_registers {paths : Set (List UInt8)} {ops : List FileOp}
    (hpaths : ∀ path : CString, path.bytes ∈ paths → tmpPath path ∉ paths)
    (hops : ∀ op ∈ ops, op.Within paths) (fs : FileSystem) :
    ∃ outs fs' regs', run fileStep fs ops = .ok (outs, fs') ∧ Trace Registers fs ops outs regs' ∧
      AgreesOn paths fs' regs' := by
  have hstep : ∀ s regs op, FileOp.Within paths op → AgreesOn paths s regs →
      ∃ o s' regs', fileStep s op = .ok (o, s') ∧ Registers regs op o regs' ∧
        AgreesOn paths s' regs' :=
    fun _ _ _ hop hagree => fileStep_registers hpaths hop hagree
  exact run_refines hstep hops fun _ _ => rfl

/-- A write, a second one whose `rename` fails, and a read of the first content. -/
theorem atomic_files_refine_registers_retry : ∃ outs fs' regs',
    run fileStep (fun _ => none)
      [.write 8 (fun _ => 0) ⟨true, 9, none, true, true⟩ shortPath shortContent,
        .write 8 (fun _ => 0) ⟨true, 9, none, false, true⟩ shortPath shortPath,
        .read true ⟨fun _ => true, fun _ => true, fun _ => none⟩ shortPath twoBytes fun _ => 0] =
        .ok (outs, fs') ∧
      Trace Registers (fun _ => none)
        [.write 8 (fun _ => 0) ⟨true, 9, none, true, true⟩ shortPath shortContent,
          .write 8 (fun _ => 0) ⟨true, 9, none, false, true⟩ shortPath shortPath,
          .read true ⟨fun _ => true, fun _ => true, fun _ => none⟩ shortPath twoBytes fun _ => 0]
        outs regs' ∧
      AgreesOn {shortPath.bytes} fs' regs' := by
  refine atomic_files_refine_registers ?_ ?_ _
  · intro path hpath htmp
    exact tmpPath_ne path (htmp.trans hpath.symm)
  · intro op hop
    simp only [List.mem_cons, List.not_mem_nil, or_false] at hop
    rcases hop with rfl | rfl | rfl
    · exact ⟨rfl, by decide, rfl⟩
    · exact ⟨rfl, by decide, rfl⟩
    · exact rfl

end CanonC
