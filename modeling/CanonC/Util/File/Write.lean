import CanonC.Util.File.Model
import Mathlib.Data.List.TakeDrop

/-!
# The atomic write

The content goes to the temporary path, and the path itself changes only where that file is
renamed to it. It then holds what reached the temporary file: all of the content, except where
closing the temporary file fails after a part of it.
-/

namespace CanonC

open Toolkit

variable {fs fs' : FileSystem} {io : WriteAnswers} {path content : CString}

/-- The temporary path. -/
def tmpPath (path : CString) : List UInt8 := path.bytes ++ tmpSuffix

/-- The path of the temporary file is another one. -/
theorem tmpPath_ne (path : CString) : tmpPath path ≠ path.bytes := by
  intro h
  have hlen := congrArg List.length h
  rw [tmpPath, List.length_append] at hlen
  exact absurd hlen (by simp [tmpSuffix])

/-- There is no terminator in the suffix. -/
theorem tmpSuffix_ne_zero : ∀ b ∈ tmpSuffix, b ≠ 0 := by simp [tmpSuffix]

/-- Both copies stay in an array that is long enough, and the string in it is the temporary
path. -/
theorem copy_tmpPath {tmp : List UInt8} (h : path.bytes.length + 5 ≤ tmp.length) :
    ∃ rest, copyElems tmp 0 path.object (strLen path) = .ok rest ∧
      ∃ array, copyElems rest (strLen path) (tmpSuffix ++ [0]) 5 = .ok array ∧
        array.takeWhile (· ≠ 0) = tmpPath path := by
  have hsplit : tmp = [] ++ tmp.take path.bytes.length ++ tmp.drop path.bytes.length :=
    (List.take_append_drop _ _).symm
  have hfirst := @copyElems_append _ [] (tmp.take path.bytes.length)
    (tmp.drop path.bytes.length) path.bytes [0] 0 (strLen path) rfl
    (List.length_take_of_le (by omega)) rfl
  rw [← hsplit, List.nil_append] at hfirst
  have hmore : tmp.drop path.bytes.length =
      (tmp.drop path.bytes.length).take 5 ++ (tmp.drop path.bytes.length).drop 5 :=
    (List.take_append_drop _ _).symm
  have hsecond := @copyElems_append _ path.bytes ((tmp.drop path.bytes.length).take 5)
    ((tmp.drop path.bytes.length).drop 5) (tmpSuffix ++ [0]) [] (strLen path) 5 rfl
    (List.length_take_of_le (by rw [List.length_drop]; omega)) rfl
  rw [List.append_assoc path.bytes, ← hmore, List.append_nil] at hsecond
  refine ⟨_, hfirst, _, hsecond, ?_⟩
  have hend : ∀ b ∈ tmpPath path, decide (b ≠ 0) = true := by
    intro b hb
    rcases List.mem_append.mp hb with hb | hb
    · exact decide_eq_true (path.noTerminator b hb)
    · exact decide_eq_true (tmpSuffix_ne_zero b hb)
  rw [← List.append_assoc path.bytes, List.append_assoc (path.bytes ++ tmpSuffix)]
  exact (List.takeWhile_append_of_pos hend).trans (by simp [tmpPath])

/-- What closing the file leaves in it. -/
def WriteAnswers.kept (io : WriteAnswers) (buffered : List UInt8) : List UInt8 :=
  match io.closes with
  | none => buffered
  | some k => buffered.take k

/-- Writing fails to open the file and changes nothing, or leaves in it what closing keeps. -/
theorem fileWriteAll_eq (path : List UInt8) : fileWriteAll io fs path content =
    if io.opens then
      (Function.update fs path (some (io.kept (content.bytes.take io.accepts))),
        if content.bytes.length ≤ io.accepts then .ok content.bytes.length else .error .ioFailed)
    else (fs, .error .ioFailed) := by
  by_cases hopen : io.opens = true
  · have hlen : (content.bytes.take io.accepts).length = content.bytes.length ↔
        content.bytes.length ≤ io.accepts := by
      rw [List.length_take]
      omega
    have hclose : (fclose io (Function.update fs path (some [])) path
        (content.bytes.take io.accepts)).1 =
        Function.update fs path (some (io.kept (content.bytes.take io.accepts))) := by
      rw [fclose, WriteAnswers.kept]
      cases io.closes <;> exact Function.update_idem _ _ _
    simp only [fileWriteAll, fopenWrite, hopen, if_true, strLen, fwrite, hclose, ne_eq, ite_not,
      hlen]
  · simp only [fileWriteAll, fopenWrite, if_neg hopen]

/-- Removing a file leaves the others. -/
theorem remove_of_ne {p q : List UInt8} (h : q ≠ p) : remove io fs p q = fs q := by
  rw [remove]
  split
  · exact Function.update_of_ne h _ _
  · rfl

/-- Renaming moves the file, or changes nothing. -/
theorem rename_eq {p q bytes : List UInt8} (h : fs p = some bytes) : rename io fs p q =
    if io.renames then (Function.update (Function.update fs q (some bytes)) p none, true)
    else (fs, false) := by
  rw [rename, h]

/-- The temporary file is opened, takes all of the content and is renamed. -/
def Replaces (io : WriteAnswers) (content : CString) : Prop :=
  io.opens = true ∧ content.bytes.length ≤ io.accepts ∧ io.renames = true

/-- All that the atomic write does to the path: it replaces the file by what closing the temporary
file has kept, or fails and leaves it. -/
theorem fileWriteAllAtomic_cases {maxPath : Usize} (stack : Memory)
    (h : path.bytes.length + 4 < maxPath) : ∃ fs' r,
    fileWriteAllAtomic maxPath stack io fs path content = .ok (fs', r) ∧
      ((Replaces io content ∧ r = .ok content.bytes.length ∧
          fs' path.bytes = some (io.kept content.bytes) ∧ fs' (tmpPath path) = none) ∨
        (¬Replaces io content ∧ (∃ e, r = .error e) ∧ fs' path.bytes = fs path.bytes)) := by
  have hlt := maxPath.isLt
  have hne := tmpPath_ne path
  have hfits : usizeAdd (strLen path) 5 = path.bytes.length + 5 :=
    usizeAdd_of_lt (by unfold strLen; omega)
  obtain ⟨rest, hfirst, array, hsecond, hpath⟩ :=
    @copy_tmpPath path (Cells.read stack 0 maxPath) (by rw [Cells.length_read]; omega)
  simp only [fileWriteAllAtomic]
  rw [hfits, if_neg (by omega), hfirst, ok_bind, hsecond, ok_bind, hpath, fileWriteAll_eq]
  by_cases hopen : io.opens = true
  · rw [if_pos hopen]
    by_cases haccept : content.bytes.length ≤ io.accepts
    · rw [if_pos haccept, List.take_of_length_le haccept]
      have hmoved := @rename_eq (Function.update fs (tmpPath path) (some (io.kept content.bytes)))
        io (tmpPath path) path.bytes _ (Function.update_self _ _ _)
      simp only [hmoved]
      by_cases hrename : io.renames = true
      · rw [if_pos hrename]
        refine ⟨_, _, rfl, Or.inl ⟨⟨hopen, haccept, hrename⟩, rfl, ?_, ?_⟩⟩
        · exact (Function.update_of_ne hne.symm _ _).trans (Function.update_self _ _ _)
        · exact Function.update_self _ _ _
      · rw [if_neg hrename]
        refine ⟨_, _, rfl, Or.inr ⟨fun hr => hrename hr.2.2, ⟨_, rfl⟩, ?_⟩⟩
        exact (remove_of_ne hne.symm).trans (Function.update_of_ne hne.symm _ _)
    · rw [if_neg haccept]
      refine ⟨_, _, rfl, Or.inr ⟨fun hr => haccept hr.2.1, ⟨_, rfl⟩, ?_⟩⟩
      exact (remove_of_ne hne.symm).trans (Function.update_of_ne hne.symm _ _)
  · rw [if_neg hopen]
    refine ⟨_, _, rfl, Or.inr ⟨fun hr => hopen hr.1, ⟨_, rfl⟩, ?_⟩⟩
    exact remove_of_ne hne.symm

/-- What the atomic write promises: after a success the path holds the content and the temporary
path nothing, and after a failure the path is as it was. -/
structure WritesAtomically (fs fs' : FileSystem) (path content : CString)
    (r : Except Error Nat) : Prop where
  /-- The number of bytes, and the files at both paths. -/
  of_ok : ∀ n, r = .ok n →
    n = content.bytes.length ∧ fs' path.bytes = some content.bytes ∧ fs' (tmpPath path) = none
  /-- The file at the path. -/
  of_error : ∀ e, r = .error e → fs' path.bytes = fs path.bytes

/-- The temporary file takes all of the content, closing it fails after a part, and it is renamed
all the same. -/
def LosesBytes (io : WriteAnswers) (content : CString) : Prop :=
  Replaces io content ∧ ∃ k, io.closes = some k ∧ k < content.bytes.length

/-- A file keeps all bytes unless the close loses some. -/
theorem kept_eq_iff {bytes : List UInt8} :
    io.kept bytes = bytes ↔ ¬∃ k, io.closes = some k ∧ k < bytes.length := by
  cases h : io.closes with
  | none => simp [WriteAnswers.kept, h]
  | some k => simp [WriteAnswers.kept, h]

/-- The atomic write keeps its promise except where it loses bytes. -/
theorem fileWriteAllAtomic_iff (maxPath : Usize) (stack : Memory) (io : WriteAnswers)
    (fs : FileSystem) (path content : CString) (h : path.bytes.length + 4 < maxPath) :
    ∃ fs' r, fileWriteAllAtomic maxPath stack io fs path content = .ok (fs', r) ∧
      (WritesAtomically fs fs' path content r ↔ ¬LosesBytes io content) := by
  obtain ⟨fs', r, hrun, ⟨hreplaces, rfl, hpath, htmp⟩ | ⟨hnot, ⟨e, rfl⟩, hpath⟩⟩ :=
    fileWriteAllAtomic_cases stack h
  · refine ⟨fs', _, hrun, ?_⟩
    have hkept : fs' path.bytes = some content.bytes ↔
        ¬∃ k, io.closes = some k ∧ k < content.bytes.length := by
      rw [hpath, Option.some.injEq, kept_eq_iff]
    constructor
    · intro hwrites hloses
      exact hkept.mp (hwrites.of_ok _ rfl).2.1 hloses.2
    · intro hkeeps
      have hall := hkept.mpr fun hloses => hkeeps ⟨hreplaces, hloses⟩
      exact ⟨fun n hn => ⟨(Except.ok.inj hn).symm, hall, htmp⟩, fun e he => by cases he⟩
  · refine ⟨fs', _, hrun, iff_of_true ⟨fun n hn => ?_, fun _ _ => hpath⟩
      fun hloses => hnot hloses.1⟩
    cases hn

/-- A content of two bytes. -/
def shortContent : CString := ⟨[104, 105], by simp, by decide⟩

/-- Where every call succeeds, the promise is kept. -/
theorem fileWriteAllAtomic_kept : ∃ fs' r,
    fileWriteAllAtomic (Fin.ofNat _ 512) (fun _ => 0) ⟨true, 2, none, true, true⟩ (fun _ => none)
        shortPath shortContent = .ok (fs', r) ∧
      WritesAtomically (fun _ => none) fs' shortPath shortContent r := by
  obtain ⟨fs', r, hrun, hiff⟩ := fileWriteAllAtomic_iff (Fin.ofNat _ 512) (fun _ => 0)
    ⟨true, 2, none, true, true⟩ (fun _ => none) shortPath shortContent (by decide)
  refine ⟨fs', r, hrun, hiff.mpr ?_⟩
  rintro ⟨-, k, hk, -⟩
  cases hk

/-- Closing the temporary file fails after one of two bytes: the call reports both, and the path
holds the first one. -/
theorem fileWriteAllAtomic_loses : ∃ fs',
    fileWriteAllAtomic (Fin.ofNat _ 512) (fun _ => 0) ⟨true, 2, some 1, true, true⟩
        (fun _ => none) shortPath shortContent = .ok (fs', .ok 2) ∧
      fs' shortPath.bytes = some [104] ∧
      ¬WritesAtomically (fun _ => none) fs' shortPath shortContent (.ok 2) := by
  obtain ⟨fs', r, hrun, ⟨-, rfl, hpath, -⟩ | ⟨hnot, -⟩⟩ :=
    @fileWriteAllAtomic_cases (fun _ => none) ⟨true, 2, some 1, true, true⟩ shortPath shortContent
      (Fin.ofNat _ 512) (fun _ => 0) (by decide)
  · refine ⟨fs', hrun, hpath, fun hwrites => ?_⟩
    have hfull := (hwrites.of_ok 2 rfl).2.1
    rw [hpath] at hfull
    exact absurd hfull (by decide)
  · exact absurd ⟨rfl, by decide, rfl⟩ hnot

end CanonC
