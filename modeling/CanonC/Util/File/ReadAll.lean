import CanonC.Util.File.Read

/-!
# When a whole file is delivered

Where the size can be told, the file is delivered if it fits and the one call of `fread` does not
fail. Otherwise what is left to stream is the whole file if the first `fseek` has failed, and
nothing if it has moved the position to the end.
-/

namespace CanonC

open Toolkit

variable {io : ReadAnswers} {content : List UInt8} {arena : Arena} {mem : Memory}

/-- Moving the position succeeds. -/
theorem fseek_of_true {f : Stream} (h : f.answers.seeks 0 = true) (position : Nat) :
    fseek f position = ({ f with
      position := position
      answers := { f.answers with seeks := fun i => f.answers.seeks (i + 1) } }, true) :=
  if_pos h

/-- Moving the position fails. -/
theorem fseek_of_false {f : Stream} (h : ¬f.answers.seeks 0 = true) (position : Nat) :
    fseek f position = ({ f with
      answers := { f.answers with seeks := fun i => f.answers.seeks (i + 1) } }, false) :=
  if_neg h

/-- What the read by size answers and leaves. -/
inductive Sized (back : Bool) (reads : Nat → Option Nat) (content : List UInt8) (arena : Arena)
    (mem : Memory) : Memory → Arena → Stream → Option Nat → Prop
  /-- The position does not move back, or there is no room. -/
  | refuses {f' : Stream}
      (hno : ¬(back = true ∧ arena.Fits (content.length + 1) defaultAlign))
      (herror : f'.error = false) :
      Sized back reads content arena mem mem arena f' none
  /-- The call of `fread` fails, and the block stays allocated. -/
  | breaks {mem' : Memory} {arena' : Arena} {f' : Stream}
      (hfits : back = true ∧ arena.Fits (content.length + 1) defaultAlign)
      (hfails : FailsAt reads 0 content.length)
      (hoffset : arena.offset < arena'.offset) (herror : f'.error = true) :
      Sized back reads content arena mem mem' arena' f' none
  /-- The file and the terminator are the block that was allocated. -/
  | delivers {arena' : Arena} {f' : Stream} {p : Nat}
      (hfits : back = true ∧ arena.Fits (content.length + 1) defaultAlign)
      (hreads : ¬FailsAt reads 0 content.length)
      (htop : arena'.top = p + (content.length + 1)) (herror : f'.error = false) :
      Sized back reads content arena mem (Cells.write mem p (content ++ [0])) arena' f' (some p)

/-- The read by size on a stream without an error. -/
theorem fileReadSized_sized (f : Stream) (arena : Arena) (mem : Memory)
    (hlong : f.content.length ≤ longMax) (herror : f.error = false) : ∃ mem' arena' f' r,
    fileReadSized f f.content.length arena mem = .ok (mem', arena', f', r) ∧
      Sized (f.answers.seeks 0) f.answers.reads f.content arena mem mem' arena' f' r := by
  have hlt : f.content.length + 1 < usizeSize := by
    unfold longMax at hlong
    unfold usizeSize
    omega
  rw [fileReadSized, usizeAdd_of_lt hlt, if_neg (by omega)]
  by_cases hseek : f.answers.seeks 0 = true
  · simp only [fseek_of_true hseek]
    obtain ⟨arena', p, halloc, hgrant⟩ := arena.alloc_grants hlt
    have hne := hgrant.ne_zero_iff
    simp only [halloc, ok_bind]
    generalize hback : ({ f with
      position := 0
      answers := { f.answers with seeks := fun i => f.answers.seeks (i + 1) } } : Stream) = g
    have hreads : g.answers.reads = f.answers.reads := by rw [← hback]
    have hrest : g.rest = f.content := by rw [← hback]; rfl
    have hgerror : g.error = false := by rw [← hback, herror]
    rcases hgrant with ⟨⟨hpos, hfit⟩, hp, hbuf, -, htop⟩ | ⟨hnofit, rfl, rfl⟩
    · rw [if_neg (hne.mpr ⟨hpos, hfit⟩)]
      by_cases hfails : FailsAt f.answers.reads 0 f.content.length
      · obtain ⟨hshort, hset⟩ := @fread_of_fails g f.content.length (hreads ▸ hfails)
        simp only [ne_eq, hshort.ne, not_false_eq_true, if_true]
        refine ⟨_, _, _, _, rfl, .breaks ⟨hseek, hfit⟩ hfails ?_ hset⟩
        unfold Arena.top at hp htop
        omega
      · have htake : f.content.take f.content.length = f.content := List.take_length
        rw [fread_of_not_fails (hreads ▸ hfails), hrest, htake]
        simp only [ne_eq, not_true, if_false, Cells.update_write]
        exact ⟨_, _, _, _, rfl, .delivers ⟨hseek, hfit⟩ hfails htop hgerror⟩
    · rw [if_pos rfl]
      exact ⟨_, _, _, _, rfl, .refuses (fun h => hnofit ⟨Nat.succ_pos _, h.2⟩) hgerror⟩
  · simp only [fseek_of_false hseek]
    exact ⟨_, _, _, _, rfl, .refuses (fun h => hseek h.1) herror⟩

/-- The size of the file can be told: the position moves to the end and is a `long`. -/
def TellsSize (io : ReadAnswers) (content : List UInt8) : Prop :=
  io.seeks 0 = true ∧ io.tells 0 = true ∧ content.length ≤ longMax

/-- What is left of the file where its size cannot be told. -/
def leftToStream (io : ReadAnswers) (content : List UInt8) : List UInt8 :=
  if io.seeks 0 then [] else content

/-- What reading an open file answers and leaves. -/
inductive ReadsFile (io : ReadAnswers) (content : List UInt8) (arena : Arena) (mem : Memory)
    (mem' : Memory) (arena' : Arena) (f' : Stream) (r : Option Nat) : Prop
  /-- The size is told. -/
  | sized (htells : TellsSize io content)
      (h : Sized (io.seeks 1) io.reads content arena mem mem' arena' f' r)
  /-- The size cannot be told, and what is left is streamed. -/
  | streams (htells : ¬TellsSize io content)
      (h : Streams io.reads (leftToStream io content) arena mem mem' arena' f' r)

/-- Reading a file that was opened. -/
theorem fileReadAllArena_reads {fs : FileSystem} {path : CString} {content : List UInt8}
    (hfile : fs path.bytes = some content) (io : ReadAnswers) (arena : Arena) (mem : Memory) :
    ∃ mem' arena' f' r, fileReadAllArena true io fs path arena mem =
      .ok (mem', arena', some f', r) ∧ ReadsFile io content arena mem mem' arena' f' r := by
  have hopen : fopenRead true io fs path.bytes = some ⟨content, 0, false, io⟩ := by
    rw [fopenRead, if_pos rfl, hfile, Option.map_some]
  simp only [fileReadAllArena, hopen]
  by_cases hseek : io.seeks 0 = true
  · rw [@fseek_of_true ⟨content, 0, false, io⟩ hseek]
    simp only [if_true, ftell]
    by_cases htell : io.tells 0 = true ∧ content.length ≤ longMax
    · rw [if_pos htell, if_pos (Int.natCast_nonneg _), Int.toNat_natCast]
      obtain ⟨mem', arena', f', r, hrun, hsized⟩ := fileReadSized_sized
        ⟨content, content.length, false, ⟨fun i => io.seeks (i + 1), fun i => io.tells (i + 1),
          io.reads⟩⟩ arena mem htell.2 rfl
      rw [hrun]
      exact ⟨mem', arena', f', r, rfl, .sized ⟨hseek, htell⟩ hsized⟩
    · obtain ⟨mem', arena', f', r, hrun, hstreams⟩ := @fileReadStream_streams
        ⟨content, content.length, false, ⟨fun i => io.seeks (i + 1), fun i => io.tells (i + 1),
          io.reads⟩⟩ arena mem rfl
      have hleft : leftToStream io content = [] := if_pos hseek
      have hrest : content.drop content.length = [] := List.drop_length
      rw [if_neg htell, if_neg (by decide), hrun]
      refine ⟨mem', arena', f', r, rfl, .streams (fun h => htell h.2) ?_⟩
      rwa [Stream.rest, hrest, ← hleft] at hstreams
  · rw [@fseek_of_false ⟨content, 0, false, io⟩ hseek]
    obtain ⟨mem', arena', f', r, hrun, hstreams⟩ := @fileReadStream_streams
      ⟨content, 0, false, ⟨fun i => io.seeks (i + 1), io.tells, io.reads⟩⟩ arena mem rfl
    have hleft : leftToStream io content = content := if_neg hseek
    simp only [Bool.false_eq_true, if_false]
    rw [if_neg (by decide), hrun]
    refine ⟨mem', arena', f', r, rfl, .streams (fun h => hseek h.1) ?_⟩
    rwa [Stream.rest, List.drop_zero, ← hleft] at hstreams

/-- The bytes at an address are the whole file and a terminator, within what the arena has handed
out. -/
def Delivered (content : List UInt8) (mem : Memory) (arena : Arena) (p : Nat) : Prop :=
  p + (content.length + 1) ≤ arena.top ∧
    Cells.read mem p (content.length + 1) = content ++ [0]

/-- The streaming read runs through, and the file was behind its start or is longer than its
room. -/
def MissesBytes (io : ReadAnswers) (content : List UInt8) (arena : Arena) : Prop :=
  ¬TellsSize io content ∧ StreamStarts arena ∧
    ¬StreamFails io.reads (streamRoom arena) (leftToStream io content).length ∧
    (io.seeks 0 = true ∧ content ≠ [] ∨ io.seeks 0 = false ∧ streamRoom arena < content.length)

/-- A block with a text and a terminator delivers the file if and only if the text is not too
short, where it is a part of the file. -/
theorem delivered_iff {mem : Memory} {arena : Arena} {p : Nat} {text content : List UInt8}
    (htop : arena.top = p + (text.length + 1)) (hpart : text <+: content) :
    Delivered content (Cells.write mem p (text ++ [0])) arena p ↔
      ¬text.length < content.length := by
  constructor
  · intro h hshort
    have hin := h.1
    omega
  · intro hlong
    obtain rfl := hpart.eq_of_length (by have := hpart.length_le; omega)
    refine ⟨by omega, ?_⟩
    have hread := @Cells.read_write_self _ mem p (text ++ [0])
    rwa [List.length_append, List.length_singleton] at hread

/-- What is streamed is a part of the file. -/
theorem leftToStream_take_part (io : ReadAnswers) (content : List UInt8) (n : Nat) :
    (leftToStream io content).take n <+: content := by
  rw [leftToStream]
  split
  · rw [List.take_nil]
    exact List.nil_prefix
  · exact List.take_prefix n content

/-- It is too short where the position was at the end, or the room is less. -/
theorem leftToStream_take_lt (io : ReadAnswers) (content : List UInt8) (n : Nat) :
    ((leftToStream io content).take n).length < content.length ↔
      (io.seeks 0 = true ∧ content ≠ [] ∨ io.seeks 0 = false ∧ n < content.length) := by
  rw [leftToStream]
  by_cases hseek : io.seeks 0 = true
  · simp [hseek, List.length_pos_iff]
  · simp [hseek]

/-- Reading an open file delivers all of it, unless the streaming read misses bytes. -/
theorem ReadsFile.delivers_iff {mem' : Memory} {arena' : Arena} {f' : Stream} {r : Option Nat}
    (h : ReadsFile io content arena mem mem' arena' f' r) :
    (∀ p, r = some p → Delivered content mem' arena' p) ↔ ¬MissesBytes io content arena := by
  have hnone : ∀ p, none = some p → Delivered content mem' arena' p :=
    fun p hp => absurd hp.symm (Option.some_ne_none p)
  cases h with
  | sized htells h =>
    have hno : ¬MissesBytes io content arena := fun hmisses => hmisses.1 htells
    cases h with
    | refuses => exact iff_of_true hnone hno
    | breaks => exact iff_of_true hnone hno
    | delivers hfits hreads htop herror =>
      refine iff_of_true (fun q hq => ?_) hno
      obtain rfl := Option.some.inj hq
      exact (delivered_iff htop (List.prefix_refl content)).mpr (Nat.lt_irrefl _)
  | streams htells h =>
    cases h with
    | stays hno => exact iff_of_true hnone fun hmisses => hno hmisses.2.1
    | fails hstarts hfails => exact iff_of_true hnone fun hmisses => hmisses.2.2.1 hfails
    | delivers hstarts hreads htop herror =>
      have hwhole := @delivered_iff mem _ _ _ content htop (leftToStream_take_part io content _)
      rw [leftToStream_take_lt] at hwhole
      constructor
      · intro hall hmisses
        exact hwhole.mp (hall _ rfl) hmisses.2.2.2
      · intro hno q hq
        obtain rfl := Option.some.inj hq
        exact hwhole.mpr fun hshort => hno ⟨htells, hstarts, hreads, hshort⟩

/-- A file that cannot be opened. -/
theorem fileReadAllArena_unopened {opens : Bool} {fs : FileSystem} {path : CString}
    (h : ¬(opens = true ∧ ∃ content, fs path.bytes = some content)) (io : ReadAnswers)
    (arena : Arena) (mem : Memory) :
    fileReadAllArena opens io fs path arena mem = .ok (mem, arena, none, none) := by
  have hopen : fopenRead opens io fs path.bytes = none := by
    rw [fopenRead]
    split
    · next hopens =>
      cases hfile : fs path.bytes with
      | none => rfl
      | some content => exact absurd ⟨hopens, content, hfile⟩ h
    · rfl
  rw [fileReadAllArena, hopen]

/-- A returned address has the whole file, unless the streaming read misses bytes of it. -/
theorem fileReadAllArena_whole_iff (opens : Bool) (io : ReadAnswers) (fs : FileSystem)
    (path : CString) (arena : Arena) (mem : Memory) : ∃ mem' arena' closed r,
    fileReadAllArena opens io fs path arena mem = .ok (mem', arena', closed, r) ∧
      ((∀ content p, fs path.bytes = some content → r = some p →
          Delivered content mem' arena' p) ↔
        ¬(opens = true ∧ ∃ content, fs path.bytes = some content ∧
          MissesBytes io content arena)) := by
  by_cases hopened : opens = true ∧ ∃ content, fs path.bytes = some content
  · obtain ⟨rfl, content, hfile⟩ := hopened
    obtain ⟨mem', arena', f', r, hrun, hreads⟩ := fileReadAllArena_reads hfile io arena mem
    refine ⟨mem', arena', some f', r, hrun, ?_, ?_⟩
    · rintro hall ⟨-, other, hother, hmisses⟩
      obtain rfl := Option.some.inj (hfile.symm.trans hother)
      exact hreads.delivers_iff.mp (fun p => hall content p hfile) hmisses
    · intro hno other p hother
      obtain rfl := Option.some.inj (hfile.symm.trans hother)
      exact hreads.delivers_iff.mpr (fun hmisses => hno ⟨rfl, content, hfile, hmisses⟩) p
  · refine ⟨mem, arena, none, none, fileReadAllArena_unopened hopened io arena mem,
      iff_of_true (fun _ p _ hp => absurd hp.symm (Option.some_ne_none p)) ?_⟩
    rintro ⟨hopens, content, hfile, -⟩
    exact hopened ⟨hopens, content, hfile⟩

/-- An arena of two free bytes. -/
def twoBytes : Arena := ⟨16, 2, 0, 0, by decide, by decide, by decide⟩

/-- An arena with a byte in use. -/
def oddOffset : Arena := ⟨16, 32, 1, 0, by decide, by decide, by decide⟩

/-- A file of two bytes that cannot be sought is cut to the one that there is room for, and where
the position moves to the end and cannot be told, nothing of it is read. -/
theorem fileReadAllArena_cut :
    (∃ mem' arena' closed, fileReadAllArena true ⟨fun _ => false, fun _ => true, fun _ => none⟩
        (fun _ => some [104, 105]) shortPath twoBytes (fun _ => 1) =
          .ok (mem', arena', closed, some 16) ∧ ¬Delivered [104, 105] mem' arena' 16) ∧
      ∃ mem' arena' closed, fileReadAllArena true ⟨fun _ => true, fun _ => false, fun _ => none⟩
        (fun _ => some [104]) shortPath twoBytes (fun _ => 1) =
          .ok (mem', arena', closed, some 16) ∧ ¬Delivered [104] mem' arena' 16 := by
  refine ⟨⟨_, _, _, rfl, ?_⟩, _, _, _, rfl, ?_⟩
  · rintro ⟨hin, -⟩
    exact absurd hin (by decide)
  · rintro ⟨hin, -⟩
    exact absurd hin (by decide)

/-- The promise about the arena and about success: without a result the offset is as it was, and
where every call succeeds, the first `fseek` apart, a file that fits behind the padding is read. -/
structure ReadsWithin (io : ReadAnswers) (fs : FileSystem) (path : CString) (arena arena' : Arena)
    (closed : Option Stream) (r : Option Nat) : Prop where
  offset_eq : r = none → arena'.offset = arena.offset
  /-- Success, where the stream that is closed has no error. -/
  succeeds : ∀ content f', fs path.bytes = some content → closed = some f' → f'.error = false →
    (io.seeks 0 = false ∨ TellsSize io content ∧ io.seeks 1 = true) →
    arena.Fits (content.length + 1) defaultAlign → r ≠ none

/-- The read by size has allocated a block, and the call of `fread` fails. -/
def LeaksBlock (io : ReadAnswers) (content : List UInt8) (arena : Arena) : Prop :=
  TellsSize io content ∧ io.seeks 1 = true ∧ arena.Fits (content.length + 1) defaultAlign ∧
    FailsAt io.reads 0 content.length

/-- The file fits and cannot be sought, and the streaming read does not start. -/
def RefusesStream (io : ReadAnswers) (content : List UInt8) (arena : Arena) : Prop :=
  io.seeks 0 = false ∧ arena.Fits (content.length + 1) defaultAlign ∧ ¬StreamStarts arena

/-- Reading an open file keeps the promise, unless it leaks the block or refuses to stream. -/
theorem ReadsFile.within_iff {fs : FileSystem} {path : CString} {mem' : Memory} {arena' : Arena}
    {f' : Stream} {r : Option Nat} (hfile : fs path.bytes = some content)
    (h : ReadsFile io content arena mem mem' arena' f' r) :
    ReadsWithin io fs path arena arena' (some f') r ↔
      ¬(LeaksBlock io content arena ∨ RefusesStream io content arena) := by
  have hsome : ∀ p, r = some p → ReadsWithin io fs path arena arena' (some f') r := by
    rintro p rfl
    exact ⟨fun hr => absurd hr (Option.some_ne_none p), fun _ _ _ _ _ _ _ => Option.some_ne_none p⟩
  cases h with
  | sized htells h =>
    have hstreams : ¬RefusesStream io content arena := by
      rintro ⟨hseek, -⟩
      exact absurd (htells.1.symm.trans hseek) (by decide)
    cases h with
    | refuses hno herror =>
      refine iff_of_true ⟨fun _ => rfl, ?_⟩ ?_
      · rintro other g hother - - (hseek | ⟨-, hback⟩) hfits
        · exact absurd (htells.1.symm.trans hseek) (by decide)
        · obtain rfl := Option.some.inj (hfile.symm.trans hother)
          exact absurd ⟨hback, hfits⟩ hno
      · rintro (⟨-, hback, hfits, -⟩ | h)
        · exact hno ⟨hback, hfits⟩
        · exact hstreams h
    | breaks hfits hfails hoffset herror =>
      have hleaks : LeaksBlock io content arena := ⟨htells, hfits.1, hfits.2, hfails⟩
      refine iff_of_false (fun hwithin => ?_) fun hno => hno (Or.inl hleaks)
      have hkept := hwithin.offset_eq rfl
      omega
    | delivers hfits hreads htop herror =>
      exact iff_of_true (hsome _ rfl) fun h => h.elim (fun hleaks => hreads hleaks.2.2.2) hstreams
  | streams htells h =>
    have hleaks : ¬LeaksBlock io content arena := fun hleaks => htells hleaks.1
    cases h with
    | stays hno herror =>
      constructor
      · rintro hwithin (h | ⟨hseek, hfits, -⟩)
        · exact hleaks h
        · exact hwithin.succeeds content f' hfile rfl herror (Or.inl hseek) hfits rfl
      · intro hneither
        refine ⟨fun _ => rfl, ?_⟩
        rintro other g hother - - (hseek | ⟨hother', -⟩) hfits <;>
          obtain rfl := Option.some.inj (hfile.symm.trans hother)
        · exact absurd (Or.inr ⟨hseek, hfits, hno⟩) hneither
        · exact absurd hother' htells
    | fails hstarts hfails hoffset herror =>
      refine iff_of_true ⟨fun _ => hoffset, ?_⟩ fun h => h.elim hleaks fun href => href.2.2 hstarts
      rintro - g - hg hclean
      obtain rfl := Option.some.inj hg
      exact absurd (herror.symm.trans hclean) (by decide)
    | delivers hstarts hreads htop herror =>
      exact iff_of_true (hsome _ rfl) fun h => h.elim hleaks fun href => href.2.2 hstarts

/-- The streaming read keeps the offset without a result, and reading a whole file keeps the promise
about the arena and about success, unless it leaks the block or refuses to stream. -/
theorem fileReadAllArena_within_iff (opens : Bool) (io : ReadAnswers) (fs : FileSystem)
    (path : CString) (arena : Arena) (mem : Memory) :
    (∀ f : Stream, ∃ mem' arena' f' r, fileReadStream f arena mem = .ok (mem', arena', f', r) ∧
      (r = none → arena'.offset = arena.offset)) ∧
    ∃ mem' arena' closed r,
      fileReadAllArena opens io fs path arena mem = .ok (mem', arena', closed, r) ∧
        (ReadsWithin io fs path arena arena' closed r ↔
          ¬(opens = true ∧ ∃ content, fs path.bytes = some content ∧
            (LeaksBlock io content arena ∨ RefusesStream io content arena))) := by
  refine ⟨fun f => fileReadStream_offset f arena mem, ?_⟩
  by_cases hopened : opens = true ∧ ∃ content, fs path.bytes = some content
  · obtain ⟨rfl, content, hfile⟩ := hopened
    obtain ⟨mem', arena', f', r, hrun, hreads⟩ := fileReadAllArena_reads hfile io arena mem
    refine ⟨mem', arena', some f', r, hrun, (hreads.within_iff hfile).trans (not_congr ?_)⟩
    simp [hfile]
  · refine ⟨mem, arena, none, none, fileReadAllArena_unopened hopened io arena mem,
      iff_of_true ⟨fun _ => rfl, ?_⟩ ?_⟩
    · rintro content f' - hclosed
      exact absurd hclosed.symm (Option.some_ne_none f')
    · rintro ⟨hopens, content, hfile, -⟩
      exact hopened ⟨hopens, content, hfile⟩

/-- The call of `fread` fails behind the allocation, and the block stays allocated; a file of one
byte is not streamed into an arena whose offset needs padding. -/
theorem fileReadAllArena_within_fails :
    (∃ mem' arena' closed, fileReadAllArena true
        ⟨fun _ => true, fun _ => true, fun _ => some 0⟩ (fun _ => some [104]) shortPath twoBytes
        (fun _ => 1) = .ok (mem', arena', closed, none) ∧ arena'.offset = 2 ∧
      ¬ReadsWithin ⟨fun _ => true, fun _ => true, fun _ => some 0⟩ (fun _ => some [104]) shortPath
        twoBytes arena' closed none) ∧
      ∃ mem' arena' closed, fileReadAllArena true ⟨fun _ => false, fun _ => true, fun _ => none⟩
        (fun _ => some [104]) shortPath oddOffset (fun _ => 1) =
          .ok (mem', arena', closed, none) ∧
      ¬ReadsWithin ⟨fun _ => false, fun _ => true, fun _ => none⟩ (fun _ => some [104]) shortPath
        oddOffset arena' closed none := by
  refine ⟨⟨_, _, _, rfl, rfl, fun hwithin => ?_⟩, _, _, _, rfl, fun hwithin => ?_⟩
  · exact absurd (hwithin.offset_eq rfl) (by decide)
  · refine hwithin.succeeds [104] _ rfl rfl rfl (Or.inl rfl) ?_ rfl
    rw [Arena.Fits]
    decide

end CanonC
