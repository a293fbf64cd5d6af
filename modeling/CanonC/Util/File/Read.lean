import CanonC.Core.Arena.Regions
import CanonC.Toolkit.Chunked
import CanonC.Util.File.Model

/-!
# What the two ways of reading deliver

The loop reads what fits of the bytes from the position of the stream on, unless a call fails. The
streaming read can only start where the arena needs no padding, since it first claims all that is
left; it puts the bytes where the arena stood. The read by size puts them behind the padding.
-/

namespace CanonC

open Toolkit

/-- A call of `fread` for some bytes fails. -/
def FailsAt (reads : Nat → Option Nat) (i count : Nat) : Prop := (reads i).getD count < count

/-- One of the calls fails that read `n` bytes chunk by chunk into room for `usable` bytes. -/
def StreamFails (reads : Nat → Option Nat) (usable n : Nat) : Prop :=
  ChunkFails (FailsAt reads) fileReadChunkSize usable n

/-- The bytes from the position on. -/
def Stream.rest (f : Stream) : List UInt8 := f.content.drop f.position

/-- The stream behind a call that reads some bytes and does not fail. -/
def Stream.advance (f : Stream) (count : Nat) : Stream :=
  { f with
    position := f.position + (f.rest.take count).length
    answers := { f.answers with reads := fun i => f.answers.reads (i + 1) } }

variable {f : Stream} {base usable count : Nat} {mem : Memory}

/-- A call that fails is short and sets the error indicator. -/
theorem fread_of_fails (h : FailsAt f.answers.reads 0 count) :
    (fread f count).1.length < count ∧ (fread f count).2.error = true := by
  have hlt : (f.answers.reads 0).getD count < count := h
  constructor
  · rw [fread, List.length_take]
    omega
  · simp [fread, hlt]

/-- A call that does not fail delivers what there is. -/
theorem fread_of_not_fails (h : ¬FailsAt f.answers.reads 0 count) :
    fread f count = (f.rest.take count, f.advance count) := by
  have hge : ¬(f.answers.reads 0).getD count < count := h
  have hmin : min ((f.answers.reads 0).getD count) count = count := by omega
  simp [fread, hge, hmin, Stream.rest, Stream.advance]

/-- What is left of a stream that has moved on. -/
theorem Stream.rest_advance (f : Stream) (count : Nat) :
    (f.advance count).rest = f.rest.drop count := by
  have hdrop : f.rest.drop (f.rest.take count).length = f.rest.drop count := by
    rw [List.length_take]
    rcases Nat.le_total count f.rest.length with h | h
    · rw [Nat.min_eq_left h]
    · rw [Nat.min_eq_right h, List.drop_length, List.drop_of_length_le h]
  rw [← hdrop]
  exact List.drop_drop.symm

/-- The round of the loop in which a call fails. -/
theorem fileReadLoop_of_fails {fuel total : Nat} (htotal : total < usable)
    (h : FailsAt f.answers.reads 0 (min (usable - total) fileReadChunkSize)) : ∃ mem' f',
    fileReadLoop base usable (fuel + 1) mem f total = (mem', f', none) ∧ f'.error = true := by
  obtain ⟨hshort, herror⟩ := fread_of_fails h
  simp only [fileReadLoop]
  rw [if_pos htotal, if_pos hshort, if_pos herror]
  exact ⟨_, _, rfl, herror⟩

/-- The loop ends where there is no more room. -/
theorem fileReadLoop_of_full (fuel : Nat) {total : Nat} (htotal : usable ≤ total) :
    fileReadLoop base usable fuel mem f total = (mem, f, some total) := by
  cases fuel with
  | zero => rfl
  | succ fuel => rw [fileReadLoop, if_neg (by omega)]

/-- A round in which the call does not fail. -/
theorem fileReadLoop_of_not_fails {fuel total : Nat} (hlt : usable < usizeSize)
    (htotal : total < usable) (herror : f.error = false)
    (h : ¬FailsAt f.answers.reads 0 (min (usable - total) fileReadChunkSize)) :
    fileReadLoop base usable (fuel + 1) mem f total =
      let chunk := min (usable - total) fileReadChunkSize
      let mem := Cells.write mem (base + total) (f.rest.take chunk)
      let total := total + (f.rest.take chunk).length
      if (f.rest.take chunk).length < chunk then (mem, f.advance chunk, some total)
      else fileReadLoop base usable fuel mem (f.advance chunk) total := by
  have hlen := List.length_take_le (min (usable - total) fileReadChunkSize) f.rest
  have hadd : usizeAdd total (f.rest.take (min (usable - total) fileReadChunkSize)).length =
      total + (f.rest.take (min (usable - total) fileReadChunkSize)).length :=
    usizeAdd_of_lt (by omega)
  have hflag : ¬(f.advance (min (usable - total) fileReadChunkSize)).error = true := by
    rw [Stream.advance, herror]
    exact Bool.false_ne_true
  simp only [fileReadLoop]
  rw [if_pos htotal, fread_of_not_fails h]
  simp only [hadd, if_neg hflag]

/-- What the loop leaves: what fits of the rest is read, or a call has failed. -/
def ReadsRest (base usable : Nat) (mem : Memory) (f : Stream) (total : Nat)
    (out : Memory × Stream × Option Nat) : Prop :=
  (StreamFails f.answers.reads (usable - total) f.rest.length ∧ out.2.2 = none ∧
    out.2.1.error = true) ∨
  (¬StreamFails f.answers.reads (usable - total) f.rest.length ∧
    out.1 = Cells.write mem (base + total) (f.rest.take (usable - total)) ∧
    out.2.2 = some (total + (f.rest.take (usable - total)).length) ∧ out.2.1.error = false)

/-- Behind a round that was answered in full, the loop goes on with the rest. -/
theorem ReadsRest.of_next {total : Nat} {out : Memory × Stream × Option Nat}
    (hroom : total + fileReadChunkSize < usable) (hrest : fileReadChunkSize ≤ f.rest.length)
    (hfirst : ¬FailsAt f.answers.reads 0 fileReadChunkSize)
    (h : ReadsRest base usable
      (Cells.write mem (base + total) (f.rest.take fileReadChunkSize))
      (f.advance fileReadChunkSize) (total + fileReadChunkSize) out) :
    ReadsRest base usable mem f total out := by
  have hlen : (f.rest.take fileReadChunkSize).length = fileReadChunkSize :=
    List.length_take_of_le hrest
  have hsub : usable - (total + fileReadChunkSize) = usable - total - fileReadChunkSize := by omega
  have hnext : StreamFails f.answers.reads (usable - total) f.rest.length ↔
      StreamFails (f.advance fileReadChunkSize).answers.reads (usable - (total + fileReadChunkSize))
        (f.advance fileReadChunkSize).rest.length := by
    have hiff := @chunkFails_iff_next (FailsAt f.answers.reads) fileReadChunkSize (usable - total)
      f.rest.length (by omega) hrest hfirst
    rw [Stream.rest_advance, List.length_drop, hsub]
    exact hiff
  have htake : f.rest.take (usable - total) = f.rest.take fileReadChunkSize ++
      (f.rest.drop fileReadChunkSize).take (usable - total - fileReadChunkSize) := by
    have hsplit : usable - total = fileReadChunkSize + (usable - total - fileReadChunkSize) := by
      omega
    exact (congrArg f.rest.take hsplit).trans List.take_add
  rcases h with ⟨hfails, hnone, herror⟩ | ⟨hreads, hmem, htotal, herror⟩
  · exact Or.inl ⟨hnext.mpr hfails, hnone, herror⟩
  · refine Or.inr ⟨fun h => hreads (hnext.mp h), ?_, ?_, herror⟩
    · have hwrite := @Cells.write_write_append _ mem (base + total)
        (f.rest.take fileReadChunkSize)
        ((f.rest.drop fileReadChunkSize).take (usable - total - fileReadChunkSize)) []
        (Nat.zero_le _)
      rw [List.append_nil, hlen, Nat.add_assoc] at hwrite
      rw [hmem, Stream.rest_advance, hsub, htake, hwrite]
    · rw [htotal, Stream.rest_advance, hsub, htake, List.length_append, hlen, Nat.add_assoc]

/-- The loop reads what fits of the rest, or stops at the first call that fails. -/
theorem fileReadLoop_reads (base : Nat) (hlt : usable < usizeSize) : ∀ (fuel total : Nat)
    (mem : Memory) (f : Stream), usable - total ≤ fuel → total ≤ usable → f.error = false →
    ReadsRest base usable mem f total (fileReadLoop base usable fuel mem f total) := by
  have hdone : ∀ (mem : Memory) (f : Stream), f.error = false →
      ReadsRest base usable mem f usable (mem, f, some usable) := by
    intro mem f herror
    rw [ReadsRest, Nat.sub_self, List.take_zero, Cells.write_nil]
    exact Or.inr ⟨not_chunkFails_zero, rfl, rfl, herror⟩
  intro fuel
  induction fuel with
  | zero =>
    intro total mem f hfuel htotal herror
    obtain rfl : total = usable := by omega
    exact hdone mem f herror
  | succ fuel ih =>
    intro total mem f hfuel htotal herror
    rcases htotal.eq_or_lt with rfl | hroom
    · rw [fileReadLoop_of_full _ (Nat.le_refl _)]
      exact hdone mem f herror
    have hpos : 0 < usable - total := by omega
    by_cases hfails : FailsAt f.answers.reads 0 (min (usable - total) fileReadChunkSize)
    · obtain ⟨mem', f', hround, herror'⟩ := fileReadLoop_of_fails hroom hfails
      rw [hround]
      exact Or.inl ⟨chunkFails_of_first hpos hfails, rfl, herror'⟩
    rw [fileReadLoop_of_not_fails hlt hroom herror hfails]
    by_cases hshort : f.rest.length < min (usable - total) fileReadChunkSize
    · -- the end of the file
      have htake : f.rest.take (min (usable - total) fileReadChunkSize) = f.rest :=
        List.take_of_length_le (by omega)
      have hall : f.rest.take (usable - total) = f.rest := List.take_of_length_le (by omega)
      have honly := @chunkFails_iff_first (FailsAt f.answers.reads) _ _ _ hpos
        (Or.inr (show f.rest.length < fileReadChunkSize by omega))
      simp only [htake, if_pos hshort]
      refine Or.inr ⟨fun h => hfails (honly.mp h), ?_, ?_, herror⟩
      · rw [hall]
      · rw [hall]
    · have hlen : (f.rest.take (min (usable - total) fileReadChunkSize)).length =
          min (usable - total) fileReadChunkSize := List.length_take_of_le (by omega)
      simp only [hlen, Nat.lt_irrefl, if_false]
      by_cases hlast : usable - total ≤ fileReadChunkSize
      · -- the room is used up
        have honly := @chunkFails_iff_first (FailsAt f.answers.reads) _ _ f.rest.length hpos
          (Or.inl hlast)
        rw [Nat.min_eq_left hlast] at hlen ⊢
        rw [fileReadLoop_of_full fuel (by omega)]
        refine Or.inr ⟨fun h => hfails (honly.mp h), rfl, ?_, herror⟩
        rw [hlen]
      · have hchunk : min (usable - total) fileReadChunkSize = fileReadChunkSize := by omega
        rw [hchunk] at hshort hfails ⊢
        exact ReadsRest.of_next (by omega) (by omega) hfails
          (ih _ _ _ (by unfold fileReadChunkSize at *; omega) (by omega) herror)

/-- The streaming read can start: two bytes are left, and claiming all of them needs no padding. -/
def StreamStarts (arena : Arena) : Prop :=
  2 ≤ arena.capacity - arena.offset ∧ padding arena.top defaultAlign = 0

/-- The bytes that the streaming read has room for. -/
def streamRoom (arena : Arena) : Nat := arena.capacity - arena.offset - 1

/-- What the streaming read of some bytes answers and leaves: it does not start, or a call fails
and it rolls back, or it delivers what fits where the arena stood. -/
inductive Streams (reads : Nat → Option Nat) (rest : List UInt8) (arena : Arena) (mem : Memory) :
    Memory → Arena → Stream → Option Nat → Prop
  /-- The arena is as it was. -/
  | stays {f' : Stream} (hno : ¬StreamStarts arena) (herror : f'.error = false) :
      Streams reads rest arena mem mem arena f' none
  /-- The offset is as it was. -/
  | fails {mem' : Memory} {arena' : Arena} {f' : Stream} (hstarts : StreamStarts arena)
      (hfails : StreamFails reads (streamRoom arena) rest.length)
      (hoffset : arena'.offset = arena.offset) (herror : f'.error = true) :
      Streams reads rest arena mem mem' arena' f' none
  /-- The bytes and the terminator are the block behind the old offset. -/
  | delivers {arena' : Arena} {f' : Stream} (hstarts : StreamStarts arena)
      (hreads : ¬StreamFails reads (streamRoom arena) rest.length)
      (htop : arena'.top = arena.top + ((rest.take (streamRoom arena)).length + 1))
      (herror : f'.error = false) :
      Streams reads rest arena mem
        (Cells.write mem arena.top (rest.take (streamRoom arena) ++ [0])) arena' f'
        (some arena.top)

/-- A request that fits without padding gets the block behind the offset. -/
theorem Arena.alloc_unpadded {arena : Arena} {n : Nat} (hpad : padding arena.top defaultAlign = 0)
    (hpos : 0 < n) (hn : arena.offset + n ≤ arena.capacity) : ∃ arena',
    arenaAlloc arena n = .ok (arena', arena.top) ∧ arena'.top = arena.top + n ∧
      arena'.buffer = arena.buffer ∧ arena'.capacity = arena.capacity := by
  have hmax := usizeMax_succ
  have hfits := arena.capacity_fits
  obtain ⟨arena', p, halloc, hgrant⟩ := arena.alloc_grants (show n < usizeSize by omega)
  rcases hgrant with ⟨-, rfl, hbuf, hcap, htop⟩ | ⟨hno, -⟩
  · rw [hpad, Nat.add_zero] at halloc htop
    exact ⟨arena', halloc, htop, hbuf, hcap⟩
  · refine absurd ⟨hpos, ?_⟩ hno
    rw [Arena.Fits, hpad]
    omega

/-- A streaming read that does not start changes nothing. -/
theorem fileReadStream_of_not_starts (f : Stream) (mem : Memory) {arena : Arena}
    (h : ¬StreamStarts arena) : fileReadStream f arena mem = .ok (mem, arena, f, none) := by
  have hmax := usizeMax_succ
  have hfits := arena.capacity_fits
  rw [fileReadStream, arena.remaining_eq]
  by_cases hroom : arena.capacity - arena.offset < 2
  · rw [if_pos hroom]
  · obtain ⟨all, base, halloc, hgrant⟩ :=
      arena.alloc_grants (show arena.capacity - arena.offset < usizeSize by omega)
    rw [if_neg hroom, halloc, ok_bind]
    rcases hgrant with ⟨⟨-, hfit⟩, -⟩ | ⟨-, rfl, rfl⟩
    · -- all that is left fits only without padding
      refine absurd ⟨by omega, ?_⟩ h
      unfold Arena.Fits at hfit
      omega
    · exact if_pos rfl

/-- A streaming read that starts rolls the arena back behind the loop, and claims the bytes read
again. -/
theorem fileReadStream_of_starts (f : Stream) (mem : Memory) {arena : Arena}
    (h : StreamStarts arena) : ∃ rolled : Arena, rolled.offset = arena.offset ∧
      rolled.top = arena.top ∧ rolled.capacity = arena.capacity ∧
      (∀ mem₁ f₁, fileReadLoop arena.top (streamRoom arena) (streamRoom arena) mem f 0 =
          (mem₁, f₁, none) → fileReadStream f arena mem = .ok (mem₁, rolled, f₁, none)) ∧
      ∀ mem₁ f₁ total again p,
        fileReadLoop arena.top (streamRoom arena) (streamRoom arena) mem f 0 =
          (mem₁, f₁, some total) →
        arenaAlloc rolled (usizeAdd total 1) = .ok (again, p) →
        fileReadStream f arena mem =
          if p = 0 then .ok (Function.update mem₁ (arena.top + total) 0, again, f₁, none)
          else .ok (Function.update (Function.update mem₁ (arena.top + total) 0) (p + total) 0,
            again, f₁, some p) := by
  obtain ⟨hleft, hpad⟩ := h
  have hbuf := arena.buffer_pos
  have htop : arena.top ≠ 0 := by
    unfold Arena.top
    omega
  obtain ⟨all, halloc, halltop, hallbuf, hallcap⟩ := arena.alloc_unpadded hpad
    (show 0 < arena.capacity - arena.offset by omega) (by omega)
  have hmark : arenaMark arena ≤ all.offset := by
    rw [Arena.top, Arena.top, hallbuf] at halltop
    rw [arenaMark]
    omega
  obtain ⟨rolled, hrolled, hrbuf, hrcap, hroff⟩ := all.resetTo_eq hmark
  have hrtop : rolled.top = arena.top := by rw [Arena.top, hrbuf, hroff, hallbuf]; rfl
  refine ⟨rolled, hroff, hrtop, hrcap.trans hallcap, ?_, ?_⟩
  · intro mem₁ f₁ hloop
    rw [streamRoom] at hloop
    simp only [fileReadStream, arena.remaining_eq, if_neg (Nat.not_lt.mpr hleft), halloc, ok_bind,
      if_neg htop, hloop, hrolled]
  · intro mem₁ f₁ total again p hloop hagain
    rw [streamRoom] at hloop
    simp only [fileReadStream, arena.remaining_eq, if_neg (Nat.not_lt.mpr hleft), halloc, ok_bind,
      if_neg htop, hloop, hrolled, hagain]

/-- Without a result, the streaming read of any stream leaves the offset as it was. -/
theorem fileReadStream_offset (f : Stream) (arena : Arena) (mem : Memory) :
    ∃ mem' arena' f' r, fileReadStream f arena mem = .ok (mem', arena', f', r) ∧
      (r = none → arena'.offset = arena.offset) := by
  by_cases hstarts : StreamStarts arena
  · obtain ⟨rolled, hoffset, -, -, hnone, hsome⟩ := fileReadStream_of_starts f mem hstarts
    rcases hloop : fileReadLoop arena.top (streamRoom arena) (streamRoom arena) mem f 0 with
      ⟨mem₁, f₁, _ | total⟩
    · exact ⟨_, _, _, _, hnone _ _ hloop, fun _ => hoffset⟩
    · obtain ⟨again, p, hagain, hgrant⟩ :=
        rolled.alloc_grants (show usizeAdd total 1 < usizeSize from Nat.mod_lt _ (by decide))
      rw [hsome _ _ _ _ _ hloop hagain]
      by_cases hp : p = 0
      · subst hp
        rw [if_pos rfl, hgrant.eq_of_null]
        exact ⟨_, _, _, _, rfl, fun _ => hoffset⟩
      · rw [if_neg hp]
        exact ⟨_, _, _, _, rfl, fun h => absurd h (Option.some_ne_none p)⟩
  · exact ⟨_, _, _, _, fileReadStream_of_not_starts f mem hstarts, fun _ => rfl⟩

/-- The streaming read on a stream without an error. -/
theorem fileReadStream_streams (arena : Arena) (mem : Memory) (herror : f.error = false) :
    ∃ mem' arena' f' r, fileReadStream f arena mem = .ok (mem', arena', f', r) ∧
      Streams f.answers.reads f.rest arena mem mem' arena' f' r := by
  by_cases hstarts : StreamStarts arena
  · have hmax := usizeMax_succ
    have hfits := arena.capacity_fits
    have hleft := hstarts.1
    have hroom : streamRoom arena = arena.capacity - arena.offset - 1 := rfl
    have hlen := List.length_take_le (streamRoom arena) f.rest
    have htop : arena.top ≠ 0 := by
      have hbuf := arena.buffer_pos
      unfold Arena.top
      omega
    obtain ⟨rolled, hoffset, hrtop, hrcap, hnone, hsome⟩ := fileReadStream_of_starts f mem hstarts
    rcases hloop : fileReadLoop arena.top (streamRoom arena) (streamRoom arena) mem f 0 with
      ⟨mem₁, f₁, r₁⟩
    have hreads := fileReadLoop_reads arena.top (show streamRoom arena < usizeSize by omega)
      (streamRoom arena) 0 mem f (Nat.sub_le _ _) (Nat.zero_le _) herror
    rw [hloop] at hreads
    rcases hreads with ⟨hfails, rfl, herror₁⟩ | ⟨hreads, hmem, htotal, herror₁⟩
    · exact ⟨_, _, _, _, hnone _ _ hloop, .fails hstarts hfails hoffset herror₁⟩
    · rw [Nat.sub_zero] at hreads hmem htotal
      rw [Nat.add_zero] at hmem
      rw [Nat.zero_add] at htotal
      subst hmem htotal
      have hsize : usizeAdd (f.rest.take (streamRoom arena)).length 1 =
          (f.rest.take (streamRoom arena)).length + 1 := usizeAdd_of_lt (by omega)
      obtain ⟨arena', hagain, htop', -, -⟩ := rolled.alloc_unpadded (hrtop ▸ hstarts.2)
        (Nat.succ_pos (f.rest.take (streamRoom arena)).length) (by omega)
      rw [hrtop] at hagain htop'
      rw [hsome _ _ _ _ _ hloop (by rw [hsize]; exact hagain), if_neg htop, Function.update_idem,
        Cells.update_write]
      exact ⟨_, _, _, _, rfl, .delivers hstarts hreads htop' herror₁⟩
  · exact ⟨_, _, _, _, fileReadStream_of_not_starts f mem hstarts, .stays hstarts herror⟩

end CanonC
