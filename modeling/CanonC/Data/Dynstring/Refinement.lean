import CanonC.Data.Dynstring.Growth
import CanonC.Toolkit.Run

/-!
# The growing string is an unbounded byte string

Whatever the allocator answers, a call that succeeds acts on the bytes as it should, also where
its source lies in the string, and a call that fails changes nothing. The terminator stays behind
the bytes.
-/

namespace CanonC

open Toolkit

variable {mem : ByteMemory} {t t' : Dynstring} {s s' : DynstringState} {xs ys zs : List UInt8}
  {p : Pointer} {n d : Nat}

/-- The bytes of the string. -/
def DynstringState.bytes (s : DynstringState) : List UInt8 :=
  match s.str.data with
  | none => []
  | some d =>
    match s.mem.objects d with
    | none => []
    | some a => Cells.read a.cells 0 s.str.len

/-- The bytes that the source of a call holds before it. -/
def DynstringOp.source (s : DynstringState) : DynstringOp → List UInt8
  | .append (some p) _ => sourceBytes s.mem p
  | .appendN (some p) n _ => (sourceBytes s.mem p).take n
  | _ => []

/-- The call needs no allocation. -/
def DynstringOp.Fits (cap : Nat) (xs ys : List UInt8) : DynstringOp → Prop
  | .append _ _ | .appendN _ _ _ => ys = [] ∨ xs.length + ys.length + 1 ≤ cap
  | .appendChar _ _ => xs.length + 2 ≤ cap
  | .reserve minCap _ => minCap.val ≤ cap
  | .shrinkToFit _ => xs = [] ∨ xs.length + 1 = cap
  | .toCstr _ => False
  | _ => True

/-- What a call that succeeds makes of the bytes. -/
def DynstringOp.effect (xs ys : List UInt8) : DynstringOp → List UInt8
  | .append _ _ | .appendN _ _ _ => xs ++ ys
  | .appendChar c _ => xs ++ [c]
  | .clear => []
  | .truncate newLen => xs.take newLen
  | .reserve _ _ | .shrinkToFit _ | .toCstr _ | .other _ => xs

/-- What a call answers and leaves. -/
structure DynstringOp.Outcome (s : DynstringState) (op : DynstringOp) (o : DynstringOut)
    (s' : DynstringState) : Prop where
  /-- The string holds its bytes and the terminator in an object of exactly its capacity. -/
  holds : s'.str.Holds s'.mem s'.bytes
  /-- A call that succeeds acts on the bytes. -/
  done : o.ok = true → s'.bytes = op.effect s.bytes (op.source s)
  /-- A call that fails changes nothing. -/
  refused : o.ok = false → s' = s
  /-- A call that needs no allocation succeeds. -/
  fits : op.Fits s.str.cap s.bytes (op.source s) → o.ok = true
  /-- The string leaves other objects alone. -/
  keeps : (∀ c, op ≠ .other c) → s.mem.Keeps s'.mem s.str.data
  /-- A copy lies in an object of its own and has the bytes and the terminator, and the string is
  the same. -/
  copy : ∀ answer, op = .toCstr answer → s'.str = s.str ∧ o.copy.isSome = o.ok ∧
    ∀ c, o.copy = some c → s.mem.objects c = none ∧
      s'.mem.Buffer 1 (some c) (s.bytes.length + 1) (s.bytes ++ [0])

/-- A string holds no bytes but its own. -/
theorem Dynstring.Holds.bytes_eq (h : s.str.Holds s.mem xs) : s.bytes = xs := by
  unfold DynstringState.bytes
  cases hd : s.str.data with
  | none => exact (h.null hd).2.symm
  | some d =>
    obtain ⟨a, ha, -, hread⟩ := (h.buffer d hd).object d rfl
    rw [List.length_append, List.length_singleton, Cells.read_add] at hread
    simp only [ha, h.len_eq]
    exact List.append_inj_left' hread (by simp)

namespace DynstringOp.Outcome

variable {op : DynstringOp}

/-- A refusal. -/
theorem of_refused (h : s.str.Holds s.mem xs)
    (hcall : dynstringCall s op = .ok (⟨false, none⟩, s))
    (hfits : ¬ op.Fits s.str.cap xs (op.source s)) :
    ∃ o s', dynstringCall s op = .ok (o, s') ∧ op.Outcome s o s' := by
  have hbytes := h.bytes_eq
  refine ⟨_, _, hcall, hbytes.symm ▸ h, nofun, fun _ => rfl, fun hf => ?_,
    fun _ => Store.Keeps.refl _ _, fun _ _ => ⟨rfl, rfl, nofun⟩⟩
  rw [hbytes] at hf
  exact absurd hf hfits

/-- A success that is no copy. -/
theorem of_done (h : s.str.Holds s.mem xs) (hcall : dynstringCall s op = .ok (⟨true, none⟩, s'))
    (holds : s'.str.Holds s'.mem zs) (heffect : zs = op.effect xs (op.source s))
    (hkeeps : (∀ c, op ≠ .other c) → s.mem.Keeps s'.mem s.str.data)
    (hop : ∀ answer, op ≠ .toCstr answer) :
    ∃ o s', dynstringCall s op = .ok (o, s') ∧ op.Outcome s o s' := by
  have hbytes := h.bytes_eq
  have hzs := holds.bytes_eq
  refine ⟨_, _, hcall, hzs.symm ▸ holds, fun _ => ?_, nofun, fun _ => rfl, hkeeps,
    fun answer heq => absurd heq (hop answer)⟩
  rw [hbytes, hzs]
  exact heffect

end DynstringOp.Outcome

section Contents

/-- With nothing but room the string holds the bytes. -/
theorem Dynstring.Holds.of_buffer {len cap : Nat} (h : mem.Buffer 1 (some d) cap (xs ++ [0]))
    (hlen : len = xs.length) : Dynstring.Holds mem ⟨some d, len, cap⟩ xs := by
  refine ⟨nofun, fun d' hd' => ?_, hlen⟩
  rwa [← Option.some.inj hd']

/-- Bytes that are written over the terminator lie behind those of the string. -/
theorem splice_terminator (hys : 0 < ys.length) :
    splice (xs ++ [0]) xs.length ys = xs ++ ys := by
  rw [splice, List.take_left, List.drop_eq_nil_of_le (by simp; omega), List.append_nil]

private theorem terminate {cap : Nat} {mem' : ByteMemory}
    (h : mem'.Buffer 1 (some d) cap (splice (xs ++ [0]) xs.length ys)) (hys : 0 < ys.length)
    (hroom : xs.length + ys.length + 1 ≤ cap) :
    ∃ mem'', mem'.write 1 ⟨d, xs.length + ys.length⟩ [0] = .ok mem'' ∧
      mem''.Buffer 1 (some d) cap (xs ++ ys ++ [0]) ∧ mem'.Keeps mem'' (some d) := by
  rw [splice_terminator hys] at h
  obtain ⟨mem'', hwrite, hnew, hkeeps⟩ := h.write [0] (Nat.le_refl _)
    (by rw [List.length_append]; exact hroom)
  rw [splice_length] at hnew
  rw [List.length_append] at hwrite
  exact ⟨mem'', hwrite, hnew, hkeeps⟩

private theorem cut (h : t.Holds mem xs) (hd : t.data = some d) (hn : n ≤ xs.length) :
    ∃ mem', mem.write 1 ⟨d, n⟩ [0] = .ok mem' ∧
      Dynstring.Holds mem' { t with len := n } (xs.take n) ∧ mem.Keeps mem' t.data := by
  have hbuffer := h.buffer d hd
  have hlength := hbuffer.length_le
  rw [List.length_append, List.length_singleton] at hlength
  obtain ⟨mem', hwrite, hnew, hkeeps⟩ := hbuffer.write (i := n) [0]
    (by simp only [List.length_append, List.length_singleton]; omega)
    (by simp only [List.length_singleton]; omega)
  have htake := hnew.take (n + 1)
  have hcut : (splice (xs ++ [0]) n [0]).take (n + 1) = xs.take n ++ [0] := by
    have hhead : (xs ++ [0]).take n = xs.take n := List.take_append_of_le_length hn
    rw [splice, hhead]
    apply List.take_left'
    simp [hn]
  rw [hcut] at htake
  refine ⟨mem', hwrite, ⟨fun hnone => ?_, fun d' hd' => ?_, by simp [hn]⟩, hd ▸ hkeeps⟩
  · rw [show t.data = none from hnone] at hd
    cases hd
  · rw [show t.data = some d' from hd'] at hd
    rwa [Option.some.inj hd]

end Contents

section Calls

variable {s : DynstringState}

/-- The bytes of the string and of a source and a terminator can be counted. -/
theorem Dynstring.Holds.usizeAdd_required (h : t.Holds mem xs) (hn : n ≤ ptrdiffMax) :
    usizeAdd t.len n = xs.length + n ∧ usizeAdd (usizeAdd t.len n) 1 = xs.length + n + 1 := by
  have hlen := h.len_lt
  rw [← h.len_eq]
  unfold ptrdiffMax at hlen hn
  have hsum : usizeAdd t.len n = t.len + n := usizeAdd_of_lt (by unfold usizeSize; omega)
  rw [hsum]
  exact ⟨rfl, usizeAdd_of_lt (by unfold usizeSize; omega)⟩

private theorem release {mem' : ByteMemory} {cap : Nat} (h : t.Holds mem xs)
    (hbuffer : mem'.Buffer 1 (some d) cap ys) (hkeeps : mem.Keeps mem' none)
    (hfresh : mem.objects d = none) :
    ∃ mem'', mem'.free t.data = .ok mem'' ∧ mem''.Buffer 1 (some d) cap ys ∧
      mem.Keeps mem'' t.data := by
  cases hd : t.data with
  | none => exact ⟨mem', rfl, hbuffer, hkeeps⟩
  | some old =>
    have hold := (h.buffer old hd).of_keeps hkeeps fun _ _ => Option.some_ne_none _
    obtain ⟨mem'', hfree, hkeeps'⟩ := hold.free
    refine ⟨mem'', hfree, hbuffer.of_keeps hkeeps' fun d' hd' heq => ?_,
      (hkeeps.of_none _).trans hkeeps' fun _ h => Or.inl h⟩
    obtain ⟨a, ha, -⟩ := (h.buffer old hd).object old rfl
    rw [← Option.some.inj heq, ← Option.some.inj hd', hfresh] at ha
    cases ha

/-- The object that a detached growth has set aside is given back. -/
theorem Dynstring.Holds.free_old {mem₁ mem₂ : ByteMemory} {old : Option Nat} {cap : Nat}
    (h : t.Holds mem xs) (hkeeps₁ : mem.Keeps mem₁ none)
    (hold : t.data = some d ∧ old = none ∨ mem.objects d = none ∧ old = t.data)
    (hbuffer : mem₂.Buffer 1 (some d) cap ys) (hkeeps₂ : mem₁.Keeps mem₂ (some d)) :
    ∃ mem₃, mem₂.free old = .ok mem₃ ∧ mem₃.Buffer 1 (some d) cap ys ∧ mem.Keeps mem₃ t.data := by
  rcases hold with ⟨hsame, rfl⟩ | ⟨hfresh, rfl⟩
  · refine ⟨mem₂, rfl, hbuffer, (hkeeps₁.of_none _).trans hkeeps₂ fun d' hd' => ?_⟩
    exact Or.inl (hsame.trans hd')
  · have hkept : mem.Keeps mem₂ none := by
      apply hkeeps₁.trans hkeeps₂
      intro d' hd'
      rw [← Option.some.inj hd']
      exact Or.inr hfresh
    exact release h hbuffer hkept hfresh

/-- An append is refused and changes nothing, or puts the source behind the bytes and gives back the
object that the string has left. -/
private theorem dynstringAppendBytes_spec (h : t.Holds mem xs)
    (hsrc : ElemSource 1 mem t.data t.len p ys) (hys : 0 < ys.length)
    (answer : Option (Grant UInt8)) :
    (dynstringAppendBytes mem t p ys.length answer = .ok (mem, t, false) ∧
      t.cap < xs.length + ys.length + 1) ∨
    ∃ mem' t', dynstringAppendBytes mem t p ys.length answer = .ok (mem', t', true) ∧
      t'.Holds mem' (xs ++ ys) ∧ mem.Keeps mem' t.data := by
  obtain ⟨a, ha, hle⟩ := Store.covers_iff.mp hsrc.covers
  have hmax := mem.size_le _ a ha
  obtain ⟨hsum, hrequired⟩ := h.usizeAdd_required (n := ys.length) (by omega)
  have hcount : usizeMul ys.length 1 = ys.length := by
    rw [usizeMul_of_lt (by unfold ptrdiffMax at hmax; unfold usizeSize; omega), Nat.mul_one]
  simp only [dynstringAppendBytes, if_neg (Nat.ne_of_gt hys), hrequired]
  rcases dynstringGrowDetached_spec (n := xs.length + ys.length + 1) h (Nat.succ_pos _) answer with
    ⟨hno, hfull⟩ | ⟨mem₁, t₁, d, old, hyes, hgrown, hkeeps₁, hold⟩
  · left
    simp only [hno, ok_bind]
    exact ⟨rfl, hfull⟩
  · right
    have hroom := hgrown.le_cap
    have hlen : t₁.len = xs.length := hgrown.len_eq.trans h.len_eq
    have hsrc₁ : ElemSource 1 mem₁ (some d) xs.length p ys := by
      apply hsrc.of_keeps hkeeps₁ (Option.some_ne_none _)
      intro hin
      rcases hold with ⟨hsame, -⟩ | ⟨hfresh, -⟩
      · rw [← h.len_eq]
        exact hsrc.live (hin.trans hsame.symm)
      · rw [Option.some.inj hin, hfresh] at ha
        cases ha
    obtain ⟨mem₂, hcopy, hbuffer₂, hkeeps₂⟩ := hsrc₁.copy hgrown.buffer Nat.one_pos hys
      (by simp) (by omega)
    obtain ⟨mem₃, hwrite, hbuffer₃, hkeeps₃⟩ := terminate hbuffer₂ hys hroom
    rw [hcount] at hcopy
    have hkeeps₁₃ : mem₁.Keeps mem₃ (some d) := hkeeps₂.trans hkeeps₃ fun _ hd => Or.inl hd
    obtain ⟨mem₄, hfree, hbuffer₄, hkeeps₄⟩ := h.free_old hkeeps₁ hold hbuffer₃ hkeeps₁₃
    refine ⟨mem₄, { t₁ with len := xs.length + ys.length }, ?_, ?_, hkeeps₄⟩
    · rw [h.len_eq] at hsum
      simp only [hyes, ok_bind, Bool.not_true, Bool.false_eq_true, if_false, elemAt, hgrown.data_eq,
        hlen, hcopy, hsum, hwrite, hfree]
    · have hholds := Dynstring.Holds.of_buffer hbuffer₄ List.length_append.symm
      rwa [← hgrown.data_eq] at hholds

private theorem source_of_readable (h : s.str.Holds s.mem xs) (hn : 0 < n)
    (hread : s.readable p (scanNul s.mem p n 0) = true) :
    scanNul s.mem p n 0 = .ok ((sourceBytes s.mem p).take n).length ∧
      ElemSource 1 s.mem s.str.data s.str.len p ((sourceBytes s.mem p).take n) := by
  unfold DynstringState.readable at hread
  have hscan : (scanNul s.mem p n 0).isOk = true ∧
      (some p.object = s.str.data → p.index + (sourceBytes s.mem p).length ≤ s.str.len) := by
    split at hread
    · rename_i hin
      obtain ⟨hok, hle⟩ := h.scanNul_own hin (of_decide_eq_true hread) n
      exact ⟨hok, fun _ => hle⟩
    · rename_i hin
      exact ⟨hread, fun heq => absurd heq hin⟩
  cases hk : scanNul s.mem p n 0 with
  | error e =>
    rw [hk] at hscan
    cases hscan.1
  | ok k =>
    obtain ⟨rfl, hys, hcovers⟩ := scanNul_ok hn hk
    refine ⟨rfl, hys, hcovers, fun hin => Nat.le_trans ?_ (hscan.2 hin)⟩
    exact Nat.add_le_add_left (List.length_take_le' _ _) _

private theorem dynstringAppendBytes_outcome {op : DynstringOp} {answer : Option (Grant UInt8)}
    (h : s.str.Holds s.mem xs) (hsrc : ElemSource 1 s.mem s.str.data s.str.len p ys)
    (hsource : op.source s = ys)
    (hop : op = .append (some p) answer ∨ ∃ n, op = .appendN (some p) n answer)
    (hcall : dynstringCall s op = do
      let (mem, t, ok) ← dynstringAppendBytes s.mem s.str p ys.length answer
      .ok (⟨ok, none⟩, ⟨mem, t⟩)) :
    ∃ o s', dynstringCall s op = .ok (o, s') ∧ op.Outcome s o s' := by
  have heffect : op.effect xs (op.source s) = xs ++ ys := by
    rw [hsource]
    rcases hop with rfl | ⟨n, rfl⟩ <;> rfl
  have hcopy : ∀ answer, op ≠ .toCstr answer := by
    rcases hop with rfl | ⟨n, rfl⟩ <;> exact fun _ => nofun
  by_cases hys : ys = []
  · subst hys
    refine DynstringOp.Outcome.of_done h (hcall.trans ?_) h ?_ (fun _ => Store.Keeps.refl _ _) hcopy
    · simp only [dynstringAppendBytes, List.length_nil, if_true, ok_bind]
    · rw [heffect, List.append_nil]
  · rcases dynstringAppendBytes_spec h hsrc (List.length_pos_of_ne_nil hys) answer with
      ⟨hno, hfull⟩ | ⟨mem', t', hyes, hholds, hkeeps⟩
    · refine DynstringOp.Outcome.of_refused h (hcall.trans ?_) ?_
      · simp only [hno, ok_bind]
      · rw [hsource]
        intro hfits
        have hfits' : ys = [] ∨ xs.length + ys.length + 1 ≤ s.str.cap := by
          rcases hop with rfl | ⟨n, rfl⟩ <;> exact hfits
        rcases hfits' with hnil | hroom
        · exact hys hnil
        · omega
    · have hdone : dynstringCall s op = .ok (⟨true, none⟩, ⟨mem', t'⟩) := by
        simp only [hcall, hyes, ok_bind]
      exact DynstringOp.Outcome.of_done h hdone hholds heffect.symm (fun _ => hkeeps) hcopy

private theorem dynstringAppend_outcome (h : s.str.Holds s.mem xs) (str : Option Pointer)
    (answer : Option (Grant UInt8)) (hallows : s.allows (.append str answer) = true) :
    ∃ o s', dynstringCall s (.append str answer) = .ok (o, s') ∧
      (DynstringOp.append str answer).Outcome s o s' := by
  cases str with
  | none =>
    exact DynstringOp.Outcome.of_done h rfl h (List.append_nil xs).symm
      (fun _ => Store.Keeps.refl _ _) fun _ => nofun
  | some p =>
    obtain ⟨hscan, hsrc⟩ := source_of_readable h (Nat.succ_pos _) hallows
    rw [take_sourceBytes] at hscan hsrc
    refine dynstringAppendBytes_outcome h hsrc rfl (Or.inl rfl) ?_
    simp only [dynstringCall, dynstringAppend, strlenAt, hscan, ok_bind]

private theorem dynstringAppendN_outcome (h : s.str.Holds s.mem xs) (str : Option Pointer)
    (n : Usize) (answer : Option (Grant UInt8))
    (hallows : s.allows (.appendN str n answer) = true) :
    ∃ o s', dynstringCall s (.appendN str n answer) = .ok (o, s') ∧
      (DynstringOp.appendN str n answer).Outcome s o s' := by
  cases str with
  | none =>
    exact DynstringOp.Outcome.of_done h rfl h (List.append_nil xs).symm
      (fun _ => Store.Keeps.refl _ _) fun _ => nofun
  | some p =>
    by_cases hn : n.val = 0
    · have hcall : dynstringCall s (.appendN (some p) n answer) = .ok (⟨true, none⟩, s) := by
        simp only [dynstringCall, dynstringAppendN, if_pos hn, ok_bind]
      refine DynstringOp.Outcome.of_done h hcall h ?_ (fun _ => Store.Keeps.refl _ _) fun _ => nofun
      simp only [DynstringOp.effect, DynstringOp.source, hn, List.take_zero, List.append_nil]
    · obtain ⟨hscan, hsrc⟩ := source_of_readable h (Nat.pos_of_ne_zero hn) hallows
      refine dynstringAppendBytes_outcome h hsrc rfl (Or.inr ⟨n, rfl⟩) ?_
      simp only [dynstringCall, dynstringAppendN, if_neg hn, hscan, ok_bind]

private theorem dynstringAppendChar_outcome (h : s.str.Holds s.mem xs) (c : UInt8)
    (answer : Option (Grant UInt8)) :
    ∃ o s', dynstringCall s (.appendChar c answer) = .ok (o, s') ∧
      (DynstringOp.appendChar c answer).Outcome s o s' := by
  have hlen := h.len_eq
  have hsum (n : Nat) (hn : n ≤ 2) : usizeAdd s.str.len n = xs.length + n := by
    exact (h.usizeAdd_required (by unfold ptrdiffMax; omega)).1
  rcases dynstringEnsureCapacity_spec (n := xs.length + 2) h (Nat.succ_pos _) answer with
    ⟨hno, hfull⟩ | ⟨mem₁, t₁, d, hyes, hgrown, hkeeps₁, hfresh⟩
  · have hcall : dynstringCall s (.appendChar c answer) = .ok (⟨false, none⟩, s) := by
      simp only [dynstringCall, dynstringAppendChar, hsum 2 (Nat.le_refl _), hno, ok_bind,
        Bool.not_false, if_true]
    refine DynstringOp.Outcome.of_refused h hcall fun hfits => ?_
    change xs.length + 2 ≤ s.str.cap at hfits
    omega
  · have hroom := hgrown.le_cap
    obtain ⟨mem₂, hwrite₂, hbuffer₂, hkeeps₂⟩ := hgrown.buffer.write (i := xs.length) [c] (by simp)
      (by simp only [List.length_singleton]; omega)
    obtain ⟨mem₃, hwrite₃, hbuffer₃, hkeeps₃⟩ := terminate hbuffer₂ Nat.one_pos hroom
    have hlen₁ : t₁.len = xs.length := hgrown.len_eq.trans hlen
    have hone : usizeAdd xs.length 1 = xs.length + 1 := by
      rw [← hlen, hsum 1 (by omega), hlen]
    have hcall : dynstringCall s (.appendChar c answer) =
        .ok (⟨true, none⟩, ⟨mem₃, { t₁ with len := xs.length + 1 }⟩) := by
      rw [List.length_singleton] at hwrite₃
      simp only [dynstringCall, dynstringAppendChar, hsum 2 (Nat.le_refl _), hyes, ok_bind,
        Bool.not_true, Bool.false_eq_true, if_false, elemAt, hgrown.data_eq, hlen₁, hwrite₂, hone,
        hwrite₃]
    have hholds := Dynstring.Holds.of_buffer hbuffer₃ List.length_append.symm
    rw [← hgrown.data_eq] at hholds
    refine DynstringOp.Outcome.of_done h hcall hholds rfl (fun _ => ?_) fun _ => nofun
    apply hkeeps₁.trans (hkeeps₂.trans hkeeps₃ fun _ hd => Or.inl hd)
    intro d' hd'
    rwa [← Option.some.inj hd']

private theorem dynstringReserve_outcome (h : s.str.Holds s.mem xs) (minCap : Usize)
    (answer : Option (Grant UInt8)) :
    ∃ o s', dynstringCall s (.reserve minCap answer) = .ok (o, s') ∧
      (DynstringOp.reserve minCap answer).Outcome s o s' := by
  by_cases hroom : s.str.cap ≥ minCap.val
  · have hcall : dynstringCall s (.reserve minCap answer) = .ok (⟨true, none⟩, s) := by
      simp only [dynstringCall, dynstringReserve, dynstringEnsureCapacity, if_pos hroom, ok_bind]
    exact DynstringOp.Outcome.of_done h hcall h rfl (fun _ => Store.Keeps.refl _ _) fun _ => nofun
  · rcases dynstringEnsureCapacity_spec (n := minCap) h (by omega) answer with
      ⟨hno, hfull⟩ | ⟨mem', t', d, hyes, hgrown, hkeeps, -⟩
    · have hcall : dynstringCall s (.reserve minCap answer) = .ok (⟨false, none⟩, s) := by
        simp only [dynstringCall, dynstringReserve, hno, ok_bind]
      exact DynstringOp.Outcome.of_refused h hcall fun hfits => hroom hfits
    · have hcall : dynstringCall s (.reserve minCap answer) = .ok (⟨true, none⟩, ⟨mem', t'⟩) := by
        simp only [dynstringCall, dynstringReserve, hyes, ok_bind]
      have hholds := Dynstring.Holds.of_buffer hgrown.buffer (hgrown.len_eq.trans h.len_eq)
      rw [← hgrown.data_eq] at hholds
      exact DynstringOp.Outcome.of_done h hcall hholds rfl (fun _ => hkeeps) fun _ => nofun

private theorem dynstringShrink_outcome (h : s.str.Holds s.mem xs) (answer : Option (Grant UInt8)) :
    ∃ o s', dynstringCall s (.shrinkToFit answer) = .ok (o, s') ∧
      (DynstringOp.shrinkToFit answer).Outcome s o s' := by
  have hlen := h.len_eq
  cases hd : s.str.data with
  | none =>
    have hcall : dynstringCall s (.shrinkToFit answer) = .ok (⟨true, none⟩, s) := by
      simp only [dynstringCall, dynstringShrinkToFit, hd, ok_bind]
    exact DynstringOp.Outcome.of_done h hcall h rfl (fun _ => Store.Keeps.refl _ _) fun _ => nofun
  | some d =>
    have hbuffer := h.buffer d hd
    by_cases hempty : s.str.len = 0
    · obtain ⟨mem', hfree, hkeeps⟩ := hbuffer.free
      obtain rfl : xs = [] := List.length_eq_zero_iff.mp (by omega)
      have hcall : dynstringCall s (.shrinkToFit answer) =
          .ok (⟨true, none⟩, ⟨mem', { s.str with data := none, cap := 0 }⟩) := by
        simp only [dynstringCall, dynstringShrinkToFit, hd, if_pos hempty, hfree, ok_bind]
      have hholds : Dynstring.Holds mem' { s.str with data := none, cap := 0 } [] :=
        ⟨fun _ => ⟨rfl, rfl⟩, nofun, hempty⟩
      exact DynstringOp.Outcome.of_done h hcall hholds rfl (fun _ => hd ▸ hkeeps) fun _ => nofun
    · have hone : usizeAdd s.str.len 1 = xs.length + 1 :=
        (h.usizeAdd_required (by unfold ptrdiffMax; omega)).1
      by_cases hfull : s.str.cap = xs.length + 1
      · have hcall : dynstringCall s (.shrinkToFit answer) = .ok (⟨true, none⟩, s) := by
          simp only [dynstringCall, dynstringShrinkToFit, hd, if_neg hempty, hone, if_pos hfull,
            ok_bind]
        exact DynstringOp.Outcome.of_done h hcall h rfl (fun _ => Store.Keeps.refl _ _)
          fun _ => nofun
      · rcases hbuffer.realloc (xs.length + 1) (by simp) answer with
          hno | ⟨mem', d', hyes, hnew, hkeeps, -⟩
        · rw [Nat.mul_one] at hno
          have hcall : dynstringCall s (.shrinkToFit answer) = .ok (⟨false, none⟩, s) := by
            simp only [dynstringCall, dynstringShrinkToFit, hd, if_neg hempty, hone, if_neg hfull,
              hno, ok_bind]
          refine DynstringOp.Outcome.of_refused h hcall fun hfits => ?_
          rcases hfits with rfl | hfits
          · exact hempty hlen
          · exact hfull hfits.symm
        · rw [Nat.mul_one] at hyes
          have hcall : dynstringCall s (.shrinkToFit answer) =
              .ok (⟨true, none⟩, ⟨mem', ⟨some d', s.str.len, xs.length + 1⟩⟩) := by
            simp only [dynstringCall, dynstringShrinkToFit, hd, if_neg hempty, hone, if_neg hfull,
              hyes, ok_bind]
          exact DynstringOp.Outcome.of_done h hcall (Dynstring.Holds.of_buffer hnew hlen) rfl
            (fun _ => hd ▸ hkeeps) fun _ => nofun

private theorem dynstringClear_outcome (h : s.str.Holds s.mem xs) :
    ∃ o s', dynstringCall s .clear = .ok (o, s') ∧ DynstringOp.clear.Outcome s o s' := by
  cases hd : s.str.data with
  | none =>
    have hcall : dynstringCall s .clear = .ok (⟨true, none⟩, s) := by
      simp only [dynstringCall, dynstringClear, hd, ok_bind]
    exact DynstringOp.Outcome.of_done h hcall h (h.null hd).2 (fun _ => Store.Keeps.refl _ _)
      fun _ => nofun
  | some d =>
    obtain ⟨mem', hwrite, hholds, hkeeps⟩ := cut h hd (Nat.zero_le _)
    have hcall : dynstringCall s .clear = .ok (⟨true, none⟩, ⟨mem', { s.str with len := 0 }⟩) := by
      simp only [dynstringCall, dynstringClear, hd, hwrite, ok_bind]
    exact DynstringOp.Outcome.of_done h hcall hholds rfl (fun _ => hkeeps) fun _ => nofun

private theorem dynstringTruncate_outcome (h : s.str.Holds s.mem xs) (newLen : Usize) :
    ∃ o s', dynstringCall s (.truncate newLen) = .ok (o, s') ∧
      (DynstringOp.truncate newLen).Outcome s o s' := by
  have hlen := h.len_eq
  by_cases hlt : newLen.val < s.str.len
  · obtain ⟨d, hd⟩ : ∃ d, s.str.data = some d := by
      cases hd : s.str.data with
      | none =>
        rw [(h.null hd).2] at hlen
        rw [hlen] at hlt
        cases hlt
      | some d => exact ⟨d, rfl⟩
    obtain ⟨mem', hwrite, hholds, hkeeps⟩ := cut h hd (n := newLen) (by omega)
    have hcall : dynstringCall s (.truncate newLen) =
        .ok (⟨true, none⟩, ⟨mem', { s.str with len := newLen }⟩) := by
      simp only [dynstringCall, dynstringTruncate, hd, if_pos hlt, hwrite, ok_bind]
    exact DynstringOp.Outcome.of_done h hcall hholds rfl (fun _ => hkeeps) fun _ => nofun
  · have hcall : dynstringCall s (.truncate newLen) = .ok (⟨true, none⟩, s) := by
      cases hd : s.str.data with
      | none => simp only [dynstringCall, dynstringTruncate, hd, ok_bind]
      | some d => simp only [dynstringCall, dynstringTruncate, hd, if_neg hlt, ok_bind]
    refine DynstringOp.Outcome.of_done h hcall h ?_ (fun _ => Store.Keeps.refl _ _) fun _ => nofun
    exact (List.take_of_length_le (by omega)).symm

private theorem dynstringToCstr_spec (h : t.Holds mem xs) (answer : Option (Grant UInt8)) :
    dynstringToCstr mem t answer = .ok (mem, none) ∨
    ∃ mem' c, dynstringToCstr mem t answer = .ok (mem', some c) ∧ mem.objects c = none ∧
      mem'.Buffer 1 (some c) (xs.length + 1) (xs ++ [0]) ∧ mem.Keeps mem' none := by
  have hone : usizeAdd t.len 1 = xs.length + 1 :=
    (h.usizeAdd_required (by unfold ptrdiffMax; omega)).1
  rcases Store.Buffer.malloc mem 1 (xs.length + 1) answer with
    hno | ⟨mem₁, c, hyes, hbuffer, hkeeps, hfresh⟩
  · left
    rw [Nat.mul_one] at hno
    unfold dynstringToCstr
    cases hd : t.data with
    | none =>
      obtain rfl := (h.null hd).2
      rw [List.length_nil] at hno
      simp only [usizeAdd_of_lt (show 0 + 1 < usizeSize by decide), hno]
    | some d => simp only [hone, hno]
  · right
    rw [Nat.mul_one] at hyes
    unfold dynstringToCstr
    cases hd : t.data with
    | none =>
      obtain rfl := (h.null hd).2
      obtain ⟨mem₂, hwrite, hnew, hkeeps₂⟩ := hbuffer.write [0] (Nat.le_refl _) (Nat.le_refl _)
      change mem₁.write 1 ⟨c, 0⟩ [0] = .ok mem₂ at hwrite
      refine ⟨mem₂, c, ?_, hfresh, hnew, hkeeps.trans hkeeps₂ fun d' hd' => ?_⟩
      · rw [List.length_nil] at hyes
        simp only [usizeAdd_of_lt (show 0 + 1 < usizeSize by decide), hyes, hwrite, ok_bind]
      · rw [← Option.some.inj hd']
        exact Or.inr hfresh
    | some d =>
      obtain ⟨mem₂, hcopy, hnew, hkept⟩ := h.copy hd hbuffer hkeeps hfresh
        (Nat.le_of_eq (congrArg (· + 1) h.len_eq))
      rw [hone] at hcopy
      refine ⟨mem₂, c, ?_, hfresh, hnew, hkept⟩
      simp only [hone, hyes, hcopy, ok_bind]

private theorem dynstringToCstr_outcome (h : s.str.Holds s.mem xs) (answer : Option (Grant UInt8)) :
    ∃ o s', dynstringCall s (.toCstr answer) = .ok (o, s') ∧
      (DynstringOp.toCstr answer).Outcome s o s' := by
  rcases dynstringToCstr_spec h answer with hno | ⟨mem', c, hyes, hfresh, hcopy, hkeeps⟩
  · have hcall : dynstringCall s (.toCstr answer) = .ok (⟨false, none⟩, s) := by
      simp only [dynstringCall, hno, ok_bind]
      rfl
    exact DynstringOp.Outcome.of_refused h hcall nofun
  · have hcall : dynstringCall s (.toCstr answer) = .ok (⟨true, some c⟩, ⟨mem', s.str⟩) := by
      simp only [dynstringCall, hyes, ok_bind]
      rfl
    have hholds : Dynstring.Holds mem' s.str xs :=
      ⟨h.null, fun d hd => (h.buffer d hd).of_keeps hkeeps fun _ _ => Option.some_ne_none _,
        h.len_eq⟩
    have hbytes := h.bytes_eq
    have hbytes' := Dynstring.Holds.bytes_eq (s := ⟨mem', s.str⟩) hholds
    refine ⟨_, _, hcall, hbytes'.symm ▸ hholds, fun _ => hbytes'.trans hbytes.symm, nofun,
      fun _ => rfl, fun _ => hkeeps.of_none _, fun _ _ => ⟨rfl, rfl, fun c' hc' => ?_⟩⟩
    rw [← Option.some.inj hc', hbytes]
    exact ⟨hfresh, hcopy⟩

private theorem dynstringOther_outcome (h : s.str.Holds s.mem xs) (c : Store.Call UInt8)
    (hallows : s.allows (.other c) = true) :
    ∃ o s', dynstringCall s (.other c) = .ok (o, s') ∧ (DynstringOp.other c).Outcome s o s' := by
  simp only [DynstringState.allows, Bool.and_eq_true, Bool.or_eq_true, decide_eq_true_eq,
    bne_iff_ne] at hallows
  obtain ⟨htarget, hok⟩ := hallows
  cases hmem : s.mem.call 1 c with
  | error e =>
    rw [hmem] at hok
    cases hok
  | ok mem' =>
    have hcall : dynstringCall s (.other c) = .ok (⟨true, none⟩, ⟨mem', s.str⟩) := by
      simp only [dynstringCall, hmem, ok_bind]
    have hkeeps : s.mem.Keeps mem' c.target := fun i a hi ha =>
      Store.objects_call hmem ha (Ne.symm hi)
    have hholds : Dynstring.Holds mem' s.str xs := by
      refine ⟨h.null, fun d hd => (h.buffer d hd).of_keeps hkeeps fun d' hd' heq => ?_, h.len_eq⟩
      rw [Option.some.inj hd'] at hd
      rcases htarget with hnone | hne
      · rw [hnone] at heq
        cases heq
      · exact hne (heq.symm.trans hd.symm)
    exact DynstringOp.Outcome.of_done h hcall hholds rfl (fun hother => absurd rfl (hother c))
      fun _ => nofun

/-- Every call that keeps to its contract is answered, with an outcome as specified. -/
theorem dynstringStep_outcome (h : s.str.Holds s.mem xs) (op : DynstringOp)
    (hallows : s.allows op = true) :
    ∃ o s', dynstringStep s op = .ok (o, s') ∧ op.Outcome s o s' := by
  rw [dynstringStep, if_pos hallows]
  cases op with
  | append str answer => exact dynstringAppend_outcome h str answer hallows
  | appendN str n answer => exact dynstringAppendN_outcome h str n answer hallows
  | appendChar c answer => exact dynstringAppendChar_outcome h c answer
  | reserve minCap answer => exact dynstringReserve_outcome h minCap answer
  | shrinkToFit answer => exact dynstringShrink_outcome h answer
  | clear => exact dynstringClear_outcome h
  | truncate newLen => exact dynstringTruncate_outcome h newLen
  | toCstr answer => exact dynstringToCstr_outcome h answer
  | other c => exact dynstringOther_outcome h c hallows

end Calls

/-- The bytes that a new string is made of. -/
def DynstringNew.source (mem : ByteMemory) : DynstringNew → List UInt8
  | .fromStr (some p) _ => sourceBytes mem p
  | _ => []

private theorem dynstringInit_holds (mem : ByteMemory) : dynstringInit.Holds mem [] :=
  ⟨fun _ => ⟨rfl, rfl⟩, nofun, rfl⟩

private theorem dynstringWithCapacity_spec (mem : ByteMemory) (capacity : Nat)
    (answer : Option (Grant UInt8)) :
    ∃ mem' t, dynstringWithCapacity mem capacity answer = .ok (mem', t) ∧ t.Holds mem' [] := by
  unfold dynstringWithCapacity
  by_cases hzero : capacity = 0
  · exact ⟨mem, dynstringInit, if_pos hzero, dynstringInit_holds mem⟩
  · rw [if_neg hzero]
    rcases Store.Buffer.malloc mem 1 capacity answer with hno | ⟨mem₁, d, hyes, hbuffer, -⟩
    · rw [Nat.mul_one] at hno
      simp only [hno]
      exact ⟨mem, dynstringInit, rfl, dynstringInit_holds mem⟩
    · rw [Nat.mul_one] at hyes
      obtain ⟨mem₂, hwrite, hnew, -⟩ := hbuffer.write [0] (Nat.le_refl _)
        (show 0 + 1 ≤ capacity by omega)
      change mem₁.write 1 ⟨d, 0⟩ [0] = .ok mem₂ at hwrite
      simp only [hyes, hwrite, ok_bind]
      exact ⟨mem₂, _, rfl, Dynstring.Holds.of_buffer hnew rfl⟩

private theorem dynstringFrom_spec {k : Nat} (hk : strlenAt mem p = .ok k)
    (answer : Option (Grant UInt8)) :
    dynstringFrom mem (some p) answer = .ok (mem, dynstringInit) ∨
    ∃ mem' t, dynstringFrom mem (some p) answer = .ok (mem', t) ∧
      t.Holds mem' (sourceBytes mem p) := by
  obtain ⟨hread, hcovers⟩ := strlenAt_terminator hk
  have hlen := (strlenAt_ok hk).1
  have hlength : (sourceBytes mem p ++ [0]).length = k + 1 := by
    rw [List.length_append, List.length_singleton, hlen]
  have hsrc : ElemSource 1 mem none 0 p (sourceBytes mem p ++ [0]) :=
    ⟨by rw [hlength, hread], by rw [hlength, hcovers], nofun⟩
  obtain ⟨a, ha, hle⟩ := Store.covers_iff.mp hcovers
  have hmax := mem.size_le _ a ha
  have hone : usizeAdd k 1 = k + 1 :=
    usizeAdd_of_lt (by unfold ptrdiffMax at hmax; unfold usizeSize; omega)
  have hcount : usizeMul (sourceBytes mem p ++ [0]).length 1 = k + 1 := by
    rw [hlength, usizeMul, Nat.mul_one, ← hone, usizeAdd, Nat.mod_mod]
  simp only [dynstringFrom, hk, hone, ok_bind]
  rcases Store.Buffer.malloc mem 1 (k + 1) answer with
    hno | ⟨mem₁, d, hyes, hbuffer, hkeeps, hfresh⟩
  · rw [Nat.mul_one] at hno
    simp only [hno]
    exact Or.inl trivial
  · rw [Nat.mul_one] at hyes
    obtain ⟨mem₂, hcopy, hnew, -⟩ := hsrc.copy_fresh hbuffer hkeeps hfresh Nat.one_pos
      (Nat.le_of_eq hlength)
    rw [hcount] at hcopy
    simp only [hyes, hcopy, ok_bind]
    exact Or.inr ⟨mem₂, _, rfl, Dynstring.Holds.of_buffer hnew hlen⟩

/-- A new string holds the bytes that it is made of, or none if it has no object. -/
theorem dynstringStart_spec {new : DynstringNew} (hallows : new.allows mem = true) :
    ∃ s, dynstringStart mem new = .ok s ∧ ∃ xs, s.str.Holds s.mem xs ∧
      (xs = new.source mem ∨ xs = [] ∧ s.str.data = none) := by
  cases new with
  | init => exact ⟨_, rfl, [], dynstringInit_holds mem, Or.inl rfl⟩
  | withCapacity capacity answer =>
    obtain ⟨mem', t, hnew, hholds⟩ := dynstringWithCapacity_spec mem capacity answer
    refine ⟨⟨mem', t⟩, ?_, [], hholds, Or.inl rfl⟩
    simp only [dynstringStart, hnew, ok_bind]
  | fromStr str answer =>
    cases str with
    | none => exact ⟨_, rfl, [], dynstringInit_holds mem, Or.inl rfl⟩
    | some p =>
      cases hk : strlenAt mem p with
      | error e =>
        rw [DynstringNew.allows, hk] at hallows
        cases hallows
      | ok k =>
        rcases dynstringFrom_spec hk answer with hno | ⟨mem', t, hyes, hholds⟩
        · refine ⟨⟨mem, dynstringInit⟩, ?_, [], dynstringInit_holds mem, Or.inr ⟨rfl, rfl⟩⟩
          simp only [dynstringStart, hno, ok_bind]
        · refine ⟨⟨mem', t⟩, ?_, _, hholds, Or.inl rfl⟩
          simp only [dynstringStart, hyes, ok_bind]

/-- What the string holds in the states of a run. -/
theorem dynstringStep_holds {op : DynstringOp} {o : DynstringOut}
    (h : ∃ xs, s.str.Holds s.mem xs) (hstep : dynstringStep s op = .ok (o, s')) :
    ∃ xs, s'.str.Holds s'.mem xs := by
  obtain ⟨xs, hxs⟩ := h
  have hallows : s.allows op = true := by
    unfold dynstringStep at hstep
    split at hstep
    · assumption
    · cases hstep
  obtain ⟨o', t, hstep', houtcome⟩ := dynstringStep_outcome hxs op hallows
  rw [hstep'] at hstep
  obtain ⟨rfl, rfl⟩ := Prod.mk.inj (Except.ok.inj hstep)
  exact ⟨_, houtcome.holds⟩

/-- A new string is made without a fault, and in every state that a run from it reaches, whatever
the allocator answers, the object of the bytes has exactly the capacity and a terminator behind
them, and every call that keeps to its contract is answered without a fault and acts on the bytes
as on an unbounded string. -/
theorem dynstring_refines_bytes {new : DynstringNew} (hallows : new.allows mem = true) :
    ∃ s₀, dynstringStart mem new = .ok s₀ ∧
      (s₀.bytes = new.source mem ∨ s₀.bytes = [] ∧ s₀.str.data = none) ∧
      ∀ ops os s, run dynstringStep s₀ ops = .ok (os, s) →
        s.str.len = s.bytes.length ∧
        (s.str.data = none → s.str.len = 0 ∧ s.str.cap = 0) ∧
        (∀ d, s.str.data = some d → s.str.len < s.str.cap ∧
          ∃ a, s.mem.objects d = some a ∧ a.range.size = s.str.cap ∧ a.cells s.str.len = 0) ∧
        ∀ op, s.allows op = true →
          ∃ o s', dynstringStep s op = .ok (o, s') ∧ op.Outcome s o s' := by
  obtain ⟨s₀, hstart, xs₀, hxs₀, hsource⟩ := dynstringStart_spec hallows
  refine ⟨s₀, hstart, ?_, fun ops os s hrun => ?_⟩
  · rwa [hxs₀.bytes_eq]
  · obtain ⟨xs, hxs⟩ := run_invariant (fun t op o t' ht hstep => dynstringStep_holds ht hstep)
      (show ∃ xs, s₀.str.Holds s₀.mem xs from ⟨xs₀, hxs₀⟩) hrun
    refine ⟨hxs.bytes_eq.symm ▸ hxs.len_eq, fun hnone => ?_, fun d hd => ?_,
      dynstringStep_outcome hxs⟩
    · obtain ⟨hcap, rfl⟩ := hxs.null hnone
      exact ⟨hxs.len_eq, hcap⟩
    · have hlength := (hxs.buffer d hd).length_le
      obtain ⟨a, ha, hsize, hread⟩ := (hxs.buffer d hd).object d rfl
      rw [List.length_append, List.length_singleton] at hlength hread
      rw [Cells.read_add, Cells.read_one, Nat.zero_add, ← hxs.len_eq] at hread
      have hlast := List.append_inj_right' hread rfl
      exact ⟨by have hlen := hxs.len_eq; omega, a, ha, by rw [hsize, Nat.mul_one],
        List.head_eq_of_cons_eq hlast⟩

/-- A string made of `ab` appends its own `b` and, behind a NUL, its own start up to that NUL while
the allocator moves it; a refused append then changes nothing, and the shrunk string is copied. -/
theorem dynstring_refines_bytes_self : ∃ (mem : ByteMemory) (s₀ s : DynstringState)
    (os : List DynstringOut), dynstringStart mem
      (.fromStr (some ⟨0, 0⟩) (some ⟨2000, fun _ => 7⟩)) = .ok s₀ ∧
    run dynstringStep s₀ [.append (some ⟨1, 1⟩) (some ⟨3000, fun _ => 7⟩), .appendChar 0 none,
      .append (some ⟨2, 0⟩) (some ⟨2000, fun _ => 7⟩), .append (some ⟨0, 0⟩) none,
      .appendN (some ⟨3, 4⟩) 1 none, .truncate 6, .shrinkToFit (some ⟨2000, fun _ => 7⟩),
      .append (some ⟨4, 0⟩) none, .toCstr (some ⟨4000, fun _ => 7⟩)] = .ok (os, s) ∧
    s.bytes = [97, 98, 98, 0, 97, 98] ∧ os.map (·.ok) =
      [true, true, true, true, true, true, true, false, true] ∧ s.str.len = s.bytes.length := by
  obtain ⟨mem, s₀, s, os, hallows, hstart, hrun, hbytes, hok⟩ : ∃ (mem : ByteMemory)
      (s₀ s : DynstringState) (os : List DynstringOut), DynstringNew.allows mem
        (.fromStr (some ⟨0, 0⟩) (some ⟨2000, fun _ => 7⟩)) = true ∧ dynstringStart mem
        (.fromStr (some ⟨0, 0⟩) (some ⟨2000, fun _ => 7⟩)) = .ok s₀ ∧
      run dynstringStep s₀ [.append (some ⟨1, 1⟩) (some ⟨3000, fun _ => 7⟩), .appendChar 0 none,
        .append (some ⟨2, 0⟩) (some ⟨2000, fun _ => 7⟩), .append (some ⟨0, 0⟩) none,
        .appendN (some ⟨3, 4⟩) 1 none, .truncate 6, .shrinkToFit (some ⟨2000, fun _ => 7⟩),
        .append (some ⟨4, 0⟩) none, .toCstr (some ⟨4000, fun _ => 7⟩)] = .ok (os, s) ∧
      s.bytes = [97, 98, 98, 0, 97, 98] ∧
      os.map (·.ok) = [true, true, true, true, true, true, true, false, true] :=
    ⟨((Store.empty ptrdiffMax UInt8).malloc 3 (some ⟨1000, fun i => [97, 98, 0].getD i 0⟩)).1,
      _, _, _, rfl, rfl, rfl, rfl, rfl⟩
  obtain ⟨s₁, hstart₁, -, hruns⟩ := dynstring_refines_bytes hallows
  rw [hstart] at hstart₁
  obtain rfl := Except.ok.inj hstart₁
  exact ⟨mem, s₀, s, os, hstart, hrun, hbytes, hok, (hruns _ _ _ hrun).1⟩

end CanonC
