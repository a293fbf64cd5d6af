import CanonC.Data.Smallvec.Spill

/-!
# One call on an inline-first vector

A call acts on the list of the elements in the same way wherever they lie. An addition succeeds if
and only if it fits or the one spill does, and a call that fails changes nothing.
-/

namespace CanonC

open Toolkit

variable {α : Type} {size inlineCap : Nat} {mem mem' : TypedMemory α} {v v' : Smallvec}
  {xs : List α} {d : Nat}

/-- The elements of the vector. -/
def Smallvec.elements (mem : TypedMemory α) (v : Smallvec) : List α :=
  match smallvecBuf v with
  | none => []
  | some d =>
    match mem.objects d with
    | none => []
    | some a => Cells.read a.cells 0 v.len

/-- The elements that the source of a call holds before it. -/
def SmallvecCall.source (size : Nat) (mem : TypedMemory α) : SmallvecCall α → List α
  | .extend (some p) count _ =>
    match mem.read size p count with
    | .ok ys => ys
    | .error _ => []
  | _ => []

/-- The arguments of the call make sense for the list. -/
def SmallvecCall.accepts (xs : List α) : SmallvecCall α → Prop
  | .pop out => out = true ∧ xs ≠ []
  | .insert i _ _ => i.val ≤ xs.length
  | .remove i out => out = true ∧ i.val < xs.length
  | .extend src _ _ => src.isSome = true
  | _ => True

/-- The number of elements that the call adds. -/
def SmallvecCall.adds : SmallvecCall α → Nat
  | .push _ _ | .insert _ _ _ => 1
  | .extend _ count _ => count
  | _ => 0

/-- What the allocator answers to the call. -/
def SmallvecCall.answer : SmallvecCall α → Option (Grant α)
  | .push _ answer | .insert _ _ answer | .extend _ _ answer => answer
  | _ => none

/-- What a call that succeeds writes through `out` and makes of the list. -/
def SmallvecCall.effect (xs ys : List α) : SmallvecCall α → Option α × List α
  | .push value _ => (none, xs ++ [value])
  | .pop _ => (xs.getLast?, xs.dropLast)
  | .insert i value _ => (none, xs.insertIdx i value)
  | .remove i _ => (xs[i.val]?, xs.eraseIdx i)
  | .extend _ _ _ => (none, xs ++ ys)
  | .clear | .free => (none, [])

/-- The vector has room for a number of elements, or the one spill gives it. -/
def Smallvec.CanHold (size inlineCap : Nat) (mem : TypedMemory α) (v : Smallvec) (need : Nat)
    (answer : Option (Grant α)) : Prop :=
  need ≤ v.cap ∨ v.usingInline = true ∧ Smallvec.Allocates size inlineCap mem need answer

/-- What a call answers and leaves. -/
structure SmallvecCall.Outcome (size inlineCap : Nat) (mem : TypedMemory α) (v : Smallvec)
    (c : SmallvecCall α) (o : SmallvecOut α) (mem' : TypedMemory α) (v' : Smallvec) : Prop where
  /-- The vector holds its elements. -/
  holds : v'.Holds size inlineCap mem' (v'.elements mem')
  /-- A call succeeds if and only if its arguments make sense and there is room. -/
  ok_iff : o.ok = true ↔ c.accepts (v.elements mem) ∧
    v.CanHold size inlineCap mem ((v.elements mem).length + c.adds) c.answer
  /-- A call that succeeds acts on the list. -/
  done : o.ok = true →
    (o.out, v'.elements mem') = c.effect (v.elements mem) (c.source size mem)
  /-- A call that fails changes nothing. -/
  refused : o.ok = false → o.out = none ∧ mem' = mem ∧ v' = v
  /-- What has room stays where it is until it is given back. -/
  stays : c ≠ .free → (v.elements mem).length + c.adds ≤ v.cap →
    v'.data = v.data ∧ v'.cap = v.cap ∧ v'.usingInline = v.usingInline
  /-- What has no room was in the structure and has spilled. -/
  spills : o.ok = true → v.cap < (v.elements mem).length + c.adds → v.usingInline = true ∧
    v'.usingInline = false ∧ v'.cap = max (2 * inlineCap) ((v.elements mem).length + c.adds)
  /-- A vector that is given back is in the structure. -/
  freed : c = .free → v'.usingInline = true
  /-- The other objects are kept. -/
  keeps : Smallvec.KeepsOthers mem mem' v
  /-- What the vector has is what it had or new. -/
  owns : ∀ i, v'.Owns i → v.Owns i ∨ mem.objects i = none

/-- A vector holds no list but its elements. -/
theorem Smallvec.Holds.elements_eq (h : v.Holds size inlineCap mem xs) : v.elements mem = xs := by
  obtain ⟨d, hd, hbuffer⟩ := h.exists_buf
  obtain ⟨a, ha, -, hread⟩ := hbuffer.object d rfl
  simp only [Smallvec.elements, hd, ha, h.len_eq, hread]

namespace SmallvecCall.Outcome

variable {c : SmallvecCall α} {zs : List α} {out : Option α}

/-- A refusal. -/
theorem of_refused (h : v.Holds size inlineCap mem xs)
    (hcall : smallvecCall size inlineCap mem v c = .ok (⟨false, none⟩, mem, v))
    (hno : c.accepts xs → ¬ v.CanHold size inlineCap mem (xs.length + c.adds) c.answer)
    (hfree : c ≠ .free) :
    ∃ o mem' v', smallvecCall size inlineCap mem v c = .ok (o, mem', v') ∧
      c.Outcome size inlineCap mem v o mem' v' := by
  have hxs := h.elements_eq
  refine ⟨_, _, _, hcall, hxs.symm ▸ h, ⟨nofun, fun hcan => ?_⟩, nofun, fun _ => ⟨rfl, rfl, rfl⟩,
    fun _ _ => ⟨rfl, rfl, rfl⟩, nofun, fun heq => absurd heq hfree, fun _ _ _ ha => ha,
    fun _ hi => Or.inl hi⟩
  rw [hxs] at hcan
  exact absurd hcan.2 (hno hcan.1)

/-- A success where there is room. -/
theorem of_room {len : Nat} {mem'' : TypedMemory α} (h : v.Holds size inlineCap mem xs)
    (hroom : v.Room size inlineCap mem xs (xs.length + c.adds) c.answer mem' v' d)
    (hcall : smallvecCall size inlineCap mem v c = .ok (⟨true, out⟩, mem'', { v' with len }))
    (hacc : c.accepts xs) (hfree : c ≠ .free) (hbuffer : mem''.Buffer size (some d) v'.cap zs)
    (hkeeps : mem'.Keeps mem'' (some d)) (hlen : len = zs.length)
    (heffect : (out, zs) = c.effect xs (c.source size mem)) :
    ∃ o mem' v', smallvecCall size inlineCap mem v c = .ok (o, mem', v') ∧
      c.Outcome size inlineCap mem v o mem' v' := by
  have hxs := h.elements_eq
  have holds := hroom.holds h hbuffer hkeeps hlen
  have hzs := holds.elements_eq
  refine ⟨_, _, _, hcall, hzs.symm ▸ holds, ⟨fun _ => ?_, fun _ => rfl⟩, fun _ => ?_, nofun,
    fun _ hfits => ?_, fun _ hlt => ?_, fun heq => absurd heq hfree, hroom.keepsOthers hkeeps,
    fun _ hi => hroom.owns hi⟩
  · rw [hxs]
    rcases hroom.storage with ⟨hfits, -⟩ | ⟨-, hin, hallocates, -⟩
    · exact ⟨hacc, Or.inl hfits⟩
    · exact ⟨hacc, Or.inr ⟨hin, hallocates⟩⟩
  · rw [hxs, hzs]
    exact heffect
  · rw [hxs] at hfits
    rcases hroom.storage with ⟨-, rfl⟩ | ⟨hlt, -⟩
    · exact ⟨rfl, rfl, rfl⟩
    · omega
  · rw [hxs] at hlt ⊢
    rcases hroom.storage with ⟨hfits, -⟩ | ⟨-, hin, -, -, rfl⟩
    · omega
    · exact ⟨hin, rfl, rfl⟩

end SmallvecCall.Outcome

section Calls

private theorem smallvec_need_le (h : v.Holds size inlineCap mem xs) {n : Nat}
    (hn : n * size ≤ ptrdiffMax) : (xs.length + n) * size ≤ 2 * ptrdiffMax := by
  have hmul := Nat.mul_le_mul_right size h.len_le
  have hbytes := h.bytes_le.1
  rw [Nat.add_mul]
  omega

private theorem smallvec_usizeAdd_len (h : v.Holds size inlineCap mem xs) (hsize : 0 < size)
    {n : Nat} (hn : n * size ≤ ptrdiffMax) : usizeAdd v.len n = xs.length + n := by
  have hneed := smallvec_need_le h hn
  have hmul : (xs.length + n) * 1 ≤ (xs.length + n) * size := Nat.mul_le_mul_left _ hsize
  have hword := two_mul_ptrdiffMax_lt
  rw [h.len_eq, usizeAdd_of_lt (by omega)]

private theorem smallvec_one_le (h : v.Holds size inlineCap mem xs) (hcap : 0 < inlineCap) :
    1 * size ≤ ptrdiffMax :=
  Nat.le_trans (Nat.mul_le_mul_right _ hcap) h.bytes_le.2

private theorem smallvecPush_outcome (h : v.Holds size inlineCap mem xs) (hsize : 0 < size)
    (hcap : 0 < inlineCap) (value : α) (answer : Option (Grant α)) :
    ∃ o mem' v', smallvecCall size inlineCap mem v (.push value answer) = .ok (o, mem', v') ∧
      (SmallvecCall.push value answer).Outcome size inlineCap mem v o mem' v' := by
  have hone := smallvec_one_le h hcap
  rcases smallvecPush_spec h hsize (smallvec_need_le h hone) value answer with
    ⟨hno, hfull⟩ | ⟨mem', v', d, hroom, hyes⟩
  · have hcall : smallvecCall size inlineCap mem v (.push value answer) =
        .ok (⟨false, none⟩, mem, v) := by
      simp only [smallvecCall, hno, ok_bind]
    exact SmallvecCall.Outcome.of_refused h hcall (fun _ => hfull) nofun
  · obtain ⟨mem'', hwrite, hbuffer, hkeeps⟩ :=
      hroom.buffer.write [value] (Nat.le_refl _) hroom.le_cap
    rw [splice_length] at hbuffer
    have hcall : smallvecCall size inlineCap mem v (.push value answer) =
        .ok (⟨true, none⟩, mem'', { v' with len := xs.length + 1 }) := by
      simp only [smallvecCall, hyes, smallvecPut, hroom.buf_eq, hroom.len_eq, elemAt, ok_bind,
        smallvec_usizeAdd_len h hsize hone]
      rw [h.len_eq, hwrite]
      simp only [ok_bind]
    exact SmallvecCall.Outcome.of_room h hroom hcall trivial nofun hbuffer hkeeps (by simp) rfl

private theorem smallvecPop_outcome (h : v.Holds size inlineCap mem xs) (out : Bool) :
    ∃ o mem' v', smallvecCall size inlineCap mem v (.pop out) = .ok (o, mem', v') ∧
      (SmallvecCall.pop out).Outcome size inlineCap mem v o mem' v' := by
  have hlen := h.len_eq
  by_cases hno : (!out) = true ∨ v.len = 0
  · have hcall : smallvecCall size inlineCap mem v (.pop out) = .ok (⟨false, none⟩, mem, v) := by
      simp only [smallvecCall, smallvecPop, if_pos hno, ok_bind]
    refine SmallvecCall.Outcome.of_refused h hcall ?_ nofun
    rintro ⟨rfl, hne⟩
    have hpos := List.length_pos_of_ne_nil hne
    rcases hno with hno | hno
    · cases hno
    · omega
  · rw [not_or] at hno
    obtain ⟨ys, x, rfl⟩ : ∃ ys x, xs = ys ++ [x] := by
      rcases List.eq_nil_or_concat' xs with rfl | ⟨ys, x, rfl⟩
      · exact absurd hlen hno.2
      · exact ⟨ys, x, rfl⟩
    have hlast : v.len - 1 = ys.length := by rw [hlen, List.length_append]; rfl
    obtain ⟨d, hroom⟩ := h.room h.len_le none
    have hread := @Store.Buffer.read _ _ _ _ _ _ _ hroom.buffer ys.length 1 (by simp)
    rw [List.drop_left] at hread
    have hcall : smallvecCall size inlineCap mem v (.pop out) =
        .ok (⟨true, some x⟩, mem, { v with len := v.len - 1 }) := by
      simp only [smallvecCall, smallvecPop, if_neg (not_or.mpr hno), elemAt, hroom.buf_eq,
        ok_bind, hlast, hread]
      rfl
    have htake := hroom.buffer.take ys.length
    rw [List.take_left] at htake
    exact SmallvecCall.Outcome.of_room h hroom hcall ⟨by simpa using hno.1, by simp⟩ nofun htake
      (Store.Keeps.refl _ _) hlast (by simp [SmallvecCall.effect])

private theorem smallvecInsert_outcome (h : v.Holds size inlineCap mem xs) (hsize : 0 < size)
    (hcap : 0 < inlineCap) (i : Usize) (value : α) (answer : Option (Grant α)) :
    ∃ o mem' v', smallvecCall size inlineCap mem v (.insert i value answer) = .ok (o, mem', v') ∧
      (SmallvecCall.insert i value answer).Outcome size inlineCap mem v o mem' v' := by
  have hlen := h.len_eq
  by_cases hout : i.val > v.len
  · have hcall : smallvecCall size inlineCap mem v (.insert i value answer) =
        .ok (⟨false, none⟩, mem, v) := by
      simp only [smallvecCall, smallvecInsert, if_pos hout, ok_bind]
    refine SmallvecCall.Outcome.of_refused h hcall (fun hacc => ?_) nofun
    change i.val ≤ xs.length at hacc
    omega
  · have hi : i.val ≤ xs.length := by omega
    have hone := smallvec_one_le h hcap
    have hle := h.len_le
    have hsum := smallvec_usizeAdd_len h hsize hone
    rcases smallvecMakeRoom_spec h hsize
      (show v.len = v.cap ↔ v.cap < xs.length + 1 by omega) (smallvec_need_le h hone) answer with
      ⟨hno, hfull⟩ | ⟨mem₁, v', d, hyes, hroom⟩
    · have hcall : smallvecCall size inlineCap mem v (.insert i value answer) =
          .ok (⟨false, none⟩, mem, v) := by
        simp only [smallvecCall, smallvecInsert, if_neg hout, hsum, hno, ok_bind, Bool.not_false,
          if_true]
      exact SmallvecCall.Outcome.of_refused h hcall (fun _ => hfull) nofun
    · obtain ⟨mem₂, mem₃, hshift, hwrite, hbuffer, hkeeps⟩ := hroom.buffer.insert hsize
        hroom.le_cap hi value
      have hcall : smallvecCall size inlineCap mem v (.insert i value answer) =
          .ok (⟨true, none⟩, mem₃, { v' with len := xs.length + 1 }) := by
        simp only [smallvecCall, smallvecInsert, if_neg hout, hsum, hyes, ok_bind, Bool.not_true,
          Bool.false_eq_true, if_false, hroom.buf_eq, hroom.len_eq, elemAt]
        simp only [hlen, hshift, hwrite, ok_bind]
      exact SmallvecCall.Outcome.of_room h hroom hcall hi nofun hbuffer hkeeps
        (List.length_insertIdx_of_le_length hi value).symm rfl

private theorem smallvecRemove_outcome (h : v.Holds size inlineCap mem xs) (hsize : 0 < size)
    (i : Usize) (out : Bool) :
    ∃ o mem' v', smallvecCall size inlineCap mem v (.remove i out) = .ok (o, mem', v') ∧
      (SmallvecCall.remove i out).Outcome size inlineCap mem v o mem' v' := by
  have hlen := h.len_eq
  by_cases hno : (!out) = true ∨ i.val ≥ v.len
  · have hcall : smallvecCall size inlineCap mem v (.remove i out) =
        .ok (⟨false, none⟩, mem, v) := by
      simp only [smallvecCall, smallvecRemove, if_pos hno, ok_bind]
    refine SmallvecCall.Outcome.of_refused h hcall ?_ nofun
    rintro ⟨rfl, hi⟩
    rcases hno with hno | hno
    · cases hno
    · omega
  · rw [not_or] at hno
    have hi : i.val < xs.length := by omega
    obtain ⟨d, hroom⟩ := h.room h.len_le none
    have hread := @Store.Buffer.read _ _ _ _ _ _ _ hroom.buffer i 1 hi
    have hget : xs[i.val]? = some xs[i.val] := List.getElem?_eq_getElem hi
    rw [List.drop_eq_getElem_cons hi] at hread
    obtain ⟨mem', hclose, hnew, hkeeps⟩ := hroom.buffer.close hsize hi
    have hlen' : v.len - 1 = (xs.eraseIdx i).length := by
      rw [hlen, List.length_eraseIdx_of_lt hi]
    have hcall : smallvecCall size inlineCap mem v (.remove i out) =
        .ok (⟨true, xs[i.val]?⟩, mem', { v with len := v.len - 1 }) := by
      rw [hlen] at hno
      simp only [smallvecCall, smallvecRemove, elemAt, hroom.buf_eq, ok_bind]
      rw [hlen, if_neg (not_or.mpr hno), hread, ok_bind, hclose, hget]
      rfl
    exact SmallvecCall.Outcome.of_room h hroom hcall ⟨by simpa using hno.1, hi⟩ nofun hnew hkeeps
      hlen' rfl

private theorem SmallvecCall.source_zero {p : Pointer} {count : Usize} {answer : Option (Grant α)}
    (hzero : count.val = 0) : (SmallvecCall.extend (some p) count answer).source size mem = [] := by
  simp only [SmallvecCall.source, hzero]
  cases hr : mem.read size p 0 with
  | error e => rfl
  | ok ys => exact Store.read_zero hr

private theorem smallvecExtend_outcome (h : v.Holds size inlineCap mem xs) (hsize : 0 < size)
    (src : Option Pointer) (count : Usize) (answer : Option (Grant α))
    (hallows : (SmallvecCall.extend src count answer).allows size mem v = true) :
    ∃ o mem' v', smallvecCall size inlineCap mem v (.extend src count answer) = .ok (o, mem', v') ∧
      (SmallvecCall.extend src count answer).Outcome size inlineCap mem v o mem' v' := by
  have hlen := h.len_eq
  cases src with
  | none => exact SmallvecCall.Outcome.of_refused h rfl (fun hacc => by cases hacc) nofun
  | some p =>
    by_cases hzero : count.val = 0
    · have hle := h.len_le
      obtain ⟨d, hroom⟩ := h.room (show xs.length + count ≤ v.cap by omega) answer
      have hcall : smallvecCall size inlineCap mem v (.extend (some p) count answer) =
          .ok (⟨true, none⟩, mem, { v with len := v.len }) := by
        simp only [smallvecCall, smallvecExtend, if_pos hzero, ok_bind]
      refine SmallvecCall.Outcome.of_room h hroom hcall rfl nofun hroom.buffer
        (Store.Keeps.refl _ _) hlen ?_
      rw [SmallvecCall.effect, SmallvecCall.source_zero hzero, List.append_nil]
    · have hread := hallows
      simp only [SmallvecCall.allows, hzero, decide_false, Bool.false_or, hlen] at hread
      obtain ⟨ys, hys, hsrc⟩ := ElemSource.of_readable h.buffer hread
      have hsource : (SmallvecCall.extend (some p) count answer).source size mem = ys := by
        simp only [SmallvecCall.source, ← hys, hsrc.read_eq]
      obtain ⟨a, ha, hcovers⟩ := Store.covers_iff.mp hsrc.covers
      have hbytes : count * size ≤ ptrdiffMax := by
        have hmax := mem.size_le _ a ha
        rw [hys, Nat.add_mul] at hcovers
        omega
      have hsum := smallvec_usizeAdd_len h hsize hbytes
      rcases smallvecMakeRoom_spec h hsize (Iff.refl (v.cap < xs.length + count))
        (smallvec_need_le h hbytes) answer with ⟨hno, hfull⟩ | ⟨mem₁, v', d, hyes, hroom⟩
      · have hcall : smallvecCall size inlineCap mem v (.extend (some p) count answer) =
            .ok (⟨false, none⟩, mem, v) := by
          simp only [smallvecCall, smallvecExtend, if_neg hzero, hsum, gt_iff_lt, hno, ok_bind,
            Bool.not_false, if_true]
        exact SmallvecCall.Outcome.of_refused h hcall (fun _ => hfull) nofun
      · have hsrc₁ : ElemSource size mem₁ (some d) xs.length p ys := by
          apply hsrc.of_keeps hroom.keeps (Option.some_ne_none _)
          intro hin
          rcases hroom.storage with ⟨-, rfl⟩ | ⟨-, -, -, hfresh, -⟩
          · exact hsrc.live (hin.trans hroom.buf_eq.symm)
          · rw [Option.some.inj hin, hfresh] at ha
            cases ha
        obtain ⟨mem₂, hcopy, hbuffer, hkeeps⟩ := hsrc₁.copy hroom.buffer hsize (by omega)
          (Nat.le_refl _) (by rw [hys]; exact hroom.le_cap)
        rw [splice_length] at hbuffer
        rw [hys] at hcopy
        have hcall : smallvecCall size inlineCap mem v (.extend (some p) count answer) =
            .ok (⟨true, none⟩, mem₂, { v' with len := xs.length + count }) := by
          simp only [smallvecCall, smallvecExtend, if_neg hzero, hsum, gt_iff_lt, hyes, ok_bind,
            Bool.not_true, Bool.false_eq_true, if_false, hroom.buf_eq, hroom.len_eq, elemAt]
          rw [hlen, hcopy]
          simp only [ok_bind]
        refine SmallvecCall.Outcome.of_room h hroom hcall rfl nofun hbuffer hkeeps ?_ ?_
        · rw [List.length_append, hys]
        · rw [SmallvecCall.effect, hsource]

private theorem smallvecClear_outcome (h : v.Holds size inlineCap mem xs) :
    ∃ o mem' v', smallvecCall size inlineCap mem v .clear = .ok (o, mem', v') ∧
      SmallvecCall.clear.Outcome size inlineCap mem v o mem' v' := by
  obtain ⟨d, hroom⟩ := h.room h.len_le none
  exact SmallvecCall.Outcome.of_room h hroom rfl trivial nofun (hroom.buffer.take 0)
    (Store.Keeps.refl _ _) rfl rfl

/-- A vector in the structure is empty and has nothing but its array. -/
theorem smallvecInit_holds {home : Nat} {a : Object α} (ha : mem.objects home = some a)
    (hsize : a.range.size = inlineCap * size) :
    (smallvecInit inlineCap home).Holds size inlineCap mem [] := by
  refine ⟨⟨nofun, fun d hd => ?_, Nat.zero_le _⟩, rfl, ⟨a, ha, hsize⟩, fun _ => ⟨rfl, rfl⟩, nofun⟩
  rw [← Option.some.inj hd]
  exact ⟨a, ha, hsize, rfl⟩

private theorem smallvecFree_outcome (h : v.Holds size inlineCap mem xs) :
    ∃ o mem' v', smallvecCall size inlineCap mem v .free = .ok (o, mem', v') ∧
      SmallvecCall.free.Outcome size inlineCap mem v o mem' v' := by
  obtain ⟨mem', hfree, hkeeps⟩ : ∃ mem', smallvecFree inlineCap mem v =
      .ok (mem', smallvecInit inlineCap v.inlineBuf) ∧
      ∀ i a, some i ≠ v.data ∨ i = v.inlineBuf → mem.objects i = some a →
        mem'.objects i = some a := by
    unfold smallvecFree
    by_cases hheap : (!v.usingInline) = true ∧ (!v.arena) = true
    · have hspilled := h.spilled (by simpa using hheap.1)
      obtain ⟨d, hd, hne, -⟩ := hspilled
      have hbuffer := h.buffer
      rw [smallvecBuf, if_neg (by simpa using hheap.1)] at hbuffer
      obtain ⟨mem', hfree, hkeeps⟩ := hbuffer.free
      refine ⟨mem', ?_, fun i a hi ha => hkeeps i a ?_ ha⟩
      · rw [if_pos hheap, hfree, ok_bind]
      · rcases hi with hi | rfl
        · exact hi
        · rw [hd]
          exact fun heq => hne (Option.some.inj heq).symm
    · exact ⟨mem, if_neg hheap, fun _ _ _ ha => ha⟩
  have hcall : smallvecCall size inlineCap mem v .free =
      .ok (⟨true, none⟩, mem', smallvecInit inlineCap v.inlineBuf) := by
    simp only [smallvecCall, hfree, ok_bind]
  obtain ⟨a, ha, hsize⟩ := h.home
  have holds := smallvecInit_holds (hkeeps _ a (Or.inr rfl) ha) hsize
  have hxs := h.elements_eq
  have hnil := holds.elements_eq
  refine ⟨_, _, _, hcall, hnil.symm ▸ holds, ⟨fun _ => ⟨trivial, Or.inl ?_⟩, fun _ => rfl⟩,
    fun _ => ?_, fun hno => (by cases hno), fun hne => absurd rfl hne, fun _ hlt => ?_,
    fun _ => rfl, fun i b hi hb => ?_, fun i hi => ?_⟩
  · rw [hxs]
    exact h.len_le
  · rw [hnil]
    rfl
  · have hle := h.len_le
    rw [hxs] at hlt
    change v.cap < xs.length + 0 at hlt
    omega
  · exact hkeeps i b (Or.inl fun heq => hi (Or.inr heq.symm)) hb
  · rcases hi with hi | hi
    · exact Or.inl (Or.inl hi)
    · cases hi

/-- Every call that keeps to its contract is answered, with an outcome as specified. -/
theorem smallvecCall_outcome (h : v.Holds size inlineCap mem xs) (hsize : 0 < size)
    (hcap : 0 < inlineCap) (c : SmallvecCall α) (hallows : c.allows size mem v = true) :
    ∃ o mem' v', smallvecCall size inlineCap mem v c = .ok (o, mem', v') ∧
      c.Outcome size inlineCap mem v o mem' v' := by
  cases c with
  | push value answer => exact smallvecPush_outcome h hsize hcap value answer
  | pop out => exact smallvecPop_outcome h out
  | insert i value answer => exact smallvecInsert_outcome h hsize hcap i value answer
  | remove i out => exact smallvecRemove_outcome h hsize i out
  | extend src count answer => exact smallvecExtend_outcome h hsize src count answer hallows
  | clear => exact smallvecClear_outcome h
  | free => exact smallvecFree_outcome h

end Calls

end CanonC
