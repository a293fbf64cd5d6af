import CanonC.Data.Smallvec.Model

/-!
# The inline-first vector keeps its list when it spills

A vector that makes room has it, or it spills into a new object of exactly the computed size and
keeps its own array, or it is refused and unchanged.
-/

namespace CanonC

open Toolkit

variable {α : Type} {size inlineCap : Nat} {mem mem' : TypedMemory α} {v v' : Smallvec}
  {xs : List α} {need d : Nat} {answer : Option (Grant α)}

/-- The vector has the object. -/
def Smallvec.Owns (v : Smallvec) (d : Nat) : Prop := d = v.inlineBuf ∨ v.data = some d

/-- The objects that the vector does not have are kept. -/
def Smallvec.KeepsOthers (mem mem' : TypedMemory α) (v : Smallvec) : Prop :=
  ∀ i a, ¬ v.Owns i → mem.objects i = some a → mem'.objects i = some a

/-- The allocator has an object for a spill that needs some room. -/
def Smallvec.Allocates (size inlineCap : Nat) (mem : TypedMemory α) (need : Nat)
    (answer : Option (Grant α)) : Prop :=
  (mem.malloc (max (2 * inlineCap) need * size) answer).2.isSome = true

/-- The vector holds the list. -/
structure Smallvec.Holds (size inlineCap : Nat) (mem : TypedMemory α) (v : Smallvec)
    (xs : List α) : Prop where
  /-- The active buffer has exactly the capacity and starts with the list. -/
  buffer : mem.Buffer size (smallvecBuf v) v.cap xs
  /-- The number of elements. -/
  len_eq : v.len = xs.length
  /-- The array in the structure. -/
  home : ∃ a, mem.objects v.inlineBuf = some a ∧ a.range.size = inlineCap * size
  /-- In the structure there is the room of its array. -/
  inline : v.usingInline = true → v.data = none ∧ v.cap = inlineCap
  /-- A spilled vector has another object of at least twice the room. -/
  spilled : v.usingInline = false → ∃ d, v.data = some d ∧ d ≠ v.inlineBuf ∧ 2 * inlineCap ≤ v.cap

/-- The vector holds the list and has room, in the buffer that it had or after a spill. -/
structure Smallvec.Room (size inlineCap : Nat) (mem : TypedMemory α) (v : Smallvec) (xs : List α)
    (need : Nat) (answer : Option (Grant α)) (mem' : TypedMemory α) (v' : Smallvec) (d : Nat) :
    Prop where
  /-- The active buffer. -/
  buf_eq : smallvecBuf v' = some d
  /-- It holds the list. -/
  buffer : mem'.Buffer size (some d) v'.cap xs
  /-- There is room. -/
  le_cap : need ≤ v'.cap
  /-- Every object is kept. -/
  keeps : mem.Keeps mem' none
  /-- Without a need for it nothing is moved. -/
  storage : need ≤ v.cap ∧ v' = v ∨
    v.cap < need ∧ v.usingInline = true ∧ Smallvec.Allocates size inlineCap mem need answer ∧
      mem.objects d = none ∧
      v' = { v with data := some d, cap := max (2 * inlineCap) need, usingInline := false }

namespace Smallvec

/-- The active buffer is one of the objects of the vector. -/
theorem owns_buf (h : smallvecBuf v = some d) : v.Owns d := by
  unfold smallvecBuf at h
  split at h
  · exact Or.inl (Option.some.inj h).symm
  · exact Or.inr h

namespace Holds

/-- There is an active buffer. -/
theorem exists_buf (h : v.Holds size inlineCap mem xs) :
    ∃ d, smallvecBuf v = some d ∧ mem.Buffer size (some d) v.cap xs := by
  have hbuffer := h.buffer
  cases hd : smallvecBuf v with
  | some d =>
    rw [hd] at hbuffer
    exact ⟨d, rfl, hbuffer⟩
  | none =>
    unfold smallvecBuf at hd
    split at hd
    · cases hd
    · rename_i hin
      obtain ⟨d, hdata, -⟩ := h.spilled (Bool.eq_false_iff.mpr hin)
      rw [hdata] at hd
      cases hd

/-- The objects of the vector are there. -/
theorem owned (h : v.Holds size inlineCap mem xs) (hd : v.Owns d) :
    ∃ a, mem.objects d = some a := by
  rcases hd with rfl | hd
  · obtain ⟨a, ha, -⟩ := h.home
    exact ⟨a, ha⟩
  · cases hin : v.usingInline with
    | true =>
      rw [(h.inline hin).1] at hd
      cases hd
    | false =>
      obtain ⟨a, ha, -⟩ := h.buffer.object d (by rw [smallvecBuf, hin]; exact hd)
      exact ⟨a, ha⟩

/-- Where the objects of the vector are kept it stays. -/
theorem of_keeps (h : v.Holds size inlineCap mem xs)
    (hkeeps : ∀ i a, v.Owns i → mem.objects i = some a → mem'.objects i = some a) :
    v.Holds size inlineCap mem' xs := by
  refine ⟨⟨h.buffer.null, fun d hd => ?_, h.buffer.length_le⟩, h.len_eq, ?_, h.inline, h.spilled⟩
  · obtain ⟨a, ha, hrest⟩ := h.buffer.object d hd
    exact ⟨a, hkeeps d a (owns_buf hd) ha, hrest⟩
  · obtain ⟨a, ha, hsize⟩ := h.home
    exact ⟨a, hkeeps _ a (Or.inl rfl) ha, hsize⟩

/-- The elements lie in the slots. -/
theorem len_le (h : v.Holds size inlineCap mem xs) : xs.length ≤ v.cap := h.buffer.length_le

/-- The bytes of the active buffer and of the array. -/
theorem bytes_le (h : v.Holds size inlineCap mem xs) :
    v.cap * size ≤ ptrdiffMax ∧ inlineCap * size ≤ ptrdiffMax := by
  obtain ⟨a, ha, hsize⟩ := h.home
  exact ⟨h.buffer.bytes_le, hsize ▸ mem.size_le _ a ha⟩

end Holds

namespace Room

/-- Making room leaves the number of elements. -/
theorem len_eq (hroom : v.Room size inlineCap mem xs need answer mem' v' d) : v'.len = v.len := by
  rcases hroom.storage with ⟨-, rfl⟩ | ⟨-, -, -, -, rfl⟩ <;> rfl

/-- What the vector has is what it had or new. -/
theorem owns (hroom : v.Room size inlineCap mem xs need answer mem' v' d) {i : Nat}
    (hi : v'.Owns i) : v.Owns i ∨ mem.objects i = none := by
  rcases hroom.storage with ⟨-, rfl⟩ | ⟨-, -, -, hfresh, rfl⟩
  · exact Or.inl hi
  · rcases hi with hi | hi
    · exact Or.inl (Or.inl hi)
    · rw [← Option.some.inj hi]
      exact Or.inr hfresh

variable {mem'' : TypedMemory α} {zs : List α} {len : Nat}

/-- After a change of the buffer the other objects are the same. -/
theorem keepsOthers (hroom : v.Room size inlineCap mem xs need answer mem' v' d)
    (hkeeps : mem'.Keeps mem'' (some d)) : KeepsOthers mem mem'' v := by
  intro i a hi ha
  apply hkeeps i a _ (hroom.keeps i a (Option.some_ne_none i) ha)
  intro heq
  rw [Option.some.inj heq] at hi ha
  rcases hroom.owns (owns_buf hroom.buf_eq) with howns | hfresh
  · exact hi howns
  · rw [hfresh] at ha
    cases ha

/-- After a change of the buffer the vector holds what the buffer holds. -/
theorem holds (h : v.Holds size inlineCap mem xs)
    (hroom : v.Room size inlineCap mem xs need answer mem' v' d)
    (hbuffer : mem''.Buffer size (some d) v'.cap zs) (hkeeps : mem'.Keeps mem'' (some d))
    (hlen : len = zs.length) : Holds size inlineCap mem'' { v' with len } zs := by
  have hbuf : smallvecBuf { v' with len } = some d := hroom.buf_eq
  have hhome : ∃ a, mem''.objects v.inlineBuf = some a ∧ a.range.size = inlineCap * size := by
    obtain ⟨a, ha, hsize⟩ := h.home
    by_cases heq : v.inlineBuf = d
    · rcases hroom.storage with ⟨-, rfl⟩ | ⟨-, -, -, hfresh, -⟩
      · obtain ⟨b, hb, hbsize, -⟩ := hbuffer.object d rfl
        cases hin : v'.usingInline with
        | true =>
          rw [(h.inline hin).2] at hbsize
          exact ⟨b, heq.symm ▸ hb, hbsize⟩
        | false =>
          obtain ⟨d', hd', hne, -⟩ := h.spilled hin
          have hbuf' := hroom.buf_eq
          simp only [smallvecBuf, hin, Bool.false_eq_true, if_false] at hbuf'
          rw [hd', ← heq] at hbuf'
          exact absurd (Option.some.inj hbuf') hne
      · rw [heq, hfresh] at ha
        cases ha
    · refine ⟨a, hkeeps _ a (fun heq' => heq (Option.some.inj heq')) ?_, hsize⟩
      exact hroom.keeps _ a (Option.some_ne_none _) ha
  rcases hroom.storage with ⟨-, rfl⟩ | ⟨-, -, -, hfresh, rfl⟩
  · exact ⟨hbuf ▸ hbuffer, hlen, hhome, h.inline, h.spilled⟩
  · refine ⟨hbuf ▸ hbuffer, hlen, hhome, nofun, fun _ => ⟨d, rfl, ?_, Nat.le_max_left _ _⟩⟩
    intro heq
    obtain ⟨a, ha, -⟩ := h.home
    rw [← heq, hfresh] at ha
    cases ha

end Room

end Smallvec

private theorem smallvecAlloc_eq (hsize : 0 < size) (mem : TypedMemory α) (v : Smallvec) {n : Nat}
    (hn : n * size < usizeSize) (answer : Option (Grant α)) :
    smallvecAlloc size mem v n answer = mem.malloc (n * size) answer := by
  have hle : n ≤ usizeMax / size := by
    rw [Nat.le_div_iff_mul_le hsize]
    have hmax := usizeMax_succ
    omega
  have hmul : usizeMul size n = n * size := by
    rw [usizeMul, Nat.mul_comm, Nat.mod_eq_of_lt hn]
  simp only [smallvecAlloc, arenaAllocArray, if_pos hle, hmul, usizeMul_of_lt hn, ite_self]

/-- A spill is refused and changes nothing, or the list lies in a new object. -/
private theorem smallvecSpill_spec (h : v.Holds size inlineCap mem xs) (hsize : 0 < size)
    (hin : v.usingInline = true) (hneed : need * size ≤ 2 * ptrdiffMax) (hfull : v.cap < need)
    (answer : Option (Grant α)) :
    (smallvecSpill size mem v need answer = .ok (mem, v, false) ∧
      ¬ Smallvec.Allocates size inlineCap mem need answer) ∨
    ∃ mem' v' d, smallvecSpill size mem v need answer = .ok (mem', v', true) ∧
      v.Room size inlineCap mem xs need answer mem' v' d := by
  obtain ⟨hdata, hcap⟩ := h.inline hin
  have hlen := h.len_le
  have hbytes := h.bytes_le.2
  have hsource := h.buffer
  rw [smallvecBuf, hin, if_pos rfl] at hsource
  have hsrc := @ElemSource.of_buffer _ _ _ _ _ xs.length _ ⟨v.inlineBuf, 0⟩ hsource rfl
    (Nat.le_of_eq (Nat.zero_add _))
  rw [List.drop_zero, List.take_length] at hsrc
  have hword := two_mul_ptrdiffMax_lt
  have htwice : inlineCap * 2 * size = 2 * (inlineCap * size) := by
    rw [Nat.mul_comm inlineCap, Nat.mul_assoc]
  have hle : inlineCap * 2 * 1 ≤ inlineCap * 2 * size := Nat.mul_le_mul_left _ hsize
  have hmax : max (2 * inlineCap) need * size < usizeSize := by
    rcases Nat.le_total (2 * inlineCap) need with hle | hle
    · rw [Nat.max_eq_right hle]
      omega
    · rw [Nat.max_eq_left hle, Nat.mul_comm 2]
      omega
  have hnew : (if usizeMul v.cap 2 < need then need else usizeMul v.cap 2) =
      max (2 * inlineCap) need := by
    rw [hcap, usizeMul_of_lt (by omega), Nat.mul_comm inlineCap]
    split <;> omega
  simp only [smallvecSpill, hin, Bool.not_true, Bool.false_eq_true, if_false, hnew,
    smallvecAlloc_eq hsize mem v hmax]
  rcases Store.Buffer.malloc mem size (max (2 * inlineCap) need) answer with
    hno | ⟨mem₁, d, hyes, hbuffer, hkeeps, hfresh⟩
  · left
    simp only [hno]
    refine ⟨trivial, fun hallocates => ?_⟩
    rw [Smallvec.Allocates, hno] at hallocates
    cases hallocates
  · right
    obtain ⟨mem₂, hcopy, hbuffer₂, hkept⟩ := hsrc.copy_fresh hbuffer hkeeps hfresh hsize (by omega)
    rw [← h.len_eq] at hcopy
    simp only [hyes, hcopy, ok_bind]
    have hallocates : Smallvec.Allocates size inlineCap mem need answer := by
      rw [Smallvec.Allocates, hyes]
      rfl
    exact ⟨mem₂, _, d, rfl, rfl, hbuffer₂, Nat.le_max_right _ _, hkept,
      Or.inr ⟨hfull, hin, hallocates, hfresh, rfl⟩⟩

/-- A vector that has the room has it where it is. -/
theorem Smallvec.Holds.room (h : v.Holds size inlineCap mem xs) (hroom : need ≤ v.cap)
    (answer : Option (Grant α)) : ∃ d, v.Room size inlineCap mem xs need answer mem v d := by
  obtain ⟨d, hd, hbuffer⟩ := h.exists_buf
  exact ⟨d, hd, hbuffer, hroom, Store.Keeps.refl _ _, Or.inl ⟨hroom, rfl⟩⟩

/-- An insertion or an extension is refused and changes nothing, or it has room. -/
theorem smallvecMakeRoom_spec (h : v.Holds size inlineCap mem xs) (hsize : 0 < size) {full : Prop}
    [Decidable full] (hfull : full ↔ v.cap < need) (hneed : need * size ≤ 2 * ptrdiffMax)
    (answer : Option (Grant α)) :
    (smallvecMakeRoom size mem v full need answer = .ok (mem, v, false) ∧
      ¬ (need ≤ v.cap ∨ v.usingInline = true ∧
        Smallvec.Allocates size inlineCap mem need answer)) ∨
    ∃ mem' v' d, smallvecMakeRoom size mem v full need answer = .ok (mem', v', true) ∧
      v.Room size inlineCap mem xs need answer mem' v' d := by
  unfold smallvecMakeRoom
  by_cases hlt : v.cap < need
  · rw [if_pos (hfull.mpr hlt)]
    cases hin : v.usingInline with
    | false =>
      left
      refine ⟨rfl, ?_⟩
      rintro (hle | ⟨hinline, -⟩)
      · omega
      · cases hinline
    | true =>
      rcases smallvecSpill_spec h hsize hin hneed hlt answer with ⟨hno, hrefused⟩ | hroom
      · left
        refine ⟨hno, ?_⟩
        rintro (hle | ⟨-, hallocates⟩)
        · omega
        · exact hrefused hallocates
      · exact Or.inr hroom
  · obtain ⟨d, hroom⟩ := h.room (Nat.le_of_not_lt hlt) answer
    right
    rw [if_neg (fun hf => hlt (hfull.mp hf))]
    exact ⟨mem, v, d, rfl, hroom⟩

/-- A push is refused and changes nothing, or it puts the value where it has room. -/
theorem smallvecPush_spec (h : v.Holds size inlineCap mem xs) (hsize : 0 < size)
    (hneed : (xs.length + 1) * size ≤ 2 * ptrdiffMax) (value : α) (answer : Option (Grant α)) :
    (smallvecPush size mem v value answer = .ok (mem, v, false) ∧
      ¬ (xs.length + 1 ≤ v.cap ∨ v.usingInline = true ∧
        Smallvec.Allocates size inlineCap mem (xs.length + 1) answer)) ∨
    ∃ mem' v' d, v.Room size inlineCap mem xs (xs.length + 1) answer mem' v' d ∧
      smallvecPush size mem v value answer = (do
        let (mem'', v'') ← smallvecPut size mem' v' value
        .ok (mem'', v'', true)) := by
  have hlen := h.len_eq
  have hle := h.len_le
  unfold smallvecPush
  by_cases hlt : v.len < v.cap
  · obtain ⟨d, hroom⟩ := h.room (show xs.length + 1 ≤ v.cap by omega) answer
    right
    rw [if_pos hlt]
    exact ⟨mem, v, d, hroom, rfl⟩
  · rw [if_neg hlt]
    cases hin : v.usingInline with
    | false =>
      left
      simp only [smallvecPushSpill, hin, Bool.false_eq_true, if_false, ok_bind, Bool.not_true,
        if_pos (Nat.le_of_not_lt hlt)]
      refine ⟨trivial, ?_⟩
      rintro (hle | ⟨hinline, -⟩)
      · omega
      · cases hinline
    | true =>
      have hone : usizeAdd v.len 1 = xs.length + 1 := by
        have hmul : (xs.length + 1) * 1 ≤ (xs.length + 1) * size := Nat.mul_le_mul_left _ hsize
        have hword := two_mul_ptrdiffMax_lt
        rw [hlen, usizeAdd_of_lt (by omega)]
      simp only [smallvecPushSpill, hin, if_true, hone]
      rcases smallvecSpill_spec h hsize hin hneed (show v.cap < xs.length + 1 by omega) answer with
        ⟨hno, hrefused⟩ | ⟨mem', v', d, hyes, hroom⟩
      · left
        simp only [hno, ok_bind, Bool.not_false, if_true]
        refine ⟨trivial, ?_⟩
        rintro (hle | ⟨-, hallocates⟩)
        · omega
        · exact hrefused hallocates
      · right
        have hroom' : ¬ v'.len ≥ v'.cap := by
          have hcap := hroom.le_cap
          rw [hroom.len_eq]
          omega
        simp only [hyes, ok_bind, Bool.not_true, Bool.false_eq_true, if_false, if_neg hroom']
        exact ⟨mem', v', d, hroom, rfl⟩

end CanonC
