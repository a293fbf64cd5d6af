import CanonC.Toolkit.Store

/-!
# Buffers that hold a list

A buffer is an object of a store with room for `cap` elements, the first of which are a
list, or no object and no room. Each rule says what an access or an allocation does to the
list, and that it keeps every other object.
-/

namespace Toolkit

variable {α : Type*} {limit size : Nat}

/-- A list with a run of its elements replaced, which may reach past its end. -/
def splice (xs : List α) (i : Nat) (ys : List α) : List α :=
  xs.take i ++ ys ++ xs.drop (i + ys.length)

/-- A splice is as long as the list, or as far as it reaches. -/
theorem length_splice {xs ys : List α} {i : Nat} (hi : i ≤ xs.length) :
    (splice xs i ys).length = i + ys.length + (xs.length - (i + ys.length)) := by
  simp only [splice, List.length_append, List.length_take, List.length_drop, Nat.min_eq_left hi]

/-- A write to cells that start with a list splices the list. -/
theorem Cells.read_splice {mem : Nat → α} {xs ys : List α} {i : Nat}
    (h : Cells.read mem 0 xs.length = xs) (hi : i ≤ xs.length) :
    Cells.read (Cells.write mem i ys) 0 (splice xs i ys).length = splice xs i ys := by
  have hhead : Cells.read (Cells.write mem i ys) 0 i = xs.take i := by
    rw [Cells.read_write_of_disjoint (Or.inl (by omega)), ← h, Cells.take_read hi]
  have htail (n : Nat) (hn : n = xs.length - (i + ys.length)) :
      Cells.read (Cells.write mem i ys) (i + ys.length) n = xs.drop (i + ys.length) := by
    rw [Cells.read_write_of_disjoint (Or.inr (Nat.le_refl _)), hn]
    conv_rhs => rw [← h, Cells.drop_read, Nat.zero_add]
  rw [length_splice hi, Cells.read_add, Cells.read_add, Nat.zero_add, Nat.zero_add, hhead,
    Cells.read_write_self, htail _ rfl, splice]

/-- One element behind the list. -/
theorem splice_length (xs ys : List α) : splice xs xs.length ys = xs ++ ys := by
  rw [splice, List.take_length, List.drop_eq_nil_of_le (Nat.le_add_right _ _), List.append_nil]

/-- One element of the list. -/
theorem splice_singleton {xs : List α} {i : Nat} (hi : i < xs.length) (x : α) :
    splice xs i [x] = xs.set i x := by
  rw [splice, List.set_eq_take_append_cons_drop, if_pos hi, List.append_assoc]
  rfl

/-- The tail from an index on moved one on and the gap filled. -/
theorem splice_insert {xs : List α} {i : Nat} (hi : i ≤ xs.length) (x : α) :
    splice (splice xs (i + 1) (xs.drop i)) i [x] = xs.insertIdx i x := by
  obtain ⟨as, bs, rfl, rfl⟩ : ∃ as bs, xs = as ++ bs ∧ i = as.length :=
    ⟨xs.take i, xs.drop i, (List.take_append_drop i xs).symm, by simp [hi]⟩
  rw [Cells.insertIdx_append_length, List.drop_left]
  cases bs with
  | nil => simp [splice]
  | cons b bs =>
    have htake : as.take (as.length + 1) = as := List.take_of_length_le (Nat.le_succ _)
    have hend : (as ++ b :: bs).drop (as.length + 1 + (bs.length + 1)) = [] :=
      List.drop_eq_nil_of_le (by simp only [List.length_append, List.length_cons]; omega)
    simp [splice, List.take_append, htake, hend, List.drop_append]

/-- The tail behind an index moved onto it. -/
theorem splice_erase {xs : List α} {i : Nat} (hi : i < xs.length) :
    (splice xs i (xs.drop (i + 1))).take (xs.length - 1) = xs.eraseIdx i := by
  rw [List.eraseIdx_eq_take_drop_succ, splice]
  apply List.take_left'
  simp only [List.length_append, List.length_take, List.length_drop]
  omega

namespace Store

/-- Every object but one is the same. -/
def Keeps (s s' : Store limit α) (data : Option Nat) : Prop :=
  ∀ i a, some i ≠ data → s.objects i = some a → s'.objects i = some a

/-- The object, if there is one, has room for `cap` elements and starts with a list. -/
structure Buffer (size : Nat) (s : Store limit α) (data : Option Nat) (cap : Nat)
    (xs : List α) : Prop where
  /-- Without an object there is no room. -/
  null : data = none → cap = 0
  /-- The object has exactly the room and starts with the list. -/
  object : ∀ d, data = some d → ∃ a, s.objects d = some a ∧ a.range.size = cap * size ∧
    Cells.read a.cells 0 xs.length = xs
  /-- There is room for the list. -/
  length_le : xs.length ≤ cap

variable {s s' t : Store limit α} {data data' : Option Nat} {d cap : Nat} {xs ys : List α}

/-- Where nothing is done every object is kept. -/
theorem Keeps.refl (s : Store limit α) (data : Option Nat) : s.Keeps s data := fun _ _ _ h => h

/-- Where every object is kept, those but one are. -/
theorem Keeps.of_none (h : s.Keeps s' none) (data : Option Nat) : s.Keeps s' data :=
  fun i a _ ha => h i a (Option.some_ne_none i) ha

/-- What is kept of the old objects while another object is changed, which is the same one or a new
one, is kept in two steps. -/
theorem Keeps.trans (h : s.Keeps s' data) (h' : s'.Keeps t data')
    (hdata : ∀ d, data' = some d → data = some d ∨ s.objects d = none) : s.Keeps t data := by
  intro i a hi ha
  apply h' i a _ (h i a hi ha)
  intro heq
  rcases hdata i heq.symm with hsame | hnone
  · exact hi hsame.symm
  · rw [hnone] at ha
    cases ha

namespace Buffer

/-- The room is not larger than the limit. -/
theorem bytes_le (h : s.Buffer size data cap xs) : cap * size ≤ limit := by
  cases hd : data with
  | none => simp [h.null hd]
  | some d =>
    obtain ⟨a, ha, hsize, -⟩ := h.object d hd
    rw [← hsize]
    exact s.size_le d a ha

/-- Where nothing else is changed the buffer stays. -/
theorem of_keeps (h : s.Buffer size data cap xs) (hkeeps : s.Keeps s' data')
    (hne : ∀ d, data = some d → some d ≠ data') : s'.Buffer size data cap xs := by
  refine ⟨h.null, fun d hd => ?_, h.length_le⟩
  obtain ⟨a, ha, hsize, hread⟩ := h.object d hd
  exact ⟨a, hkeeps d a (hne d hd) ha, hsize, hread⟩

/-- The buffer holds every start of its list. -/
theorem take (h : s.Buffer size data cap xs) (n : Nat) : s.Buffer size data cap (xs.take n) := by
  have hle : (xs.take n).length ≤ xs.length := List.length_take_le' n xs
  refine ⟨h.null, fun d hd => ?_, Nat.le_trans hle h.length_le⟩
  obtain ⟨a, ha, hsize, hread⟩ := h.object d hd
  refine ⟨a, ha, hsize, ?_⟩
  rw [← Cells.take_read hle, hread, List.take_eq_take_iff]
  simp only [List.length_take]
  omega

/-- A buffer with an element has an object. -/
theorem exists_object (h : s.Buffer size data cap xs) (hpos : 0 < xs.length) :
    ∃ d, data = some d ∧ s.Buffer size (some d) cap xs := by
  cases hd : data with
  | none =>
    have hle := h.length_le
    rw [h.null hd] at hle
    omega
  | some d => exact ⟨d, rfl, hd ▸ h⟩

/-- A read of elements of the list. -/
theorem read (h : s.Buffer size (some d) cap xs) {i n : Nat} (hle : i + n ≤ xs.length) :
    s.read size ⟨d, i⟩ n = .ok ((xs.drop i).take n) := by
  obtain ⟨a, ha, hsize, hread⟩ := h.object d rfl
  have hroom : (i + n) * size ≤ a.range.size := by
    rw [hsize]
    exact Nat.mul_le_mul_right _ (Nat.le_trans hle h.length_le)
  rw [read_of_le (p := ⟨d, i⟩) ha hroom, ← hread, Cells.drop_read, Nat.zero_add,
    Cells.take_read (by omega)]

/-- A write that starts in the list or right behind it. -/
theorem write (h : s.Buffer size (some d) cap xs) {i : Nat} (ys : List α) (hi : i ≤ xs.length)
    (hle : i + ys.length ≤ cap) : ∃ s', s.write size ⟨d, i⟩ ys = .ok s' ∧
      s'.Buffer size (some d) cap (splice xs i ys) ∧ s.Keeps s' (some d) := by
  obtain ⟨a, ha, hsize, hread⟩ := h.object d rfl
  have hroom : (i + ys.length) * size ≤ a.range.size := by
    rw [hsize]
    exact Nat.mul_le_mul_right _ hle
  refine ⟨_, write_of_le (p := ⟨d, i⟩) ha hroom, ⟨nofun, fun d' hd' => ?_, ?_⟩, fun j b hj hb => ?_⟩
  · obtain rfl := Option.some.inj hd'
    refine ⟨_, objects_fill_self ha, hsize, ?_⟩
    exact Cells.read_splice hread hi
  · have hlen := h.length_le
    simp only [splice, List.length_append, List.length_take, List.length_drop]
    omega
  · rw [objects_fill_of_ne (fun h => hj (congrArg some h)), hb]

/-- A buffer that is given back. -/
theorem free (h : s.Buffer size data cap xs) :
    ∃ s', s.free data = .ok s' ∧ s.Keeps s' data := by
  cases data with
  | none => exact ⟨s, rfl, Keeps.refl s none⟩
  | some d =>
    obtain ⟨a, ha, -⟩ := h.object d rfl
    refine ⟨s.remove d, by simp only [Store.free, ha], fun i b hi hb => ?_⟩
    rw [objects_remove_of_ne (fun hid => hi (congrArg some hid)), hb]

/-- A buffer of another capacity in place of the old one, or a refusal. -/
theorem realloc (h : s.Buffer size data cap xs) (cap' : Nat) (hle : xs.length ≤ cap')
    (answer : Option (Grant α)) :
    Store.realloc size s data (cap' * size) answer = .ok (s, none) ∨
    ∃ s' d', Store.realloc size s data (cap' * size) answer = .ok (s', some d') ∧
      s'.Buffer size (some d') cap' xs ∧ s.Keeps s' data ∧ s.objects d' = none := by
  cases data with
  | none =>
    obtain rfl : xs = [] := by
      have hlen := h.length_le
      rw [h.null rfl] at hlen
      exact List.length_eq_zero_iff.mp (Nat.le_zero.mp hlen)
    rcases s.malloc_cases (cap' * size) answer with hm | ⟨s', new, hm, -, hnew, hsize, hkeep⟩
    · exact Or.inl (congrArg Except.ok hm)
    · refine Or.inr ⟨s', s.next, congrArg Except.ok hm, ⟨nofun, fun d' hd' => ?_, hle⟩,
        fun i a _ ha => hkeep i a ha, s.fresh _ (Nat.le_refl _)⟩
      obtain rfl := Option.some.inj hd'
      exact ⟨new, hnew, hsize, rfl⟩
  | some d =>
    obtain ⟨a, ha, hsize, hread⟩ := h.object d rfl
    rcases @realloc_cases α limit size s d a ha (cap' * size) answer with
      hm | ⟨s', new, hm, -, hnew, hsize', hcarry, hkeep⟩
    · exact Or.inl hm
    · refine Or.inr ⟨s', s.next, hm, ⟨nofun, fun d' hd' => ?_, hle⟩, fun i b hi hb => ?_,
        s.fresh _ (Nat.le_refl _)⟩
      · obtain rfl := Option.some.inj hd'
        refine ⟨new, hnew, hsize', ?_⟩
        rw [hcarry, hread]
        · rw [hsize]
          exact Nat.mul_le_mul_right _ h.length_le
        · exact Nat.mul_le_mul_right _ hle
      · exact hkeep i b (fun hid => hi (congrArg some hid)) hb

/-- An empty buffer of any capacity, or a refusal. -/
theorem malloc (s : Store limit α) (size cap : Nat) (answer : Option (Grant α)) :
    s.malloc (cap * size) answer = (s, none) ∨
    ∃ s' d', s.malloc (cap * size) answer = (s', some d') ∧ s'.Buffer size (some d') cap [] ∧
      s.Keeps s' none ∧ s.objects d' = none := by
  rcases s.malloc_cases (cap * size) answer with hm | ⟨s', new, hm, -, hnew, hsize, hkeep⟩
  · exact Or.inl hm
  · refine Or.inr ⟨s', s.next, hm, ⟨nofun, fun d' hd' => ?_, Nat.zero_le _⟩,
      fun i a _ ha => hkeep i a ha, s.fresh _ (Nat.le_refl _)⟩
    obtain rfl := Option.some.inj hd'
    exact ⟨new, hnew, hsize, rfl⟩

end Buffer

end Store

end Toolkit
