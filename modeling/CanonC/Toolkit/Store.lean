import CanonC.Toolkit.Blocks
import CanonC.Toolkit.Cells

/-!
# A store of objects with an adversarial allocator

Each object has its own addresses and holds elements of one size. An access names its object
and is a fault unless the object is there and covers it. Where a new object lies and what it
holds at first is an argument of the allocation; an answer that no allocator may give counts
as a refusal, so to quantify over the answers is to quantify over the allocators.
-/

namespace Toolkit

variable {α : Type*} {limit size : Nat}

/-- The addresses of an object and its elements. -/
structure Object (α : Type*) where
  /-- The addresses. -/
  range : Block
  /-- The elements by index. -/
  cells : Nat → α

/-- Objects of at most `limit` bytes that do not overlap, each under a name of its own. -/
structure Store (limit : Nat) (α : Type*) where
  /-- The objects that are there. -/
  objects : Nat → Option (Object α)
  /-- The name of the next object. -/
  next : Nat
  /-- The names from there on are free. -/
  fresh : ∀ i, next ≤ i → objects i = none
  /-- The objects do not overlap. -/
  apart : ∀ i j a b, objects i = some a → objects j = some b → i ≠ j → a.range.Disjoint b.range
  /-- No object starts at zero. -/
  start_pos : ∀ i a, objects i = some a → 0 < a.range.start
  /-- No object is larger than the limit. -/
  size_le : ∀ i a, objects i = some a → a.range.size ≤ limit

/-- What an allocator answers if it does not refuse. -/
structure Grant (α : Type*) where
  /-- The first address. -/
  start : Nat
  /-- What lies there. -/
  cells : Nat → α

/-- A pointer to an element of an object. -/
structure Pointer where
  /-- The name of the object. -/
  object : Nat
  /-- The index of the element. -/
  index : Nat

namespace Store

/-- No objects. -/
def empty (limit : Nat) (α : Type*) : Store limit α where
  objects := fun _ => none
  next := 0
  fresh := fun _ _ => rfl
  apart := nofun
  start_pos := nofun
  size_le := nofun

/-- The fault of an access to an object that is not there. -/
def noObject : String := "access to an object that is not there"

/-- The fault of an access outside an object. -/
def outside : String := "access outside an object"

instance (a b : Block) : Decidable (a.Disjoint b) :=
  inferInstanceAs (Decidable (a.stop ≤ b.start ∨ b.stop ≤ a.start))

/-- A new object may lie at these addresses, in place of an old one if there is one. -/
def Admits (s : Store limit α) (old : Option Nat) (r : Block) : Prop :=
  0 < r.start ∧ r.size ≤ limit ∧
    ∀ i < s.next, some i ≠ old → ∀ a ∈ s.objects i, r.Disjoint a.range

instance (s : Store limit α) (old : Option Nat) (r : Block) : Decidable (s.Admits old r) :=
  inferInstanceAs (Decidable (_ ∧ _ ∧ _))

/-- The object that a name has after a new object has taken the place of an old one. -/
def replaced (s : Store limit α) (old : Option Nat) (new : Object α) (i : Nat) :
    Option (Object α) :=
  if i = s.next then some new else if some i = old then none else s.objects i

/-- A name of an object is not free. -/
theorem lt_next {s : Store limit α} {i : Nat} {a : Object α} (h : s.objects i = some a) :
    i < s.next := by
  by_contra hlt
  rw [s.fresh i (by omega)] at h
  cases h

/-- Another object that stays is the one that was there. -/
theorem replaced_eq_some {s : Store limit α} {old : Option Nat} {new a : Object α} {i : Nat}
    (h : s.replaced old new i = some a) :
    (i = s.next ∧ a = new) ∨ (i < s.next ∧ some i ≠ old ∧ s.objects i = some a) := by
  unfold replaced at h
  split at h
  · exact Or.inl ⟨‹_›, (Option.some.inj h).symm⟩
  · split at h
    · cases h
    · exact Or.inr ⟨lt_next h, ‹_›, h⟩

/-- A new object takes the place of an old one. -/
def replace (s : Store limit α) (old : Option Nat) (new : Object α) (h : s.Admits old new.range) :
    Store limit α where
  objects := s.replaced old new
  next := s.next + 1
  fresh := fun i hi => by
    have hne : i ≠ s.next := by omega
    rw [replaced, if_neg hne, s.fresh i (by omega)]
    split <;> rfl
  apart := fun i j a b hi hj hij => by
    rcases replaced_eq_some hi with ⟨rfl, rfl⟩ | ⟨hlt, hold, ha⟩
    · rcases replaced_eq_some hj with ⟨rfl, rfl⟩ | ⟨hlt, hold, hb⟩
      · exact absurd rfl hij
      · exact h.2.2 j hlt hold b hb
    · rcases replaced_eq_some hj with ⟨rfl, rfl⟩ | ⟨-, -, hb⟩
      · exact Or.symm (h.2.2 i hlt hold a ha)
      · exact s.apart i j a b ha hb hij
  start_pos := fun i a hi => by
    rcases replaced_eq_some hi with ⟨-, rfl⟩ | ⟨-, -, hi⟩
    · exact h.1
    · exact s.start_pos i a hi
  size_le := fun i a hi => by
    rcases replaced_eq_some hi with ⟨-, rfl⟩ | ⟨-, -, hi⟩
    · exact h.2.1
    · exact s.size_le i a hi

/-- The object without a name is gone. -/
def remove (s : Store limit α) (old : Nat) : Store limit α where
  objects := fun i => if i = old then none else s.objects i
  next := s.next
  fresh := fun i hi => by
    rw [s.fresh i hi]
    split <;> rfl
  apart := fun i j a b hi hj hij => by
    split at hi
    · cases hi
    · split at hj
      · cases hj
      · exact s.apart i j a b hi hj hij
  start_pos := fun i a hi => by
    split at hi
    · cases hi
    · exact s.start_pos i a hi
  size_le := fun i a hi => by
    split at hi
    · cases hi
    · exact s.size_le i a hi

/-- The object that a name has after the elements of one object have changed. -/
def filled (s : Store limit α) (d : Nat) (cells : Nat → α) (i : Nat) : Option (Object α) :=
  if i = d then (s.objects i).map fun a => { a with cells } else s.objects i

/-- A write gives an object no other range. -/
theorem filled_eq_some {s : Store limit α} {d i : Nat} {cells : Nat → α} {a : Object α}
    (h : s.filled d cells i = some a) : ∃ b, s.objects i = some b ∧ a.range = b.range := by
  unfold filled at h
  split at h
  · obtain ⟨b, hb, rfl⟩ := Option.map_eq_some_iff.mp h
    exact ⟨b, hb, rfl⟩
  · exact ⟨a, h, rfl⟩

/-- The elements of an object are set. -/
def fill (s : Store limit α) (d : Nat) (cells : Nat → α) : Store limit α where
  objects := s.filled d cells
  next := s.next
  fresh := fun i hi => by
    rw [filled, s.fresh i hi]
    split <;> rfl
  apart := fun i j a b hi hj hij => by
    obtain ⟨a', ha, hra⟩ := filled_eq_some hi
    obtain ⟨b', hb, hrb⟩ := filled_eq_some hj
    rw [hra, hrb]
    exact s.apart i j a' b' ha hb hij
  start_pos := fun i a hi => by
    obtain ⟨a', ha, hra⟩ := filled_eq_some hi
    rw [hra]
    exact s.start_pos i a' ha
  size_le := fun i a hi => by
    obtain ⟨a', ha, hra⟩ := filled_eq_some hi
    rw [hra]
    exact s.size_le i a' ha

/-- A new object of `bytes` bytes, or a refusal. -/
def malloc (s : Store limit α) (bytes : Nat) (answer : Option (Grant α)) :
    Store limit α × Option Nat :=
  match answer with
  | none => (s, none)
  | some g =>
    if h : s.Admits none ⟨g.start, bytes⟩ then
      (s.replace none ⟨⟨g.start, bytes⟩, g.cells⟩ h, some s.next)
    else (s, none)

/-- The object taken back; nothing without a name. -/
def free (s : Store limit α) (d : Option Nat) : Except String (Store limit α) :=
  match d with
  | none => .ok s
  | some d =>
    match s.objects d with
    | none => .error noObject
    | some _ => .ok (s.remove d)

/-- The elements that an object of `bytes` bytes takes over from an old one. -/
def carried (size : Nat) (old : Object α) (bytes : Nat) (cells : Nat → α) (k : Nat) : α :=
  if (k + 1) * size ≤ min old.range.size bytes then old.cells k else cells k

/-- An object of `bytes` bytes in place of an old one, with its elements as far as they go, or a
refusal that leaves the old one. -/
def realloc (size : Nat) (s : Store limit α) (d : Option Nat) (bytes : Nat)
    (answer : Option (Grant α)) : Except String (Store limit α × Option Nat) :=
  match d with
  | none => .ok (s.malloc bytes answer)
  | some d =>
    match s.objects d with
    | none => .error noObject
    | some old =>
      match answer with
      | none => .ok (s, none)
      | some g =>
        if h : s.Admits (some d) ⟨g.start, bytes⟩ then
          .ok (s.replace (some d) ⟨⟨g.start, bytes⟩, carried size old bytes g.cells⟩ h, some s.next)
        else .ok (s, none)

/-- The address that a pointer has. -/
def address (size : Nat) (s : Store limit α) (p : Pointer) : Except String Nat :=
  match s.objects p.object with
  | none => .error noObject
  | some a => .ok (a.range.start + p.index * size)

/-- The `n` elements from a pointer on. -/
def read (size : Nat) (s : Store limit α) (p : Pointer) (n : Nat) : Except String (List α) :=
  match s.objects p.object with
  | none => .error noObject
  | some a =>
    if (p.index + n) * size ≤ a.range.size then .ok (Cells.read a.cells p.index n)
    else .error outside

/-- There are `n` elements from a pointer on. -/
def covers (size : Nat) (s : Store limit α) (p : Pointer) (n : Nat) : Bool :=
  match s.objects p.object with
  | none => false
  | some a => (p.index + n) * size ≤ a.range.size

/-- The elements written from a pointer on. -/
def write (size : Nat) (s : Store limit α) (p : Pointer) (xs : List α) :
    Except String (Store limit α) :=
  match s.objects p.object with
  | none => .error noObject
  | some a =>
    if (p.index + xs.length) * size ≤ a.range.size then
      .ok (s.fill p.object (Cells.write a.cells p.index xs))
    else .error outside

/-- The `n` elements from one pointer on copied to another; the two runs may overlap. -/
def move (size : Nat) (s : Store limit α) (dest src : Pointer) (n : Nat) :
    Except String (Store limit α) := do
  let xs ← s.read size src n
  s.write size dest xs

/-- What else may be done with a store. -/
inductive Call (α : Type*) where
  /-- An allocation. -/
  | malloc (bytes : Nat) (answer : Option (Grant α))
  /-- A release. -/
  | free (d : Nat)
  /-- A write. -/
  | write (p : Pointer) (xs : List α)

/-- One call. -/
def call (size : Nat) (s : Store limit α) : Call α → Except String (Store limit α)
  | .malloc bytes answer => .ok (s.malloc bytes answer).1
  | .free d => s.free (some d)
  | .write p xs => s.write size p xs

/-- The object that a call changes. -/
def Call.target : Call α → Option Nat
  | .malloc _ _ => none
  | .free d => some d
  | .write p _ => some p.object

section Rules

variable {s s' : Store limit α} {d i : Nat} {a : Object α} {bytes : Nat}

/-- The new object has the next name. -/
@[simp] theorem objects_replace_next {old : Option Nat} {new : Object α}
    (h : s.Admits old new.range) : (s.replace old new h).objects s.next = some new :=
  if_pos rfl

/-- A replacement keeps the other objects. -/
theorem objects_replace_of_some {old : Option Nat} {new : Object α} (h : s.Admits old new.range)
    (hi : s.objects i = some a) (hne : some i ≠ old) :
    (s.replace old new h).objects i = some a := by
  have hlt := lt_next hi
  change s.replaced old new i = some a
  rw [replaced, if_neg (by omega), if_neg hne, hi]

/-- A write gives an object its cells. -/
@[simp] theorem objects_fill_self {cells : Nat → α} (h : s.objects d = some a) :
    (s.fill d cells).objects d = some { a with cells } := by
  change s.filled d cells d = _
  rw [filled, if_pos rfl, h, Option.map_some]

/-- A write leaves other objects alone. -/
theorem objects_fill_of_ne {cells : Nat → α} (h : i ≠ d) :
    (s.fill d cells).objects i = s.objects i :=
  if_neg h

/-- Giving an object back leaves the others there. -/
theorem objects_remove_of_ne (h : i ≠ d) : (s.remove d).objects i = s.objects i := if_neg h

/-- A read inside an object. -/
theorem read_of_le {p : Pointer} {n : Nat} (h : s.objects p.object = some a)
    (hle : (p.index + n) * size ≤ a.range.size) :
    s.read size p n = .ok (Cells.read a.cells p.index n) := by
  rw [read, h]
  exact if_pos hle

/-- A read of nothing reads nothing. -/
theorem read_zero {p : Pointer} {xs : List α} (h : s.read size p 0 = .ok xs) : xs = [] := by
  unfold read at h
  split at h
  · cases h
  · split at h
    · exact (Except.ok.inj h).symm
    · cases h

/-- An object covers elements when they end in its range. -/
theorem covers_iff {p : Pointer} {n : Nat} : s.covers size p n = true ↔
    ∃ a, s.objects p.object = some a ∧ (p.index + n) * size ≤ a.range.size := by
  unfold covers
  cases h : s.objects p.object with
  | none => simp
  | some a => simp

/-- A write inside an object. -/
theorem write_of_le {p : Pointer} {xs : List α} (h : s.objects p.object = some a)
    (hle : (p.index + xs.length) * size ≤ a.range.size) :
    s.write size p xs = .ok (s.fill p.object (Cells.write a.cells p.index xs)) := by
  rw [write, h]
  exact if_pos hle

/-- An allocation is refused and changes nothing, or adds an object of the requested size. -/
theorem malloc_cases (s : Store limit α) (bytes : Nat) (answer : Option (Grant α)) :
    s.malloc bytes answer = (s, none) ∨
    ∃ s' new, s.malloc bytes answer = (s', some s.next) ∧ bytes ≤ limit ∧
      s'.objects s.next = some new ∧ new.range.size = bytes ∧
      ∀ i a, s.objects i = some a → s'.objects i = some a := by
  unfold malloc
  cases answer with
  | none => exact Or.inl rfl
  | some g =>
    by_cases h : s.Admits none ⟨g.start, bytes⟩
    · refine Or.inr ⟨_, _, dif_pos h, h.2.1, objects_replace_next h, rfl, fun i a hi => ?_⟩
      exact objects_replace_of_some h hi (by simp)
    · exact Or.inl (dif_neg h)

/-- A reallocation is refused and changes nothing, or an object of the requested size with the
elements that fit has taken the place of the old one. -/
theorem realloc_cases (h : s.objects d = some a) (bytes : Nat) (answer : Option (Grant α)) :
    s.realloc size (some d) bytes answer = .ok (s, none) ∨
    ∃ s' new, s.realloc size (some d) bytes answer = .ok (s', some s.next) ∧ bytes ≤ limit ∧
      s'.objects s.next = some new ∧ new.range.size = bytes ∧
      (∀ n, n * size ≤ a.range.size → n * size ≤ bytes →
        Cells.read new.cells 0 n = Cells.read a.cells 0 n) ∧
      ∀ i b, i ≠ d → s.objects i = some b → s'.objects i = some b := by
  simp only [realloc, h]
  cases answer with
  | none => exact Or.inl rfl
  | some g =>
    by_cases hadmits : s.Admits (some d) ⟨g.start, bytes⟩
    · refine Or.inr ⟨_, _, dif_pos hadmits, hadmits.2.1,
        objects_replace_next hadmits, rfl, fun n hold hnew => ?_, fun i b hne hi => ?_⟩
      · apply Cells.read_congr
        intro k _ hk
        have hle : (k + 1) * size ≤ n * size := Nat.mul_le_mul_right _ (by omega)
        exact if_pos (by omega)
      · exact objects_replace_of_some hadmits hi (by simpa using hne)
    · exact Or.inl (dif_neg hadmits)

/-- A call keeps the objects that it does not change. -/
theorem objects_call {c : Call α} (h : s.call size c = .ok s') (hi : s.objects i = some a)
    (hne : c.target ≠ some i) : s'.objects i = some a := by
  cases c with
  | malloc bytes answer =>
    obtain rfl := Except.ok.inj h
    rcases s.malloc_cases bytes answer with hm | ⟨s', new, hm, -, -, -, hkeep⟩
    · rwa [hm]
    · rw [hm]
      exact hkeep i a hi
  | free d =>
    have hid : i ≠ d := fun hid => hne (congrArg some hid.symm)
    rw [call, free] at h
    cases hd : s.objects d with
    | none =>
      simp only [hd] at h
      cases h
    | some b =>
      simp only [hd] at h
      rw [← Except.ok.inj h, objects_remove_of_ne hid, hi]
  | write p xs =>
    have hid : i ≠ p.object := fun hid => hne (congrArg some hid.symm)
    rw [call, write] at h
    cases hd : s.objects p.object with
    | none =>
      simp only [hd] at h
      cases h
    | some b =>
      simp only [hd] at h
      split at h
      · rw [← Except.ok.inj h, objects_fill_of_ne hid, hi]
      · cases h

/-- Elements of two objects have different addresses. -/
theorem address_apart {p q : Pointer} {b : Object α} {n m : Nat}
    (hp : s.objects p.object = some a) (hq : s.objects q.object = some b)
    (hne : p.object ≠ q.object) (hple : (p.index + n) * size ≤ a.range.size)
    (hqle : (q.index + m) * size ≤ b.range.size) :
    a.range.start + p.index * size + n * size ≤ b.range.start + q.index * size ∨
      b.range.start + q.index * size + m * size ≤ a.range.start + p.index * size := by
  have hdisj := s.apart _ _ _ _ hp hq hne
  rw [Nat.add_mul] at hple hqle
  rcases hdisj with h | h
  · left
    unfold Block.stop at h
    omega
  · right
    unfold Block.stop at h
    omega

end Rules

end Store

end Toolkit
