import CanonC.Toolkit.Store

/-!
# What a store holds besides some objects

A component that owns some objects leaves the store otherwise as it is: what the store holds
besides the objects that the component owns stays the same while they are written, grow or
move. When everything owned has been given back, the store holds what it held at first.
-/

namespace Toolkit.Store

variable {α : Type*} {limit size : Nat} {s s' : Store limit α} {own own' : List Nat}

/-- The objects that are there besides those with the given names. -/
def besides (s : Store limit α) (own : List Nat) (i : Nat) : Option (Object α) :=
  if i ∈ own then none else s.objects i

/-- Which names are given matters, not their order. -/
theorem besides_congr (s : Store limit α) (h : ∀ i, i ∈ own ↔ i ∈ own') :
    s.besides own = s.besides own' := by
  funext i
  simp only [besides, h i]

/-- A write to an object of the owner is not seen besides. -/
theorem besides_fill {d : Nat} {cells : Nat → α} (hd : d ∈ own) :
    (s.fill d cells).besides own = s.besides own := by
  funext i
  unfold besides
  split
  next => rfl
  next hi => exact objects_fill_of_ne (ne_of_mem_of_not_mem hd hi).symm

/-- A new object in place of an old one. -/
theorem besides_replace {old : Option Nat} {new : Object α} (h : s.Admits old new.range)
    (own : List Nat) :
    (s.replace old new h).besides (s.next :: own) = s.besides (old.toList ++ own) := by
  funext i
  change (if i ∈ s.next :: own then none else s.replaced old new i) =
    if i ∈ old.toList ++ own then none else s.objects i
  simp only [List.mem_cons, List.mem_append, Option.mem_toList, replaced]
  by_cases hnext : i = s.next
  · rw [if_pos (Or.inl hnext)]
    split
    · rfl
    · exact (s.fresh i (by omega)).symm
  · rw [if_neg hnext]
    by_cases hown : i ∈ own
    · rw [if_pos (Or.inr hown), if_pos (Or.inr hown)]
    · rw [if_neg (by simp [hnext, hown])]
      by_cases hold : old = some i
      · rw [if_pos hold.symm, if_pos (Or.inl hold)]
      · rw [if_neg (Ne.symm hold), if_neg (by simp [hold, hown])]

/-- A release takes away the object that it is given. -/
theorem besides_free {d : Option Nat} (h : s.free d = .ok s') (own : List Nat) :
    s'.besides own = s.besides (d.toList ++ own) := by
  cases d with
  | none =>
    obtain rfl := Except.ok.inj h
    rfl
  | some d =>
    simp only [free] at h
    split at h
    · cases h
    · obtain rfl := Except.ok.inj h
      funext i
      change (if i ∈ own then none else if i = d then none else s.objects i) =
        if i ∈ d :: own then none else s.objects i
      simp only [List.mem_cons]
      by_cases hid : i = d
      · rw [if_pos (Or.inl hid), if_pos hid, ite_self]
      · simp only [hid, if_false, false_or]

/-- An owner has exchanged its objects for others, and nothing else is new or gone. -/
def Conserves (s s' : Store limit α) (old new : List Nat) : Prop :=
  ∀ own, s'.besides (new ++ own) = s.besides (old ++ own)

/-- Where nothing is done nothing is exchanged. -/
theorem Conserves.refl (s : Store limit α) (own : List Nat) : s.Conserves s own own := fun _ => rfl

/-- Two exchanges one after the other. -/
theorem Conserves.trans {s'' : Store limit α} {a b c : List Nat} (h : s.Conserves s' a b)
    (h' : s'.Conserves s'' b c) : s.Conserves s'' a c :=
  fun own => (h' own).trans (h own)

/-- What the owner keeps beside the exchanged objects. -/
theorem Conserves.append {a b : List Nat} (h : s.Conserves s' a b) (more : List Nat) :
    s.Conserves s' (a ++ more) (b ++ more) := by
  intro own
  rw [List.append_assoc, List.append_assoc]
  exact h (more ++ own)

/-- The order of the objects does not matter. -/
theorem conserves_swap (s : Store limit α) (a b : List Nat) : s.Conserves s (a ++ b) (b ++ a) := by
  intro own
  apply besides_congr
  intro i
  simp only [List.mem_append, or_comm]

/-- What the owner keeps in front of the exchanged objects. -/
theorem Conserves.append_left {a b : List Nat} (h : s.Conserves s' a b) (more : List Nat) :
    s.Conserves s' (more ++ a) (more ++ b) :=
  (conserves_swap s more a).trans ((h.append more).trans (conserves_swap s' b more))

/-- A write to an object of the owner. -/
theorem conserves_write {p : Pointer} {xs : List α} (h : s.write size p xs = .ok s')
    (hp : p.object ∈ own) : s.Conserves s' own own := by
  intro more
  unfold write at h
  split at h
  · cases h
  · split at h
    · obtain rfl := Except.ok.inj h
      exact besides_fill (List.mem_append_left _ hp)
    · cases h

/-- A move of elements to an object of the owner. -/
theorem conserves_move {dest src : Pointer} {n : Nat} (h : s.move size dest src n = .ok s')
    (hp : dest.object ∈ own) : s.Conserves s' own own := by
  unfold move at h
  cases hread : s.read size src n with
  | error e =>
    rw [hread] at h
    cases h
  | ok xs =>
    rw [hread] at h
    exact conserves_write h hp

/-- A release by the owner. -/
theorem conserves_free {d : Option Nat} (h : s.free d = .ok s') : s.Conserves s' d.toList [] :=
  besides_free h

/-- An allocation was refused and changed nothing, or the owner has the object that it returned
in place of the old one. -/
def Granted (s s' : Store limit α) (old d : Option Nat) : Prop :=
  (d = none ∧ s' = s) ∨ (d ≠ none ∧ s.Conserves s' old.toList d.toList)

/-- A refusal has changed nothing. -/
theorem Granted.eq_of_refused {old : Option Nat} (h : s.Granted s' old none) : s' = s := by
  rcases h with ⟨-, heq⟩ | ⟨hne, -⟩
  · exact heq
  · exact absurd rfl hne

/-- An allocation that is granted exchanges the old object for the new one. -/
theorem Granted.conserves {old : Option Nat} {d : Nat} (h : s.Granted s' old (some d)) :
    s.Conserves s' old.toList [d] := by
  rcases h with ⟨hnone, -⟩ | ⟨-, hcons⟩
  · cases hnone
  · exact hcons

/-- `malloc` exchanges no object for the one it returns. -/
theorem granted_malloc {bytes : Nat} {answer : Option (Grant α)} {d : Option Nat}
    (h : s.malloc bytes answer = (s', d)) : s.Granted s' none d := by
  unfold malloc at h
  split at h
  · obtain ⟨rfl, rfl⟩ := Prod.mk.inj h
    exact Or.inl ⟨rfl, rfl⟩
  · split at h
    next hadmits =>
      obtain ⟨rfl, rfl⟩ := Prod.mk.inj h
      exact Or.inr ⟨Option.some_ne_none _, besides_replace hadmits⟩
    next =>
      obtain ⟨rfl, rfl⟩ := Prod.mk.inj h
      exact Or.inl ⟨rfl, rfl⟩

/-- A new object joins what the owner has. -/
theorem conserves_malloc {bytes : Nat} {answer : Option (Grant α)} {d : Option Nat}
    (h : s.malloc bytes answer = (s', d)) (own : List Nat) :
    s.Conserves s' own (own ++ d.toList) := by
  rcases granted_malloc h with ⟨rfl, rfl⟩ | ⟨-, hnew⟩
  · rw [Option.toList_none, List.append_nil]
    exact Conserves.refl _ own
  · have hmade := hnew.append_left own
    rwa [Option.toList_none, List.append_nil] at hmade

/-- `realloc` exchanges the object it is given for the one it returns. -/
theorem granted_realloc {old d : Option Nat} {bytes : Nat} {answer : Option (Grant α)}
    (h : Store.realloc size s old bytes answer = .ok (s', d)) : s.Granted s' old d := by
  cases old with
  | none => exact granted_malloc (Except.ok.inj h)
  | some old =>
    simp only [realloc] at h
    split at h
    · cases h
    · split at h
      · obtain ⟨rfl, rfl⟩ := Prod.mk.inj (Except.ok.inj h)
        exact Or.inl ⟨rfl, rfl⟩
      · split at h
        next hadmits =>
          obtain ⟨rfl, rfl⟩ := Prod.mk.inj (Except.ok.inj h)
          exact Or.inr ⟨Option.some_ne_none _, besides_replace hadmits⟩
        next =>
          obtain ⟨rfl, rfl⟩ := Prod.mk.inj (Except.ok.inj h)
          exact Or.inl ⟨rfl, rfl⟩

end Toolkit.Store
