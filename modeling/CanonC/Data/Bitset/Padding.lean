import CanonC.Data.Bitset.Positions

/-!
# Which calls keep the padding zero

Every mutator but one keeps the bits past the capacity zero, whatever its operand.
`bitset_or` copies them from a longer operand: it keeps the padding exactly when the
operand has no member between the capacity and the end of the word array.
-/

namespace CanonC

namespace Bitset

variable {bs other : Bitset} {i : Nat}

/-- A fresh bitset is padded. -/
theorem padded_init {words : Option (Nat → BitVec 64)} {capacity : Nat}
    (h : bitsetInit words capacity = .ok bs) : bs.Padded := by
  cases words with
  | none => simp [bitsetInit] at h
  | some words =>
    simp only [bitsetInit] at h
    split at h
    · split at h
      · obtain rfl := Except.ok.inj h
        intro i _ hlt
        simp only [bit, bitsetFill] at hlt ⊢
        rw [if_pos (by omega)]
        exact BitVec.getLsbD_zero
      · cases h
    · cases h

/-- A single-bit call changes no padding bit. -/
theorem Padded.modify {msg : String} {f : BitVec 64 → BitVec 64 → BitVec 64}
    {g : Bool → Bool → Bool}
    (hf : ∀ x m : BitVec 64, ∀ k < 64, (f x m).getLsbD k = g (x.getLsbD k) (m.getLsbD k))
    (hg : ∀ b, g b false = b) {bs' : Bitset} (hbs : bs.Padded)
    (h : bitsetModify msg f bs i = .ok bs') : bs'.Padded := by
  intro j hj hlt
  rw [bit_modify hf hg h]
  obtain ⟨hi, rfl⟩ := modify_eq_ok.mp h
  have hne : j ≠ i := by
    rintro rfl
    exact absurd hi (Nat.not_lt.mpr hj)
  rw [decide_eq_false hne, hg]
  exact hbs j hj hlt

/-- Setting a bit keeps the padding clear. -/
theorem Padded.set {bs' : Bitset} (hbs : bs.Padded) (h : bitsetSet bs i = .ok bs') :
    bs'.Padded :=
  hbs.modify (fun _ _ _ _ => BitVec.getLsbD_or) Bool.or_false h

/-- Clearing a bit keeps the padding clear. -/
theorem Padded.clear {bs' : Bitset} (hbs : bs.Padded) (h : bitsetClear bs i = .ok bs') :
    bs'.Padded :=
  hbs.modify (g := fun b m => b && !m) getLsbD_and_not Bool.and_true h

/-- Toggling a bit keeps the padding clear. -/
theorem Padded.toggle {bs' : Bitset} (hbs : bs.Padded) (h : bitsetToggle bs i = .ok bs') :
    bs'.Padded :=
  hbs.modify (fun _ _ _ _ => BitVec.getLsbD_xor) Bool.xor_false h

/-- Clearing all bits clears the padding. -/
theorem padded_clearAll (bs : Bitset) : (bitsetClearAll bs).Padded :=
  fun _ _ hlt => bit_fill (fun _ _ => BitVec.getLsbD_zero) hlt

/-- Setting all bits clears the padding behind them. -/
theorem padded_setAll (bs : Bitset) : (bitsetSetAll bs).Padded := padded_clearPadding _

/-- The complement clears the padding. -/
theorem padded_not (bs : Bitset) : (bitsetNot bs).Padded := padded_clearPadding _

/-- The symmetric difference clears the padding. -/
theorem padded_xor (bs other : Bitset) : (bitsetXor bs other).Padded := padded_clearPadding _

/-- Conjunction keeps the padding for every operand. -/
theorem Padded.and (hbs : bs.Padded) (other : Bitset) : (bitsetAnd bs other).Padded := by
  intro i hi hlt
  have hb : bs.bit i = false := hbs i hi hlt
  have hlt' : i < 64 * bs.wordCount := hlt
  rw [bit_and hlt', hb, Bool.false_and]

/-- Disjunction keeps the padding exactly when the operand has no member in it. -/
theorem Padded.or_iff (hbs : bs.Padded) (hother : other.Padded) :
    (bitsetOr bs other).Padded ↔ ∀ i, bs.capacity ≤ i → i < 64 * bs.wordCount →
      i < other.capacity → other.bit i = false := by
  have hbound := other.capacity_bounds.1
  constructor
  · intro h i hi hlt ho
    have hz := h i hi hlt
    rw [bit_or, if_pos ⟨hlt, by omega⟩, hbs i hi hlt, Bool.false_or] at hz
    exact hz
  · intro h i hi hlt
    have hb : bs.bit i = false := hbs i hi hlt
    rw [bit_or, hb]
    split
    · rename_i hw
      rw [Bool.false_or]
      by_cases ho : i < other.capacity
      · exact h i hi hlt ho
      · exact hother i (Nat.le_of_not_lt ho) hw.2
    · rfl

end Bitset

variable {ι : Type*}

/-- Every bitset of the collection is padded. -/
def AllPadded (sets : ι → Bitset) : Prop := ∀ t, (sets t).Padded

/-- The operand of a disjunction has no member between the target's capacity and the
end of the target's word array. -/
def OrFits (sets : ι → Bitset) : BitsetOp ι → Prop
  | .or t other => ∀ i, (sets t).capacity ≤ i → i < 64 * (sets t).wordCount →
      i < (sets other).capacity → (sets other).bit i = false
  | _ => True

/-- What a call leaves in its target is padded exactly when the call is not a
disjunction that reaches into the padding. -/
theorem apply_padded_iff {sets : ι → Bitset} (hsets : AllPadded sets) {op : BitsetOp ι}
    {bs : Bitset} (h : op.apply sets = .ok bs) : bs.Padded ↔ OrFits sets op := by
  cases op with
  | set t i => exact iff_of_true ((hsets t).set h) trivial
  | clear t i => exact iff_of_true ((hsets t).clear h) trivial
  | toggle t i => exact iff_of_true ((hsets t).toggle h) trivial
  | assign t i value =>
    cases value with
    | true => exact iff_of_true ((hsets t).set h) trivial
    | false => exact iff_of_true ((hsets t).clear h) trivial
  | setAll t =>
    obtain rfl := Except.ok.inj h
    exact iff_of_true (Bitset.padded_setAll _) trivial
  | clearAll t =>
    obtain rfl := Except.ok.inj h
    exact iff_of_true (Bitset.padded_clearAll _) trivial
  | not t =>
    obtain rfl := Except.ok.inj h
    exact iff_of_true (Bitset.padded_not _) trivial
  | and t other =>
    obtain rfl := Except.ok.inj h
    exact iff_of_true ((hsets t).and _) trivial
  | or t other =>
    obtain rfl := Except.ok.inj h
    exact (hsets t).or_iff (hsets other)
  | xor t other =>
    obtain rfl := Except.ok.inj h
    exact iff_of_true (Bitset.padded_xor _ _) trivial

variable [DecidableEq ι]

/-- One call keeps the collection padded exactly when it is not a disjunction that
reaches into the padding. -/
theorem bitsetStep_padded_iff {sets sets' : ι → Bitset} {op : BitsetOp ι} {o : Unit}
    (hsets : AllPadded sets) (h : bitsetStep sets op = .ok (o, sets')) :
    AllPadded sets' ↔ OrFits sets op := by
  unfold bitsetStep at h
  cases hop : op.apply sets with
  | error msg => simp [hop] at h
  | ok bs =>
    simp only [hop, Except.ok.injEq, Prod.mk.injEq, true_and] at h
    subst h
    rw [← apply_padded_iff hsets hop]
    constructor
    · intro hall
      have ht := hall op.target
      rwa [Function.update_self] at ht
    · intro hbs t
      by_cases ht : t = op.target
      · rw [ht, Function.update_self]
        exact hbs
      · rw [Function.update_of_ne ht]
        exact hsets t

/-- Along every run from fresh bitsets, the bits past every capacity stay zero exactly
as long as no disjunction reaches into the padding of its target. -/
theorem bitset_padding_iff {sets : ι → Bitset}
    (hinit : ∀ t, ∃ words capacity, bitsetInit words capacity = .ok (sets t))
    (ops : List (BitsetOp ι)) :
    Toolkit.Always bitsetStep AllPadded sets ops ↔ Toolkit.Meets bitsetStep OrFits sets ops := by
  apply Toolkit.always_iff_meets fun s op o s' hs h => bitsetStep_padded_iff hs h
  intro t
  obtain ⟨words, capacity, h⟩ := hinit t
  exact Bitset.padded_init h

/-- A word of the shorter set merged into the longer one stays inside it. -/
theorem bitset_padding_iff_or_into_longer : ∃ sets : Bool → Bitset,
    bitsetInit (some fun _ => 7) 70 = .ok (sets true) ∧
    bitsetInit (some fun _ => 9) 64 = .ok (sets false) ∧
    Toolkit.Always bitsetStep AllPadded sets [.set false 63, .or true false, .not true] := by
  refine ⟨fun t => if t then ⟨_, 70, _, by decide, by decide, rfl⟩
    else ⟨_, 64, _, by decide, by decide, rfl⟩, rfl, rfl, ?_⟩
  apply (bitset_padding_iff ?_ _).mpr
  · intro o s h
    refine ⟨trivial, ?_⟩
    obtain rfl := (Prod.mk.inj (Except.ok.inj h)).2
    intro o' s' h'
    refine ⟨?_, fun _ _ _ => ⟨trivial, trivial⟩⟩
    intro i hlo _ hhi
    exact absurd (Nat.lt_of_le_of_lt hlo hhi) (by decide)
  · intro t
    cases t with
    | true => exact ⟨some fun _ => 7, 70, rfl⟩
    | false => exact ⟨some fun _ => 9, 64, rfl⟩

/-- Bit 63 of a 64-bit set ends up in the padding of a 1-bit set. -/
theorem bitsetOr_breaks_padding : ∃ sets : Bool → Bitset,
    bitsetInit (some fun _ => 0) 64 = .ok (sets true) ∧
    bitsetInit (some fun _ => 0) 1 = .ok (sets false) ∧
    ¬ Toolkit.Always bitsetStep AllPadded sets [.set true 63, .or false true] := by
  refine ⟨fun t => if t then ⟨_, 64, _, by decide, by decide, rfl⟩
    else ⟨_, 1, _, by decide, by decide, rfl⟩, rfl, rfl, ?_⟩
  intro h
  have hpad : AllPadded _ := (h.2 _ _ rfl).2 _ _ rfl
  have hbit := hpad false 63 (by decide) (by decide)
  exact absurd hbit (by decide)

end CanonC
