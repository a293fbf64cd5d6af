import CanonC.Toolkit.Munch
import CanonC.Util.Parse.Model

/-!
# The grammar of the numbers

An integer is an optional sign in front of a decimal, an octal or a hexadecimal number. What
the conversions of the C library take is the longest integer in front of the text, so a call
that parses a number has stopped exactly where the number ends.
-/

namespace CanonC

open Toolkit

/-- The unsigned numbers of C and the values they write. -/
inductive Magnitude : List UInt8 → Nat → Prop
  | octal {ds : List UInt8} (hds : ∀ d ∈ ds, isDigit 8 d) :
      Magnitude (ascii '0' :: ds) (digitsValue 8 ds)
  | decimal {d : UInt8} {ds : List UInt8} (hd : d ≠ ascii '0')
      (hds : ∀ c ∈ d :: ds, isDigit 10 c) : Magnitude (d :: ds) (digitsValue 10 (d :: ds))
  | hexadecimal {x : UInt8} {ds : List UInt8} (hx : isHexMark x) (hne : ds ≠ [])
      (hds : ∀ d ∈ ds, isDigit 16 d) :
      Magnitude (ascii '0' :: x :: ds) (digitsValue 16 ds)

/-- The integers of C and the values they write. -/
inductive Literal : List UInt8 → Int → Prop
  | plain {t : List UInt8} {n : Nat} (h : Magnitude t n) : Literal t n
  | plus {t : List UInt8} {n : Nat} (h : Magnitude t n) : Literal (ascii '+' :: t) n
  | minus {t : List UInt8} {n : Nat} (h : Magnitude t n) : Literal (ascii '-' :: t) (-n)

/-- The integers that no minus stands in front of. -/
def UnsignedLiteral (t : List UInt8) (v : Int) : Prop :=
  Literal t v ∧ t.head? ≠ some (ascii '-')

/-- The texts a relation gives a value. -/
def Words {V : Type} (L : List UInt8 → V → Prop) (t : List UInt8) : Prop := ∃ v, L t v

/-- The decimal digits as bytes. -/
theorem isDigit_ten {c : UInt8} : isDigit 10 c ↔ 48 ≤ c.toNat ∧ c.toNat ≤ 57 := by
  have hzero : ascii '0' ≤ c ↔ 48 ≤ c.toNat := UInt8.le_iff_toNat_le
  have hnine : c ≤ ascii '9' ↔ c.toNat ≤ 57 := UInt8.le_iff_toNat_le
  simp only [isDigit, digitValue, hzero, hnine]
  split
  next h => simpa using by omega
  next h =>
    -- The letters stand for ten and more.
    split
    next => simp; omega
    next =>
      split
      next => simp; omega
      next => simpa using by omega

/-- The white space as bytes. -/
theorem isSpace_iff {c : UInt8} : isSpace c ↔ c.toNat = 32 ∨ 9 ≤ c.toNat ∧ c.toNat ≤ 13 := by
  rw [isSpace, Bool.or_eq_true, decide_eq_true_eq, Bool.and_eq_true, decide_eq_true_eq,
    decide_eq_true_eq, ← UInt8.toNat_inj, UInt8.le_iff_toNat_le, UInt8.le_iff_toNat_le]
  rfl

/-- The white space of the library is what the string library skips. -/
theorem parseIsWs_eq (c : UInt8) : parseIsWs c = isSpace c := by
  rw [Bool.eq_iff_iff, isSpace_iff]
  simp only [parseIsWs, Bool.or_eq_true, decide_eq_true_eq, ← UInt8.toNat_inj]
  change ((((c.toNat = 32 ∨ c.toNat = 9) ∨ c.toNat = 10) ∨ c.toNat = 13) ∨ c.toNat = 12) ∨
    c.toNat = 11 ↔ c.toNat = 32 ∨ 9 ≤ c.toNat ∧ c.toNat ≤ 13
  omega

/-- A byte that passes for a digit of a base passes for a digit of a larger one. -/
theorem isDigit_mono {base base' : Nat} (h : base ≤ base') {c : UInt8} (hc : isDigit base c) :
    isDigit base' c := by
  simp only [isDigit, Option.any_eq_true, decide_eq_true_eq] at hc ⊢
  obtain ⟨d, hd, hlt⟩ := hc
  exact ⟨d, hd, hlt.trans_le h⟩

/-- A zero in front does not change the value. -/
theorem digitsValue_cons_zero (base : Nat) (ds : List UInt8) :
    digitsValue base (ascii '0' :: ds) = digitsValue base ds := by
  have hzero : 0 * base + (digitValue (ascii '0')).getD 0 = 0 := by
    rw [Nat.zero_mul]
    rfl
  rw [digitsValue, List.foldl_cons, hzero, digitsValue]

/-- The mark of a hexadecimal number is no digit of a smaller base. -/
theorem not_isDigit_hexMark {base : Nat} {x : UInt8} (hbase : base ≤ 10) (hx : isHexMark x) :
    ¬ isDigit base x := by
  intro hd
  have hten := isDigit_mono hbase hd
  simp only [isHexMark, Bool.or_eq_true, decide_eq_true_eq] at hx
  rcases hx with rfl | rfl <;> cases hten

/-- A number begins with a decimal digit. -/
theorem Magnitude.head {t : List UInt8} {n : Nat} (h : Magnitude t n) :
    ∃ d ds, t = d :: ds ∧ isDigit 10 d := by
  cases h with
  | @octal ds _ => exact ⟨ascii '0', ds, rfl, rfl⟩
  | @decimal d ds _ hds => exact ⟨d, ds, rfl, hds d List.mem_cons_self⟩
  | @hexadecimal x ds _ _ _ => exact ⟨ascii '0', x :: ds, rfl, rfl⟩

/-- A number writes one value. -/
theorem Magnitude.unique {t : List UInt8} {n m : Nat} (hn : Magnitude t n) (hm : Magnitude t m) :
    n = m := by
  cases hn with
  | octal hds =>
    cases hm with
    | octal => rfl
    | decimal hd => exact absurd rfl hd
    | hexadecimal hx => exact absurd (hds _ List.mem_cons_self) (not_isDigit_hexMark (by decide) hx)
  | decimal hd hds =>
    cases hm with
    | octal => exact absurd rfl hd
    | decimal => rfl
    | hexadecimal => exact absurd rfl hd
  | hexadecimal hx hne hds =>
    cases hm with
    | octal hds' => exact absurd (hds' _ List.mem_cons_self) (not_isDigit_hexMark (by decide) hx)
    | decimal hd => exact absurd rfl hd
    | hexadecimal => rfl

/-- The bytes that are signs. -/
def IsSign (c : UInt8) : Prop := c = ascii '+' ∨ c = ascii '-'

instance (c : UInt8) : Decidable (IsSign c) := inferInstanceAs (Decidable (_ ∨ _))

/-- A sign is no digit. -/
theorem IsSign.not_digit {c : UInt8} (hc : IsSign c) : ¬ isDigit 10 c := by
  rcases hc with rfl | rfl <;> decide

/-- The integer a sign and a magnitude write. -/
def signedValue (negative : Bool) (n : Nat) : Int := if negative then -n else n

/-- No white space is a digit or a sign. -/
theorem not_isSpace {c : UInt8} (h : isDigit 10 c ∨ IsSign c) : ¬ isSpace c := by
  rw [isSpace_iff]
  rcases h with hd | rfl | rfl
  · have hrange := isDigit_ten.mp hd
    omega
  · decide
  · decide

/-- An integer writes one value. -/
theorem Literal.unique {t : List UInt8} {v w : Int} (hv : Literal t v) (hw : Literal t w) :
    v = w := by
  have hplus : ∀ {t n}, ¬ Magnitude (ascii '+' :: t) n := by
    intro t n h
    obtain ⟨d, ds, hcons, hd⟩ := h.head
    obtain ⟨rfl, -⟩ := List.cons.inj hcons
    exact IsSign.not_digit (Or.inl rfl) hd
  have hminus : ∀ {t n}, ¬ Magnitude (ascii '-' :: t) n := by
    intro t n h
    obtain ⟨d, ds, hcons, hd⟩ := h.head
    obtain ⟨rfl, -⟩ := List.cons.inj hcons
    exact IsSign.not_digit (Or.inr rfl) hd
  cases hv with
  | plain hn =>
    cases hw with
    | plain hm => rw [hn.unique hm]
    | plus => exact absurd hn hplus
    | minus => exact absurd hn hminus
  | plus hn =>
    cases hw with
    | plain hm => exact absurd hm hplus
    | plus hm => rw [hn.unique hm]
  | minus hn =>
    cases hw with
    | plain hm => exact absurd hm hminus
    | minus hm => rw [hn.unique hm]

/-- An integer at a sign has its number behind the sign. -/
theorem Literal.behind_sign {c : UInt8} {s u : List UInt8} {v : Int} (h : Literal u v)
    (hc : IsSign c) (hu : u <+: c :: s) :
    ∃ t n, u = c :: t ∧ Magnitude t n ∧ v = signedValue (c = ascii '-') n := by
  cases h with
  | plain hn =>
    obtain ⟨d, ds, rfl, hd⟩ := hn.head
    rw [(List.cons_prefix_cons.mp hu).1] at hd
    exact absurd hd hc.not_digit
  | plus hn =>
    obtain ⟨rfl, -⟩ := List.cons_prefix_cons.mp hu
    exact ⟨_, _, rfl, hn, rfl⟩
  | minus hn =>
    obtain ⟨rfl, -⟩ := List.cons_prefix_cons.mp hu
    exact ⟨_, _, rfl, hn, rfl⟩

/-- An integer begins with a digit or a sign. -/
theorem Literal.head {t : List UInt8} {v : Int} (h : Literal t v) :
    ∃ c cs, t = c :: cs ∧ (isDigit 10 c ∨ IsSign c) := by
  cases h with
  | plain hn =>
    obtain ⟨d, ds, rfl, hd⟩ := hn.head
    exact ⟨d, ds, rfl, Or.inl hd⟩
  | plus => exact ⟨_, _, rfl, Or.inr (Or.inl rfl)⟩
  | minus => exact ⟨_, _, rfl, Or.inr (Or.inr rfl)⟩

/-- A number behind a sign is an integer. -/
theorem Magnitude.signed {c : UInt8} {t : List UInt8} {n : Nat} (h : Magnitude t n)
    (hc : IsSign c) : Literal (c :: t) (signedValue (c = ascii '-') n) := by
  rcases hc with rfl | rfl
  · exact .plus h
  · exact .minus h

/-- An integer at no sign is a number. -/
theorem Literal.unsigned {s u : List UInt8} {v : Int} (h : Literal u v)
    (hs : ∀ c ∈ s.head?, ¬ IsSign c) (hu : u <+: s) : ∃ n : Nat, Magnitude u n ∧ v = n := by
  have hhead : ∀ {c t}, c :: t <+: s → ¬ IsSign c := by
    rintro c t ⟨rest, rfl⟩
    exact hs c rfl
  cases h with
  | plain hn => exact ⟨_, hn, rfl⟩
  | plus => exact absurd (Or.inl rfl) (hhead hu)
  | minus => exact absurd (Or.inr rfl) (hhead hu)

/-- Behind a zero the digits are octal. -/
theorem plainNumber_zero (s : List UInt8) :
    plainNumber (ascii '0' :: s) = (ascii '0' :: s.takeWhile (isDigit 8),
      digitsValue 8 (s.takeWhile (isDigit 8))) := by
  have hzero : isDigit 8 (ascii '0') = true := rfl
  simp only [plainNumber, List.head?_cons, if_true, List.takeWhile_cons_of_pos hzero,
    digitsValue_cons_zero]

/-- Without a zero in front the digits are decimal. -/
theorem plainNumber_of_ne {s : List UInt8} (h : s.head? ≠ some (ascii '0')) :
    plainNumber s = (s.takeWhile (isDigit 10), digitsValue 10 (s.takeWhile (isDigit 10))) := by
  simp only [plainNumber, if_neg h]

/-- The octal number in front of a text that no hexadecimal number begins. -/
theorem munch_octal {s : List UInt8}
    (h : ∀ x ds, isHexMark x → ds ≠ [] → (∀ d ∈ ds, isDigit 16 d) → ¬ x :: ds <+: s) :
    Munch (Words Magnitude) (ascii '0' :: s) (ascii '0' :: s.takeWhile (isDigit 8)) := by
  have hdigits := (munch_takeWhile (isDigit 8) s).cons (ascii '0')
  refine hdigits.congr ⟨_, .octal fun d hd => List.mem_takeWhile_imp hd⟩ ?_
  rintro u hu ⟨n, hn⟩
  cases hn with
  | octal hds => exact Or.inl ⟨_, rfl, hds⟩
  | decimal hd =>
    rw [List.cons_prefix_cons] at hu
    exact absurd hu.1 hd
  | @hexadecimal x ds hx hne hds =>
    rw [List.cons_prefix_cons] at hu
    exact absurd hu.2 (h x ds hx hne hds)

/-- The hexadecimal number in front of a text. -/
theorem munch_hexadecimal {x : UInt8} {s : List UInt8} (hx : isHexMark x)
    (hne : s.takeWhile (isDigit 16) ≠ []) :
    Munch (Words Magnitude) (ascii '0' :: x :: s)
      (ascii '0' :: x :: s.takeWhile (isDigit 16)) := by
  have hdigits := ((munch_takeWhile (isDigit 16) s).cons x).cons (ascii '0')
  refine hdigits.congr ⟨_, .hexadecimal hx hne fun d hd => List.mem_takeWhile_imp hd⟩ ?_
  rintro u hu ⟨n, hn⟩
  cases hn with
  | @octal ds hds =>
    -- An octal digit cannot be the mark, so the digits end at the first one.
    cases ds with
    | nil => exact Or.inr (by simp)
    | cons d ds =>
      rw [List.cons_prefix_cons, List.cons_prefix_cons] at hu
      have hd := hds d List.mem_cons_self
      rw [hu.2.1] at hd
      exact absurd hd (not_isDigit_hexMark (by decide) hx)
  | decimal hd =>
    rw [List.cons_prefix_cons] at hu
    exact absurd hu.1 hd
  | @hexadecimal y ds _ _ hds =>
    rw [List.cons_prefix_cons, List.cons_prefix_cons] at hu
    exact Or.inl ⟨_, rfl, ds, by rw [hu.2.1], hds⟩

/-- Digits behind no zero are a decimal number. -/
theorem magnitude_decimal {s : List UInt8} (h : s.head? ≠ some (ascii '0'))
    (hne : s.takeWhile (isDigit 10) ≠ []) :
    Magnitude (s.takeWhile (isDigit 10)) (digitsValue 10 (s.takeWhile (isDigit 10))) := by
  have hall : ∀ c ∈ s.takeWhile (isDigit 10), isDigit 10 c := fun c hc => List.mem_takeWhile_imp hc
  obtain ⟨d, ds, hcons⟩ := List.exists_cons_of_ne_nil hne
  have hhead : d ≠ ascii '0' := by
    rintro rfl
    obtain ⟨rest, hrest⟩ := List.takeWhile_prefix (isDigit 10) (l := s)
    rw [hcons] at hrest
    exact h (by rw [← hrest]; rfl)
  rw [hcons] at hall ⊢
  exact .decimal hhead hall

/-- The decimal number in front of a text. -/
theorem munch_decimal {s : List UInt8} (h : s.head? ≠ some (ascii '0'))
    (hne : s.takeWhile (isDigit 10) ≠ []) :
    Munch (Words Magnitude) s (s.takeWhile (isDigit 10)) := by
  refine (munch_takeWhile (isDigit 10) s).congr ⟨_, magnitude_decimal h hne⟩ ?_
  rintro u hu ⟨n, hn⟩
  have hzero : ∀ ds, ¬ ascii '0' :: ds <+: s := by
    rintro ds ⟨rest, hrest⟩
    exact h (by rw [← hrest]; rfl)
  cases hn with
  | octal => exact absurd hu (hzero _)
  | decimal _ hds => exact Or.inl hds
  | hexadecimal => exact absurd hu (hzero _)

end CanonC
