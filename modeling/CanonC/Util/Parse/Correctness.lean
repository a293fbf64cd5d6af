import CanonC.Util.Parse.Grammar

/-!
# What the parsers accept

A parser returns the value of the longest integer in front of the string when it is in range,
with the end of that integer, and an error with the start of the string otherwise.
-/

namespace CanonC

open Toolkit

/-- The text and the value of the longest word of a language in front of a text. -/
structure Leading {V : Type} (L : List UInt8 → V → Prop) (s t : List UInt8) (v : V) : Prop where
  munch : Munch (Words L) s t
  value : L t v

/-- A language that gives a text one value has one word in front of a text. -/
theorem Leading.unique {V : Type} {L : List UInt8 → V → Prop} {s t u : List UInt8} {v w : V}
    (ht : Leading L s t v) (hL : ∀ t v w, L t v → L t w → v = w) (hu : Leading L s u w) :
    t = u ∧ v = w := by
  obtain rfl := ht.munch.unique hu.munch
  exact ⟨rfl, hL t v w ht.value hu.value⟩

/-- Where no hexadecimal number begins the text, the first digit tells the base. -/
theorem leading_plainNumber {s : List UInt8}
    (hhex : ∀ x ds, isHexMark x → ds ≠ [] → (∀ d ∈ ds, isDigit 16 d) →
      ¬ ascii '0' :: x :: ds <+: s) (hne : (plainNumber s).1 ≠ []) :
    Leading Magnitude s (plainNumber s).1 (plainNumber s).2 := by
  by_cases hzero : s.head? = some (ascii '0')
  · obtain ⟨rest, rfl⟩ := List.head?_eq_some_iff.mp hzero
    rw [plainNumber_zero]
    refine ⟨munch_octal ?_, .octal fun d hd => List.mem_takeWhile_imp hd⟩
    intro x ds hx hds hall hstart
    exact hhex x ds hx hds hall (List.cons_prefix_cons.mpr ⟨rfl, hstart⟩)
  · rw [plainNumber_of_ne hzero] at hne ⊢
    exact ⟨munch_decimal hzero hne, magnitude_decimal hzero hne⟩

/-- The number the library takes is the longest one in front of the text. -/
theorem leading_leadingNumber {s : List UInt8} (hne : (leadingNumber s).1 ≠ []) :
    Leading Magnitude s (leadingNumber s).1 (leadingNumber s).2 := by
  match s with
  | [] => exact absurd rfl hne
  | [z] =>
    refine leading_plainNumber ?_ hne
    intro x ds _ _ _ hstart
    have hlen := hstart.length_le
    simp only [List.length_cons, List.length_nil] at hlen
    omega
  | z :: x :: s =>
    rw [leadingNumber] at hne ⊢
    split at hne
    next h =>
      obtain ⟨rfl, hx, hds⟩ := h
      rw [if_pos ⟨rfl, hx, hds⟩]
      exact ⟨munch_hexadecimal hx hds, .hexadecimal hx hds fun d hd => List.mem_takeWhile_imp hd⟩
    next h =>
      rw [if_neg h]
      refine leading_plainNumber ?_ hne
      intro y ds hy hds hall hstart
      obtain ⟨hz, htail⟩ := List.cons_prefix_cons.mp hstart
      obtain ⟨hx, htail⟩ := List.cons_prefix_cons.mp htail
      refine h ⟨hz.symm, hx ▸ hy, ?_⟩
      intro hnil
      have hle := (munch_takeWhile (isDigit 16) s).longest ds htail hall
      rw [hnil] at hle
      exact hds (List.eq_nil_of_length_eq_zero (Nat.le_zero.mp hle))

/-- A digit in front of the text begins a number. -/
theorem leadingNumber_ne_nil {d : UInt8} (hd : isDigit 10 d) (s : List UInt8) :
    (leadingNumber (d :: s)).1 ≠ [] := by
  have hplain : ∀ s, (plainNumber (d :: s)).1 ≠ [] := by
    intro s
    by_cases hzero : (d :: s).head? = some (ascii '0')
    · obtain ⟨rfl⟩ := Option.some.inj hzero
      rw [plainNumber_zero]
      exact List.cons_ne_nil _ _
    · rw [plainNumber_of_ne hzero, List.takeWhile_cons_of_pos hd]
      exact List.cons_ne_nil _ _
  cases s with
  | nil => exact hplain []
  | cons x s =>
    rw [leadingNumber]
    split
    · exact List.cons_ne_nil _ _
    · exact hplain _

/-- Where the library takes no number the text begins with none. -/
theorem not_magnitude_of_nil {s u : List UInt8} {n : Nat} (hnil : (leadingNumber s).1 = [])
    (hu : u <+: s) : ¬ Magnitude u n := by
  intro hn
  obtain ⟨d, ds, rfl, hd⟩ := hn.head
  obtain ⟨rest, rfl⟩ := hu
  exact leadingNumber_ne_nil hd _ hnil

/-- A text begins with a sign or with none. -/
theorem sign_or_unsigned (s : List UInt8) :
    (∃ c rest, s = c :: rest ∧ IsSign c) ∨ ∀ c ∈ s.head?, ¬ IsSign c := by
  cases s with
  | nil => exact Or.inr fun c hc => nomatch hc
  | cons c rest =>
    by_cases hc : IsSign c
    · exact Or.inl ⟨c, rest, rfl, hc⟩
    · exact Or.inr fun d hd => Option.some.inj hd ▸ hc

/-- The subject at a sign is the sign and the number behind it. -/
theorem leadingSubject_sign {c : UInt8} (hc : IsSign c) (s : List UInt8) :
    leadingSubject (c :: s) =
      if (leadingNumber s).1 = [] then ([], false, 0)
      else (c :: (leadingNumber s).1, decide (c = ascii '-'), (leadingNumber s).2) := by
  have hsign : leadingSign (c :: s) = [c] := if_pos hc
  simp only [leadingSubject, hsign, List.length_singleton, List.drop_succ_cons, List.drop_zero,
    List.singleton_append, List.cons.injEq, and_true]

/-- The subject at no sign is the number. -/
theorem leadingSubject_unsigned {s : List UInt8} (hs : ∀ c ∈ s.head?, ¬ IsSign c) :
    leadingSubject s =
      if (leadingNumber s).1 = [] then ([], false, 0)
      else ((leadingNumber s).1, false, (leadingNumber s).2) := by
  have hsign : leadingSign s = [] := by
    cases s with
    | nil => rfl
    | cons c s => exact if_neg (hs c rfl)
  simp only [leadingSubject, hsign, List.length_nil, List.drop_zero, List.nil_append]
  rfl

/-- The subject is the longest integer in front of the text. -/
theorem leading_leadingSubject {s : List UInt8} (hne : (leadingSubject s).1 ≠ []) :
    Leading Literal s (leadingSubject s).1
      (signedValue (leadingSubject s).2.1 (leadingSubject s).2.2) := by
  rcases sign_or_unsigned s with ⟨c, rest, rfl, hc⟩ | hs
  · rw [leadingSubject_sign hc] at hne ⊢
    have hnumber : (leadingNumber rest).1 ≠ [] := fun hnil => hne (by rw [if_pos hnil])
    rw [if_neg hnumber]
    have hlead := leading_leadingNumber hnumber
    have hvalue := hlead.value.signed hc
    refine ⟨(hlead.munch.cons c).congr ⟨_, hvalue⟩ ?_, hvalue⟩
    rintro u hu ⟨v, hv⟩
    obtain ⟨t, n, rfl, hn, -⟩ := hv.behind_sign hc hu
    exact Or.inl ⟨t, rfl, n, hn⟩
  · rw [leadingSubject_unsigned hs] at hne ⊢
    have hnumber : (leadingNumber s).1 ≠ [] := fun hnil => hne (by rw [if_pos hnil])
    rw [if_neg hnumber]
    have hlead := leading_leadingNumber hnumber
    have hvalue := Literal.plain hlead.value
    refine ⟨hlead.munch.congr ⟨_, hvalue⟩ ?_, hvalue⟩
    rintro u hu ⟨v, hv⟩
    obtain ⟨n, hn, -⟩ := hv.unsigned hs hu
    exact Or.inl ⟨n, hn⟩

/-- Where there is no subject the text begins with no integer. -/
theorem not_literal_of_nil {s u : List UInt8} {v : Int} (hnil : (leadingSubject s).1 = [])
    (hu : u <+: s) : ¬ Literal u v := by
  intro hv
  rcases sign_or_unsigned s with ⟨c, rest, rfl, hc⟩ | hs
  · obtain ⟨t, n, rfl, hn, -⟩ := hv.behind_sign hc hu
    rw [leadingSubject_sign hc] at hnil
    split at hnil
    next hnumber => exact not_magnitude_of_nil hnumber (List.cons_prefix_cons.mp hu).2 hn
    next => cases hnil
  · obtain ⟨n, hn, -⟩ := hv.unsigned hs hu
    rw [leadingSubject_unsigned hs] at hnil
    split at hnil
    next hnumber => exact not_magnitude_of_nil hnumber hu hn
    next hnumber => exact hnumber hnil

/-- The subject of a text that begins with an integer. -/
theorem leadingSubject_of_leading {s t : List UInt8} {v : Int} (h : Leading Literal s t v) :
    t ≠ [] ∧ ∃ negative n, leadingSubject s = (t, negative, n) ∧ signedValue negative n = v := by
  have hne : (leadingSubject s).1 ≠ [] := fun hnil => not_literal_of_nil hnil h.munch.start h.value
  have hone : ∀ t v w, Literal t v → Literal t w → v = w := fun _ _ _ hv hw => hv.unique hw
  obtain ⟨ht, hv⟩ := (leading_leadingSubject hne).unique hone h
  exact ⟨ht ▸ hne, (leadingSubject s).2.1, (leadingSubject s).2.2, by rw [← ht], hv⟩

/-- The subject of a text that begins with no integer. -/
theorem leadingSubject_of_none {s : List UInt8} (h : ∀ t v, ¬ Leading Literal s t v) :
    (leadingSubject s).1 = [] := by
  by_contra hne
  exact h _ _ (leading_leadingSubject hne)

/-- No white space to skip. -/
theorem takeWhile_isSpace {s : List UInt8} (hs : ∀ c ∈ s.head?, ¬ isSpace c) :
    s.takeWhile isSpace = [] := by
  cases s with
  | nil => rfl
  | cons c s => exact List.takeWhile_cons_of_neg (hs c rfl)

/-- Whether a value is an `i64`. -/
def IsI64 (v : Int) : Prop := i64Min ≤ v ∧ v ≤ i64Max

instance (v : Int) : Decidable (IsI64 v) := inferInstanceAs (Decidable (_ ∧ _))

/-- `strtoll` converts the integer in front of the text and clamps what is out of range. -/
theorem strtoll_of_leading {s t : List UInt8} {v : Int} (hs : ∀ c ∈ s.head?, ¬ isSpace c)
    (h : Leading Literal s t v) :
    (strtoll s).eptr = t.length ∧ ((strtoll s).erange ↔ ¬ IsI64 v) ∧
      (IsI64 v → (strtoll s).value = v) := by
  obtain ⟨hne, negative, n, hsubject, hv⟩ := leadingSubject_of_leading h
  simp only [strtoll, takeWhile_isSpace hs, List.length_nil, List.drop_zero, Nat.zero_add,
    hsubject, if_neg hne]
  rw [signedValue] at hv
  simp only [hv, IsI64]
  split
  next hlow => exact ⟨rfl, iff_of_true rfl (by omega), fun hin => absurd hin.1 (by omega)⟩
  next hlow =>
    split
    next hhigh => exact ⟨rfl, iff_of_true rfl (by omega), fun hin => absurd hin.2 (by omega)⟩
    next hhigh => exact ⟨rfl, iff_of_false nofun (by omega), fun _ => rfl⟩

/-- `strtoll` of no integer. -/
theorem strtoll_of_none {s : List UInt8} (hs : ∀ c ∈ s.head?, ¬ isSpace c)
    (h : ∀ t v, ¬ Leading Literal s t v) : (strtoll s).eptr = 0 := by
  have hnil := leadingSubject_of_none h
  simp only [strtoll, takeWhile_isSpace hs, List.length_nil, List.drop_zero, if_pos hnil]

/-- The first byte of a string is its terminator exactly when it is empty. -/
theorem readElem_object_zero (s : CString) : readElem s.object 0 = .ok (s.bytes.head?.getD 0) := by
  rw [CString.object]
  cases s.bytes <;> rfl

/-- The result of a parser of a language, with the values in range it accepts. -/
def Outcome (L : List UInt8 → Int → Prop) (inRange : Int → Prop) (s : List UInt8)
    (endptr : Bool) (r : Except Error Int × Option Nat) : Prop :=
  (∃ t v, Leading L s t v ∧ inRange v ∧ r = (.ok v, storeEnd endptr t.length)) ∨
    (∀ t v, Leading L s t v → ¬ inRange v) ∧ r = (.error .parseFailed, storeEnd endptr 0)

/-- A parser is known by what it does at a word and where there is none. -/
theorem outcome_iff {L : List UInt8 → Int → Prop} (hL : ∀ t v w, L t v → L t w → v = w)
    {inRange : Int → Prop} [DecidablePred inRange] {s : List UInt8} {endptr : Bool}
    {run : Except String (Except Error Int × Option Nat)}
    (hlead : ∀ t v, Leading L s t v → run =
      if inRange v then .ok (.ok v, storeEnd endptr t.length)
      else .ok (.error .parseFailed, storeEnd endptr 0))
    (hnone : (∀ t v, ¬ Leading L s t v) → run = .ok (.error .parseFailed, storeEnd endptr 0))
    (r : Except Error Int × Option Nat) : run = .ok r ↔ Outcome L inRange s endptr r := by
  by_cases hword : ∃ t v, Leading L s t v
  · obtain ⟨t, v, hword⟩ := hword
    rw [hlead t v hword, Outcome]
    by_cases hin : inRange v
    · rw [if_pos hin, Except.ok.injEq]
      constructor
      · rintro rfl
        exact Or.inl ⟨t, v, hword, hin, rfl⟩
      · rintro (⟨u, w, hu, -, rfl⟩ | ⟨hout, -⟩)
        · obtain ⟨rfl, rfl⟩ := hword.unique hL hu
          rfl
        · exact absurd hin (hout t v hword)
    · rw [if_neg hin, Except.ok.injEq]
      constructor
      · rintro rfl
        refine Or.inr ⟨?_, rfl⟩
        intro u w hu
        obtain ⟨-, rfl⟩ := hword.unique hL hu
        exact hin
      · rintro (⟨u, w, hu, hw, -⟩ | ⟨-, rfl⟩)
        · obtain ⟨-, rfl⟩ := hword.unique hL hu
          exact absurd hw hin
        · rfl
  · have hno : ∀ t v, ¬ Leading L s t v := fun t v h => hword ⟨t, v, h⟩
    rw [hnone hno, Outcome, Except.ok.injEq]
    constructor
    · rintro rfl
      exact Or.inr ⟨fun t v h => absurd h (hno t v), rfl⟩
    · rintro (⟨t, v, h, -⟩ | ⟨-, rfl⟩)
      · exact absurd h (hno t v)
      · rfl

/-- The checks in front of a conversion pass at an integer. -/
theorem Leading.first {s : CString} {t : List UInt8} {v : Int} (h : Leading Literal s.bytes t v) :
    ∃ c, s.bytes.head? = some c ∧ ¬ (c = 0 ∨ parseIsWs c) ∧ ∀ d ∈ s.bytes.head?, ¬ isSpace d := by
  obtain ⟨c, cs, rfl, hc⟩ := h.value.head
  obtain ⟨rest, hrest⟩ := h.munch.start
  have hhead : s.bytes.head? = some c := by rw [← hrest]; rfl
  refine ⟨c, hhead, ?_, fun d hd => ?_⟩
  · rintro (hzero | hws)
    · exact s.noTerminator c (List.mem_of_head? hhead) hzero
    · exact not_isSpace hc (parseIsWs_eq c ▸ hws)
  · rw [hhead] at hd
    exact Option.some.inj hd ▸ not_isSpace hc

/-- A literal in front has a character at least. -/
theorem Leading.length_ne_zero {s t : List UInt8} {v : Int} (h : Leading Literal s t v) :
    t.length ≠ 0 := by
  obtain ⟨c, cs, rfl, -⟩ := h.value.head
  exact Nat.succ_ne_zero _

/-- The value of the literal in front, where it is an `i64`. -/
theorem parseI64_of_leading {s : CString} {t : List UInt8} {v : Int}
    (h : Leading Literal s.bytes t v) (endptr : Bool) :
    parseI64 (some s) endptr =
      if IsI64 v then .ok (.ok v, storeEnd endptr t.length)
      else .ok (.error .parseFailed, storeEnd endptr 0) := by
  obtain ⟨c, hhead, hgo, hspace⟩ := h.first
  obtain ⟨heptr, herange, hvalue⟩ := strtoll_of_leading hspace h
  simp only [parseI64, readElem_object_zero, hhead, Option.getD_some, ok_bind, if_neg hgo, heptr]
  by_cases hin : IsI64 v
  · rw [if_pos hin, hvalue hin,
      if_neg (not_or_intro h.length_ne_zero fun he => herange.mp he hin)]
  · rw [if_neg hin, if_pos (Or.inr (herange.mpr hin))]

/-- Without a literal in front nothing is parsed. -/
theorem parseI64_of_none {s : CString} (h : ∀ t v, ¬ Leading Literal s.bytes t v)
    (endptr : Bool) :
    parseI64 (some s) endptr = .ok (.error .parseFailed, storeEnd endptr 0) := by
  simp only [parseI64, readElem_object_zero, ok_bind]
  split
  next => rfl
  next hgo =>
    have hspace : ∀ d ∈ s.bytes.head?, ¬ isSpace d := by
      intro d hd hws
      rw [hd, Option.getD_some, parseIsWs_eq] at hgo
      exact hgo (Or.inr hws)
    rw [strtoll_of_none hspace h, if_pos (Or.inl rfl)]

/-- `parse_i64` returns the value of the longest integer in front of the string where it is in
range, with the end of the integer, and an error with the start of the string otherwise. -/
theorem parseI64_outcome (s : CString) (endptr : Bool) (r : Except Error Int × Option Nat) :
    parseI64 (some s) endptr = .ok r ↔ Outcome Literal IsI64 s.bytes endptr r :=
  outcome_iff (fun _ _ _ hv hw => hv.unique hw) (fun _ _ h => parseI64_of_leading h endptr)
    (fun h => parseI64_of_none h endptr) r

/-- A literal without a minus sign is not negative. -/
theorem UnsignedLiteral.nonneg {t : List UInt8} {v : Int} (h : UnsignedLiteral t v) : 0 ≤ v := by
  obtain ⟨hv, hhead⟩ := h
  cases hv with
  | plain hn => exact Int.natCast_nonneg _
  | plus hn => exact Int.natCast_nonneg _
  | minus hn => exact absurd rfl hhead

/-- A text without a minus begins with the same integers. -/
theorem leading_unsigned {s t : List UInt8} {v : Int} (hs : s.head? ≠ some (ascii '-')) :
    Leading UnsignedLiteral s t v ↔ Leading Literal s t v := by
  have hhead : ∀ u w, u <+: s → Literal u w → u.head? ≠ some (ascii '-') := by
    intro u w hu hw hminus
    obtain ⟨c, cs, rfl, -⟩ := hw.head
    obtain ⟨rest, rfl⟩ := hu
    exact hs hminus
  constructor
  · intro h
    refine ⟨h.munch.congr ⟨v, h.value.1⟩ ?_, h.value.1⟩
    rintro u hu ⟨w, hw⟩
    exact Or.inl ⟨w, hw, hhead u w hu hw⟩
  · intro h
    have hvalue : UnsignedLiteral t v := ⟨h.value, hhead t v h.munch.start h.value⟩
    refine ⟨h.munch.congr ⟨v, hvalue⟩ ?_, hvalue⟩
    rintro u hu ⟨w, hw⟩
    exact Or.inl ⟨w, hw.1⟩

/-- A minus begins no unsigned integer. -/
theorem not_leading_unsigned {s t : List UInt8} {v : Int} (hs : s.head? = some (ascii '-')) :
    ¬ Leading UnsignedLiteral s t v := by
  intro h
  obtain ⟨c, cs, rfl, -⟩ := h.value.1.head
  obtain ⟨rest, rfl⟩ := h.munch.start
  exact h.value.2 hs

/-- `strtoull` converts the integer in front of the text and reports one that is too large. -/
theorem strtoull_of_leading {s t : List UInt8} {v : Int} (hs : ∀ c ∈ s.head?, ¬ isSpace c)
    (h : Leading Literal s t v) (hv : 0 ≤ v) :
    (strtoull s).eptr = t.length ∧ ((strtoull s).erange ↔ ¬ v ≤ u64Max) ∧
      (v ≤ u64Max → (strtoull s).value = v) := by
  obtain ⟨hne, negative, n, hsubject, hvalue⟩ := leadingSubject_of_leading h
  simp only [strtoull, takeWhile_isSpace hs, List.length_nil, List.drop_zero, Nat.zero_add,
    hsubject, if_neg hne]
  have hn : (n : Int) = v := by
    rw [signedValue] at hvalue
    split at hvalue <;> omega
  rw [signedValue] at hvalue
  rw [hvalue]
  simp only [hn]
  split
  next hhigh => exact ⟨rfl, iff_of_true rfl (by omega), fun hin => absurd hin (by omega)⟩
  next hhigh =>
    exact ⟨rfl, iff_of_false nofun (by omega), fun _ => Int.emod_eq_of_lt hv (by omega)⟩

/-- `strtoull` of no integer. -/
theorem strtoull_of_none {s : List UInt8} (hs : ∀ c ∈ s.head?, ¬ isSpace c)
    (h : ∀ t v, ¬ Leading Literal s t v) : (strtoull s).eptr = 0 := by
  have hnil := leadingSubject_of_none h
  simp only [strtoull, takeWhile_isSpace hs, List.length_nil, List.drop_zero, if_pos hnil]

/-- The value of the unsigned literal in front, where it is a `u64`. -/
theorem parseU64_of_leading {s : CString} {t : List UInt8} {v : Int}
    (h : Leading UnsignedLiteral s.bytes t v) (endptr : Bool) :
    parseU64 (some s) endptr =
      if v ≤ u64Max then .ok (.ok v, storeEnd endptr t.length)
      else .ok (.error .parseFailed, storeEnd endptr 0) := by
  have hminus : s.bytes.head? ≠ some (ascii '-') := fun hs => not_leading_unsigned hs h
  have hlead := (leading_unsigned hminus).mp h
  obtain ⟨c, hhead, hgo, hspace⟩ := hlead.first
  have hcm : c ≠ ascii '-' := fun he => hminus (he ▸ hhead)
  obtain ⟨heptr, herange, hvalue⟩ := strtoull_of_leading hspace hlead h.value.nonneg
  simp only [parseU64, readElem_object_zero, hhead, Option.getD_some, ok_bind, if_neg hgo,
    if_neg hcm, heptr]
  by_cases hin : v ≤ u64Max
  · rw [if_pos hin, hvalue hin,
      if_neg (not_or_intro hlead.length_ne_zero fun he => herange.mp he hin)]
  · rw [if_neg hin, if_pos (Or.inr (herange.mpr hin))]

/-- Without an unsigned literal in front nothing is parsed. -/
theorem parseU64_of_none {s : CString} (h : ∀ t v, ¬ Leading UnsignedLiteral s.bytes t v)
    (endptr : Bool) :
    parseU64 (some s) endptr = .ok (.error .parseFailed, storeEnd endptr 0) := by
  simp only [parseU64, readElem_object_zero, ok_bind]
  split
  next => rfl
  next hgo =>
    split
    next => rfl
    next hcm =>
      have hspace : ∀ d ∈ s.bytes.head?, ¬ isSpace d := by
        intro d hd hws
        rw [hd, Option.getD_some, parseIsWs_eq] at hgo
        exact hgo (Or.inr hws)
      have hminus : s.bytes.head? ≠ some (ascii '-') := by
        intro hs
        rw [hs] at hcm
        exact hcm rfl
      have hnone : ∀ t v, ¬ Leading Literal s.bytes t v :=
        fun t v ht => h t v ((leading_unsigned hminus).mpr ht)
      rw [strtoull_of_none hspace hnone, if_pos (Or.inl rfl)]

/-- `parse_u64` does the same for the integers without a minus. -/
theorem parseU64_outcome (s : CString) (endptr : Bool) (r : Except Error Int × Option Nat) :
    parseU64 (some s) endptr = .ok r ↔ Outcome UnsignedLiteral (· ≤ u64Max) s.bytes endptr r :=
  outcome_iff (fun _ _ _ hv hw => hv.1.unique hw.1) (fun _ _ h => parseU64_of_leading h endptr)
    (fun h => parseU64_of_none h endptr) r

end CanonC
