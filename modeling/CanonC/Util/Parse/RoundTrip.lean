import CanonC.Util.Parse.Correctness

/-!
# Reading back printed numbers

A printed number is an integer of the grammar, so parsing recovers it. The header gives two
ways to use the end of a number: to go on with the next one behind white space, and to check
that nothing but white space follows.
-/

namespace CanonC

open Toolkit

/-- The string at a pointer into a string. -/
def CString.drop (s : CString) (n : Nat) : CString where
  bytes := s.bytes.drop n
  noTerminator := fun b hb => s.noTerminator b (List.mem_of_mem_drop hb)
  length_lt := by
    have hlen := s.length_lt
    rw [List.length_drop]
    omega

/-- What is left of a string behind its first bytes. -/
theorem CString.bytes_drop {s : CString} {t rest : List UInt8} (h : s.bytes = t ++ rest) :
    (s.drop t.length).bytes = rest := by
  change s.bytes.drop t.length = rest
  rw [h, List.drop_left]

/-- The chained parsing of the header: as many numbers as asked for, each behind white space,
up to the first error. -/
def parseChain : Nat → CString → Except String (List Int × CString)
  | 0, s => .ok ([], s)
  | n + 1, s => do
    let p ← parseSkipWs (some s)
    let s := s.drop (p.getD 0)
    let (r, e) ← parseI64 (some s) true
    match r with
    | .ok v => do
      let (vs, s) ← parseChain n (s.drop (e.getD 0))
      .ok (v :: vs, s)
    | .error _ => .ok ([], s)

/-- The full string validation of the header. -/
def wholeNumber (s : CString) : Except String (Option Int) := do
  let (r, e) ← parseI64 (some s) true
  match r with
  | .ok v => do
    let rest := s.drop (e.getD 0)
    let p ← parseSkipWs (some rest)
    let c ← readElem rest.object (p.getD 0)
    .ok (if c = 0 then some v else none)
  | .error _ => .ok none

/-- The bytes of the integers. -/
def isNumberByte (c : UInt8) : Bool := isDigit 16 c || isHexMark c || IsSign c

/-- A magnitude is made of the bytes of numbers. -/
theorem Magnitude.bytes {t : List UInt8} {n : Nat} (h : Magnitude t n) :
    ∀ c ∈ t, isNumberByte c := by
  have hdigit : ∀ {base c}, base ≤ 16 → isDigit base c → isNumberByte c := by
    intro base c hbase hc
    rw [isNumberByte, isDigit_mono hbase hc]
    rfl
  have hzero : isNumberByte (ascii '0') := rfl
  cases h with
  | octal hds =>
    exact List.forall_mem_cons.mpr ⟨hzero, fun c hc => hdigit (by decide) (hds c hc)⟩
  | decimal _ hds => exact fun c hc => hdigit (by decide) (hds c hc)
  | @hexadecimal x ds hx _ hds =>
    have hmark : isNumberByte x := by
      rw [isNumberByte, hx, Bool.or_true, Bool.true_or]
    exact List.forall_mem_cons.mpr ⟨hzero, List.forall_mem_cons.mpr
      ⟨hmark, fun c hc => hdigit le_rfl (hds c hc)⟩⟩

/-- Every byte of an integer belongs to the alphabet. -/
theorem Literal.bytes {t : List UInt8} {v : Int} (h : Literal t v) : ∀ c ∈ t, isNumberByte c := by
  cases h with
  | plain hn => exact hn.bytes
  | plus hn => exact List.forall_mem_cons.mpr ⟨rfl, hn.bytes⟩
  | minus hn => exact List.forall_mem_cons.mpr ⟨rfl, hn.bytes⟩

/-- White space belongs to no integer. -/
theorem isNumberByte_of_space {c : UInt8} (hc : parseIsWs c) : isNumberByte c = false := by
  rw [parseIsWs_eq, isSpace_iff] at hc
  have hbyte : ∀ {k : Nat}, k < 256 → c.toNat = k → c = UInt8.ofNat k := by
    intro k hk hck
    rw [← UInt8.toNat_inj, hck, UInt8.toNat_ofNat_of_lt' hk]
  have hcases : c.toNat = 32 ∨ c.toNat = 9 ∨ c.toNat = 10 ∨ c.toNat = 11 ∨ c.toNat = 12 ∨
      c.toNat = 13 := by omega
  rcases hcases with h | h | h | h | h | h <;> rw [hbyte (by decide) h] <;> rfl

/-- An integer is the longest one in front of a text that goes on with none of its bytes. -/
theorem leading_append {t rest : List UInt8} {v : Int} (h : Literal t v)
    (hrest : ∀ c ∈ rest.head?, isNumberByte c = false) : Leading Literal (t ++ rest) t v where
  munch := munch_append ⟨v, h⟩ (fun _ hu => hu.choose_spec.bytes) hrest
  value := h

/-- A string goes on behind the white space in front of it with its terminator, exactly when
nothing else follows, or with another byte. -/
theorem object_behind_space (s : CString) :
    ∃ c post, s.object = s.bytes.takeWhile parseIsWs ++ c :: post ∧ parseIsWs c = false ∧
      (c = 0 ↔ ∀ b ∈ s.bytes, parseIsWs b) := by
  have hsplit := List.takeWhile_append_dropWhile (p := parseIsWs) (l := s.bytes)
  cases hrest : s.bytes.dropWhile parseIsWs with
  | nil =>
    rw [hrest, List.append_nil] at hsplit
    refine ⟨0, [], by rw [hsplit]; rfl, rfl, iff_of_true rfl ?_⟩
    rwa [← List.takeWhile_eq_self_iff]
  | cons c post =>
    have hhead := List.head?_dropWhile_not parseIsWs s.bytes
    rw [hrest] at hsplit hhead
    have hmem : c ∈ s.bytes := by
      rw [← hsplit]
      exact List.mem_append_right _ List.mem_cons_self
    refine ⟨c, post ++ [0], ?_, hhead, iff_of_false (s.noTerminator c hmem) ?_⟩
    · rw [CString.object, ← List.cons_append, ← List.append_assoc, hsplit]
    · intro hall
      exact absurd (hall c hmem) (Bool.eq_false_iff.mp hhead)

/-- `parse_skip_ws` passes the white space in front of the string. -/
theorem parseSkipWs_eq (s : CString) :
    parseSkipWs (some s) = .ok (some (s.bytes.takeWhile parseIsWs).length) := by
  let test : UInt8 → Bool := fun c => decide (c ≠ 0 ∧ parseIsWs c)
  have hpass : ∀ c ∈ s.bytes.takeWhile parseIsWs, test c = true := by
    intro c hc
    have hmem := (List.takeWhile_prefix parseIsWs).subset hc
    exact decide_eq_true ⟨s.noTerminator c hmem, List.mem_takeWhile_imp hc⟩
  obtain ⟨c, post, hobject, hc, -⟩ := object_behind_space s
  have hstop : test c = false := decide_eq_false fun h => absurd h.2 (by rw [hc]; decide)
  have hscan : scanWhile test s.object ([] : List UInt8).length = _ :=
    scanWhile_append (by rw [List.nil_append]; exact hobject) hpass hstop
  rw [parseSkipWs, show scanWhile test s.object 0 = _ from hscan, ok_bind, List.nil_append]

/-- The byte behind the white space, the terminator exactly when nothing else follows. -/
theorem readElem_behind_space (s : CString) :
    ∃ c, readElem s.object (s.bytes.takeWhile parseIsWs).length = .ok c ∧
      (c = 0 ↔ ∀ b ∈ s.bytes, parseIsWs b) := by
  obtain ⟨c, post, hobject, -, hc⟩ := object_behind_space s
  exact ⟨c, by rw [hobject]; exact readElem_append rfl, hc⟩

/-- The digit of a value below ten. -/
theorem digitValue_digitChar {d : Nat} (hd : d < 10) :
    digitValue (ascii d.digitChar) = some d := by
  revert d
  decide

/-- One more digit at the end. -/
theorem digitsValue_append (base : Nat) (ds : List UInt8) (d : UInt8) :
    digitsValue base (ds ++ [d]) = digitsValue base ds * base + (digitValue d).getD 0 := by
  rw [digitsValue, List.foldl_append, List.foldl_cons, List.foldl_nil, digitsValue]

/-- The last digit of a printed number comes off its end. -/
theorem decimal_of_ten_le {n : Nat} (h : 10 ≤ n) :
    decimal n = decimal (n / 10) ++ [ascii (n % 10).digitChar] := by
  rw [decimal, Nat.toDigits_of_base_le (by decide) h, List.map_append]
  rfl

/-- A number below ten is one digit. -/
theorem decimal_of_lt_ten {n : Nat} (h : n < 10) : decimal n = [ascii n.digitChar] := by
  rw [decimal, Nat.toDigits_of_lt_base h]
  rfl

/-- The digits of a printed number are decimal, write the number, and begin with no zero unless
the number is zero. -/
theorem decimal_spec (n : Nat) :
    (∀ c ∈ decimal n, isDigit 10 c) ∧ digitsValue 10 (decimal n) = n ∧
      (0 < n → (decimal n).head? ≠ some (ascii '0')) := by
  induction n using Nat.strongRecOn with
  | ind n ih =>
    rcases Nat.lt_or_ge n 10 with hlt | hge
    · have hvalue := digitValue_digitChar hlt
      rw [decimal_of_lt_ten hlt]
      refine ⟨?_, ?_, ?_⟩
      · intro c hc
        rw [List.mem_singleton.mp hc, isDigit, hvalue]
        exact decide_eq_true hlt
      · rw [digitsValue, List.foldl_cons, List.foldl_nil, hvalue, Nat.zero_mul, Nat.zero_add]
        rfl
      · intro hpos hzero
        rw [Option.some.inj hzero] at hvalue
        exact hpos.ne (Option.some.inj hvalue)
    · obtain ⟨hdigits, hvalue, hhead⟩ := ih (n / 10) (by omega)
      have hlast : n % 10 < 10 := Nat.mod_lt n (by decide)
      rw [decimal_of_ten_le hge]
      refine ⟨?_, ?_, ?_⟩
      · intro c hc
        rcases List.mem_append.mp hc with hmem | hmem
        · exact hdigits c hmem
        · rw [List.mem_singleton.mp hmem, isDigit, digitValue_digitChar hlast]
          exact decide_eq_true hlast
      · rw [digitsValue_append, hvalue, digitValue_digitChar hlast]
        exact Nat.div_add_mod' n 10
      · intro _
        have hne : decimal (n / 10) ≠ [] := by
          rw [decimal, ne_eq, List.map_eq_nil_iff]
          exact Nat.toDigits_ne_nil
        rw [List.head?_append_of_ne_nil _ hne]
        exact hhead (by omega)

/-- The digits of a number are its magnitude. -/
theorem magnitude_of_decimal (n : Nat) : Magnitude (decimal n) n := by
  obtain ⟨hdigits, hvalue, hhead⟩ := decimal_spec n
  rcases Nat.eq_zero_or_pos n with rfl | hpos
  · exact .octal fun c hc => nomatch hc
  · cases hcons : decimal n with
    | nil =>
      rw [hcons] at hvalue
      exact absurd hvalue hpos.ne
    | cons d ds =>
      rw [hcons] at hdigits hhead hvalue
      have hzero : d ≠ ascii '0' := fun he => hhead hpos (congrArg some he)
      have hmag := Magnitude.decimal hzero hdigits
      rwa [hvalue] at hmag

/-- A printed number is an integer of the grammar with its value. -/
theorem literal_signedDecimal (v : Int) : Literal (signedDecimal v) v := by
  rw [signedDecimal]
  split
  next hneg =>
    have hlit := Literal.minus (magnitude_of_decimal v.natAbs)
    rwa [show -(v.natAbs : Int) = v by omega] at hlit
  next hpos =>
    have hlit := Literal.plain (magnitude_of_decimal v.natAbs)
    rwa [show (v.natAbs : Int) = v by omega] at hlit

/-- What follows the white space in front of a text of an integer. -/
theorem takeWhile_space {ws t rest : List UInt8} {v : Int} (hws : ∀ c ∈ ws, parseIsWs c)
    (ht : Literal t v) : (ws ++ (t ++ rest)).takeWhile parseIsWs = ws := by
  obtain ⟨c, cs, rfl, hc⟩ := ht.head
  rw [List.takeWhile_append_of_pos hws, List.cons_append, List.takeWhile_cons_of_neg,
    List.append_nil]
  rw [parseIsWs_eq]
  exact not_isSpace hc

/-- The text of numbers, each behind its white space. -/
def printNumbers : List (List UInt8 × Int) → List UInt8
  | [] => []
  | (ws, v) :: numbers => ws ++ (signedDecimal v ++ printNumbers numbers)

/-- Numbers in range, each behind white space, and behind some where one stands in front. -/
inductive Separated : List (List UInt8 × Int) → Prop
  | nil : Separated []
  | single {ws : List UInt8} {v : Int} (hws : ∀ c ∈ ws, parseIsWs c) (hv : IsI64 v) :
      Separated [(ws, v)]
  | cons {ws us : List UInt8} {v w : Int} {numbers : List (List UInt8 × Int)}
      (hws : ∀ c ∈ ws, parseIsWs c) (hv : IsI64 v) (hus : us ≠ [])
      (h : Separated ((us, w) :: numbers)) : Separated ((ws, v) :: (us, w) :: numbers)

/-- What separates numbers is white space. -/
theorem Separated.space {ws : List UInt8} {v : Int} {numbers : List (List UInt8 × Int)}
    (h : Separated ((ws, v) :: numbers)) : ∀ c ∈ ws, parseIsWs c := by
  cases h with
  | single hws => exact hws
  | cons hws => exact hws

/-- One round of chained parsing at a number. -/
theorem parseChain_step {s : CString} {ws t rest : List UInt8} {v : Int}
    (hws : ∀ c ∈ ws, parseIsWs c) (ht : Literal t v) (hv : IsI64 v)
    (hrest : ∀ c ∈ rest.head?, isNumberByte c = false) (hs : s.bytes = ws ++ (t ++ rest))
    (n : Nat) :
    ∃ s', s'.bytes = rest ∧ parseChain (n + 1) s =
      parseChain n s' >>= fun r => .ok (v :: r.1, r.2) := by
  have hskip : parseSkipWs (some s) = .ok (some ws.length) := by
    rw [parseSkipWs_eq, hs, takeWhile_space hws ht]
  have hbytes : (s.drop ws.length).bytes = t ++ rest := CString.bytes_drop hs
  have hlead : Leading Literal (s.drop ws.length).bytes t v := hbytes ▸ leading_append ht hrest
  refine ⟨(s.drop ws.length).drop t.length, CString.bytes_drop hbytes, ?_⟩
  rw [parseChain, hskip, ok_bind]
  simp only [Option.getD_some, parseI64_of_leading hlead, if_pos hv, ok_bind, storeEnd, if_true]

/-- Chained parsing recovers printed numbers and stops behind them. -/
theorem parseChain_printNumbers {numbers : List (List UInt8 × Int)} (h : Separated numbers)
    {rest : List UInt8} (hrest : ∀ c ∈ rest.head?, isNumberByte c = false) {s : CString}
    (hs : s.bytes = printNumbers numbers ++ rest) :
    ∃ s', parseChain numbers.length s = .ok (numbers.map Prod.snd, s') ∧ s'.bytes = rest := by
  induction h generalizing s with
  | nil => exact ⟨s, rfl, hs⟩
  | @single ws v hws hv =>
    rw [printNumbers, printNumbers, List.append_nil, List.append_assoc] at hs
    obtain ⟨s', hbytes, hstep⟩ :=
      parseChain_step hws (literal_signedDecimal v) hv hrest hs 0
    exact ⟨s', by rw [List.length_singleton, hstep, parseChain, ok_bind]; rfl, hbytes⟩
  | @cons ws us v w numbers hws hv hus h ih =>
    -- The white space of the next number ends this one.
    have hnext : ∀ c ∈ (printNumbers ((us, w) :: numbers) ++ rest).head?,
        isNumberByte c = false := by
      intro c hc
      rw [printNumbers, List.append_assoc, List.head?_append_of_ne_nil _ hus] at hc
      exact isNumberByte_of_space (h.space c (List.mem_of_head? hc))
    rw [printNumbers, List.append_assoc, List.append_assoc] at hs
    obtain ⟨s₁, hbytes, hstep⟩ :=
      parseChain_step hws (literal_signedDecimal v) hv hnext hs ((us, w) :: numbers).length
    obtain ⟨s₂, hchain, hend⟩ := ih hbytes
    exact ⟨s₂, by rw [List.length_cons, hstep, hchain, ok_bind]; rfl, hend⟩

/-- The full string validation accepts exactly the integers in range with white space behind
them, and never reads outside the string. -/
theorem wholeNumber_spec (s : CString) :
    ∃ r, wholeNumber s = .ok r ∧ ∀ v, r = some v ↔
      ∃ t ws, s.bytes = t ++ ws ∧ Literal t v ∧ IsI64 v ∧ ∀ c ∈ ws, parseIsWs c := by
  -- White space ends an integer, so one with white space behind it is the longest.
  have hlong : ∀ {t ws v}, s.bytes = t ++ ws → Literal t v → (∀ c ∈ ws, parseIsWs c) →
      Leading Literal s.bytes t v := by
    intro t ws v hs ht hws
    rw [hs]
    exact leading_append ht fun c hc => isNumberByte_of_space (hws c (List.mem_of_head? hc))
  by_cases hlead : ∃ t v, Leading Literal s.bytes t v ∧ IsI64 v
  · obtain ⟨t, v, hlead, hv⟩ := hlead
    obtain ⟨rest, hrest⟩ := hlead.munch.start
    have hbytes : (s.drop t.length).bytes = rest := CString.bytes_drop hrest.symm
    obtain ⟨c, hread, hc⟩ := readElem_behind_space (s.drop t.length)
    refine ⟨if c = 0 then some v else none, ?_, ?_⟩
    · simp only [wholeNumber, parseI64_of_leading hlead, if_pos hv, ok_bind, storeEnd, if_true,
        Option.getD_some, parseSkipWs_eq, hread]
    · intro w
      rw [hbytes] at hc
      rw [Option.ite_none_right_eq_some, hc, Option.some.injEq]
      constructor
      · rintro ⟨hws, rfl⟩
        exact ⟨t, rest, hrest.symm, hlead.value, hv, hws⟩
      · rintro ⟨u, ws, hs, hu, -, hws⟩
        obtain ⟨rfl, rfl⟩ := hlead.unique (fun _ _ _ hv hw => hv.unique hw) (hlong hs hu hws)
        obtain rfl := List.append_cancel_left (hrest.trans hs)
        exact ⟨hws, rfl⟩
  · have herror : ∃ e, parseI64 (some s) true = .ok (.error .parseFailed, e) := by
      by_cases hword : ∃ t v, Leading Literal s.bytes t v
      · obtain ⟨t, v, hword⟩ := hword
        exact ⟨_, by rw [parseI64_of_leading hword, if_neg fun hv => hlead ⟨t, v, hword, hv⟩]⟩
      · exact ⟨_, parseI64_of_none (fun t v h => hword ⟨t, v, h⟩) true⟩
    obtain ⟨e, herror⟩ := herror
    refine ⟨none, by simp only [wholeNumber, herror, ok_bind], ?_⟩
    intro v
    refine iff_of_false nofun ?_
    rintro ⟨t, ws, hs, ht, hv, hws⟩
    exact hlead ⟨t, v, hlong hs ht hws, hv⟩

/-- Two numbers in front of a full stop are read back. -/
theorem parseChain_two :
    ∃ s', parseChain 2
        ⟨"12 -7.".toList.map ascii, List.forall_mem_ne'.mpr (by decide), by decide⟩ =
        .ok ([12, -7], s') ∧
      s'.bytes = [ascii '.'] := by
  have hspace : ∀ c ∈ [ascii ' '], parseIsWs c := by
    intro c hc
    rw [List.mem_singleton.mp hc]
    rfl
  have hnumbers : Separated [([], 12), ([ascii ' '], -7)] :=
    .cons (List.forall_mem_nil _) (by decide) (List.cons_ne_nil _ _)
      (.single hspace (by decide))
  have hrest : ∀ c ∈ [ascii '.'].head?, isNumberByte c = false := by
    intro c hc
    rw [← Option.mem_some_iff.mp hc]
    rfl
  exact parseChain_printNumbers hnumbers hrest (by decide)

end CanonC
