import Mathlib.Data.List.Count
import Mathlib.Data.List.DropRight
import Mathlib.Data.List.Range
import Mathlib.Data.List.TakeWhile

/-!
# Words between separators

A list over an alphabet with a separator is a gap of separators, a word without them, and
a rest that starts with a separator or is empty. What is defined by positions or by
splitting is computed along this decomposition, and an induction over it follows a scanner
that reads one word at a time.
-/

namespace Toolkit.Runs

variable {α : Type*} [DecidableEq α] {d : α} {xs gap word rest : List α}

/-- The positions at which a maximal run of elements other than the separator starts. -/
def starts (d : α) (xs : List α) : List Nat :=
  (List.range xs.length).filter fun i => xs[i]? ≠ some d ∧ (i = 0 ∨ xs[i - 1]? = some d)

/-- The maximal runs of elements other than the separator. -/
def words (d : α) (xs : List α) : List (List α) := (xs.splitOn d).filter (· ≠ [])

/-- The positions of the separators. -/
def seps (d : α) (xs : List α) : List Nat :=
  (List.range xs.length).filter fun i => xs[i]? = some d

/-- A gap, a word and a rest that does not continue the word. -/
structure Leads (d : α) (gap word rest : List α) : Prop where
  /-- The gap has separators only. -/
  gap_eq : ∀ x ∈ gap, x = d
  /-- The word is not empty. -/
  word_ne : word ≠ []
  /-- The word has no separator. -/
  word_free : d ∉ word
  /-- The rest is empty or starts with a separator. -/
  rest_eq : ∀ x ∈ rest.head?, x = d

/-- A list has separators only, or it has a first word. -/
theorem gap_or_leads (d : α) (xs : List α) : (∀ x ∈ xs, x = d) ∨
    ∃ gap word rest, xs = gap ++ word ++ rest ∧ Leads d gap word rest := by
  have hsplit := (List.takeWhile_append_dropWhile (p := (· = d)) (l := xs)).symm
  have hgap : ∀ x ∈ xs.takeWhile (· = d), x = d := by
    intro x hx
    simpa using List.mem_takeWhile_imp hx
  cases htail : xs.dropWhile (· = d) with
  | nil =>
    left
    rw [htail, List.append_nil] at hsplit
    rw [hsplit]
    exact hgap
  | cons x tail =>
    right
    have hx : ¬ x = d := by
      have hhead := List.head?_dropWhile_not (fun y => decide (y = d)) xs
      rw [htail] at hhead
      simpa using hhead
    refine ⟨xs.takeWhile (· = d), (x :: tail).takeWhile (· ≠ d), (x :: tail).dropWhile (· ≠ d),
      ?_, hgap, ?_, ?_, ?_⟩
    · rw [List.append_assoc, List.takeWhile_append_dropWhile, ← htail]
      exact hsplit
    · rw [List.takeWhile_cons_of_pos (by simpa using hx)]
      exact List.cons_ne_nil _ _
    · intro hmem
      simpa using List.mem_takeWhile_imp hmem
    · intro y hy
      have hhead := List.head?_dropWhile_not (fun y => decide (y ≠ d)) (x :: tail)
      rw [hy] at hhead
      simpa using hhead

/-- Induction along the words of a list. -/
theorem word_induction {P : List α → Prop} (hgap : ∀ xs, (∀ x ∈ xs, x = d) → P xs)
    (hword : ∀ gap word rest, Leads d gap word rest → P rest → P (gap ++ word ++ rest))
    (xs : List α) : P xs := by
  induction hn : xs.length using Nat.strongRecOn generalizing xs with
  | _ n ih =>
    rcases gap_or_leads d xs with h | ⟨gap, word, rest, rfl, h⟩
    · exact hgap xs h
    · have hpos := List.length_pos_iff.mpr h.word_ne
      refine hword gap word rest h (ih rest.length ?_ rest rfl)
      rw [← hn, List.length_append, List.length_append]
      omega

private theorem filter_range_append (p : Nat → Bool) (m n : Nat) :
    (List.range (m + n)).filter p =
      (List.range m).filter p ++ ((List.range n).filter fun i => p (m + i)).map (m + ·) := by
  rw [List.range_add, List.filter_append, List.filter_map]
  rfl

/-- No word starts among delimiters. -/
theorem starts_of_gap (h : ∀ x ∈ xs, x = d) : starts d xs = [] := by
  refine List.filter_eq_nil_iff.mpr fun i hi hp => ?_
  have hlt := List.mem_range.mp hi
  refine (of_decide_eq_true hp).1 ?_
  rw [List.getElem?_eq_getElem hlt, h _ (List.getElem_mem hlt)]

/-- The starts in two parts of a list whose boundary lies at a separator. -/
theorem starts_append {ys : List α}
    (h : xs = [] ∨ xs.getLast? = some d ∨ ∀ x ∈ ys.head?, x = d) :
    starts d (xs ++ ys) = starts d xs ++ (starts d ys).map (xs.length + ·) := by
  rw [starts, List.length_append, filter_range_append]
  congr 1
  · refine List.filter_congr fun i hi => ?_
    have hlt := List.mem_range.mp hi
    rw [List.getElem?_append_left hlt, List.getElem?_append_left (by omega)]
  · congr 1
    refine List.filter_congr fun i hi => ?_
    rw [List.getElem?_append_right (Nat.le_add_right _ _), Nat.add_sub_cancel_left]
    rw [decide_eq_decide]
    refine and_congr_right fun hne => ?_
    cases i with
    | zero =>
      refine iff_of_true ?_ (Or.inl rfl)
      rw [Nat.add_zero, List.length_eq_zero_iff]
      rcases h with rfl | hlast | hhead
      · exact Or.inl rfl
      · right
        rwa [List.getElem?_append_left
          (Nat.sub_lt (List.length_pos_iff.mpr (by rintro rfl; cases hlast)) Nat.one_pos),
          ← List.getLast?_eq_getElem?]
      · refine absurd ?_ hne
        have hlt := List.mem_range.mp hi
        rw [List.getElem?_eq_getElem hlt]
        congr 1
        exact hhead _ (by rw [List.head?_eq_getElem?, List.getElem?_eq_getElem hlt]; rfl)
    | succ i =>
      rw [Nat.add_sub_cancel, ← Nat.add_assoc, Nat.add_sub_cancel,
        List.getElem?_append_right (Nat.le_add_right _ _), Nat.add_sub_cancel_left]
      simp

/-- A word starts at its first element. -/
theorem starts_word (hne : word ≠ []) (hfree : d ∉ word) : starts d word = [0] := by
  obtain ⟨x, word, rfl⟩ := List.exists_cons_of_ne_nil hne
  have hword (i : Nat) : (x :: word)[i]? ≠ some d := fun hd =>
    hfree (List.mem_of_getElem? hd)
  rw [starts, List.length_cons, List.range_succ_eq_map, List.filter_cons_of_pos, List.filter_map,
    List.filter_eq_nil_iff.mpr, List.map_nil]
  · intro i _ hp
    simp only [Function.comp, decide_eq_true_eq] at hp
    exact hword i (hp.2.resolve_left (Nat.succ_ne_zero i))
  · exact decide_eq_true ⟨hword 0, Or.inl rfl⟩

/-- The first word starts behind the gap, and the other words are those of the rest. -/
theorem starts_leads (h : Leads d gap word rest) : starts d (gap ++ word ++ rest) =
    gap.length :: (starts d rest).map (gap.length + word.length + ·) := by
  have hgap : gap = [] ∨ gap.getLast? = some d ∨ ∀ x ∈ word.head?, x = d := by
    cases hlast : gap.getLast? with
    | none => exact Or.inl (List.getLast?_eq_none_iff.mp hlast)
    | some x => exact Or.inr (Or.inl (by rw [h.gap_eq x (List.mem_of_getLast? hlast)]))
  rw [starts_append (Or.inr (Or.inr h.rest_eq)), starts_append hgap, starts_of_gap h.gap_eq,
    starts_word h.word_ne h.word_free, List.length_append]
  rfl

/-- There are no words among delimiters. -/
theorem words_of_gap (h : ∀ x ∈ xs, x = d) : words d xs = [] := by
  induction xs with
  | nil => simp [words]
  | cons x xs ih =>
    obtain ⟨rfl, hxs⟩ := List.forall_mem_cons.mp h
    rw [words, List.splitOn_cons_eq_if_modifyHead, if_pos (beq_self_eq_true x),
      List.filter_cons_of_neg (by simp)]
    exact ih hxs

/-- The words of a list with a first word. -/
theorem words_leads (h : Leads d gap word rest) :
    words d (gap ++ word ++ rest) = word :: words d rest := by
  have hword : words d (word ++ rest) = word :: words d rest := by
    cases rest with
    | nil =>
      rw [words, List.append_nil, List.splitOn_eq_singleton h.word_free, words_of_gap (by simp)]
      simp [h.word_ne]
    | cons x rest =>
      obtain rfl := h.rest_eq x rfl
      rw [words, words, List.splitOn_append_cons_self_of_not_mem h.word_free,
        List.splitOn_cons_eq_if_modifyHead, if_pos (beq_self_eq_true x)]
      simp [h.word_ne]
  have hgap := h.gap_eq
  rw [List.append_assoc]
  induction gap with
  | nil => exact hword
  | cons x gap ih =>
    obtain ⟨rfl, hgap⟩ := List.forall_mem_cons.mp hgap
    rw [List.cons_append, words, List.splitOn_cons_eq_if_modifyHead,
      if_pos (beq_self_eq_true x), List.filter_cons_of_neg (by simp)]
    exact ih ⟨hgap, h.word_ne, h.word_free, h.rest_eq⟩ hgap

/-- A word is a part of the list. -/
theorem sublist_of_mem_words (hword : word ∈ words d xs) : word.Sublist xs := by
  induction xs using word_induction (d := d) with
  | hgap xs h =>
    rw [words_of_gap h] at hword
    exact absurd hword List.not_mem_nil
  | hword gap word' rest h ih =>
    rw [words_leads h, List.mem_cons] at hword
    rw [List.append_assoc]
    refine List.Sublist.trans ?_ (List.sublist_append_right gap _)
    rcases hword with rfl | hword
    · exact List.sublist_append_left word rest
    · exact (ih hword).trans (List.sublist_append_right word' rest)

/-- Words joined by a separator that is in none of them are the words of the result. -/
theorem words_intercalate {ws : List (List α)} (hne : ∀ w ∈ ws, w ≠ [])
    (hfree : ∀ w ∈ ws, d ∉ w) : words d ([d].intercalate ws) = ws := by
  by_cases hws : ws = []
  · rw [hws]
    exact words_of_gap (by simp)
  · rw [words, List.splitOn_intercalate d hfree hws]
    exact List.filter_eq_self.mpr fun w hw => decide_eq_true (hne w hw)

/-- The places of the delimiters, from the first element on. -/
theorem seps_cons (x : α) (xs : List α) :
    seps d (x :: xs) = (if x = d then [0] else []) ++ (seps d xs).map (· + 1) := by
  have hsucc : ((List.range xs.length).map Nat.succ).filter
      (fun i => decide ((x :: xs)[i]? = some d)) = (seps d xs).map (· + 1) := by
    rw [List.filter_map]
    rfl
  rw [seps, List.length_cons, List.range_succ_eq_map]
  by_cases hx : x = d
  · rw [List.filter_cons_of_pos (by simp [hx]), hsucc, if_pos hx]
    rfl
  · rw [List.filter_cons_of_neg (by simp [hx]), hsucc, if_neg hx]
    rfl

/-- There are as many places as delimiters. -/
theorem length_seps (d : α) (xs : List α) : (seps d xs).length = xs.count d := by
  induction xs with
  | nil => rfl
  | cons x xs ih =>
    rw [seps_cons, List.length_append, List.length_map, ih, List.count_cons, Nat.add_comm]
    by_cases hx : x = d <;> simp [hx]

/-- Each run of separators shrinks to one. -/
def squeeze (d : α) : List α → List α
  | x :: y :: xs => if x = d ∧ y = d then squeeze d (y :: xs) else x :: squeeze d (y :: xs)
  | xs => xs

/-- The separators at both ends are removed and each run of them inside shrinks to one. -/
def collapse (d : α) (xs : List α) : List α :=
  squeeze d ((xs.dropWhile (· = d)).rdropWhile (· = d))

/-- Only the gap in front of a word is squeezed. -/
theorem squeeze_word_append (hfree : d ∉ word) (xs : List α) :
    squeeze d (word ++ xs) = word ++ squeeze d xs := by
  induction word with
  | nil => rfl
  | cons x word ih =>
    obtain ⟨hx, hword⟩ := List.ne_and_not_mem_of_not_mem_cons hfree
    rw [List.cons_append, List.cons_append, ← ih hword]
    cases word ++ xs with
    | nil => rfl
    | cons y ys => rw [squeeze, if_neg fun h => hx h.1.symm]

/-- A run of delimiters in front of a word becomes one. -/
theorem squeeze_gap_append (hgap : ∀ x ∈ gap, x = d) {x : α} (hx : x ≠ d) (xs : List α) :
    squeeze d (d :: gap ++ x :: xs) = d :: squeeze d (x :: xs) := by
  induction gap with
  | nil => rw [List.singleton_append, squeeze, if_neg fun h => hx h.2]
  | cons y gap ih =>
    obtain ⟨rfl, hgap⟩ := List.forall_mem_cons.mp hgap
    rw [← ih hgap, List.cons_append, List.cons_append, squeeze, if_pos ⟨rfl, rfl⟩]

omit [DecidableEq α] in
/-- An end that is dropped as a whole may be left out. -/
theorem rdropWhile_append_of_all {p : α → Bool} (ys : List α) (h : ∀ x ∈ xs, p x = true) :
    (ys ++ xs).rdropWhile p = ys.rdropWhile p := by
  rw [List.rdropWhile, List.reverse_append, List.dropWhile_append_of_pos, List.rdropWhile]
  exact fun x hx => h x (List.mem_reverse.mp hx)

omit [DecidableEq α] in
/-- An end that is not dropped as a whole shields what is in front of it. -/
theorem rdropWhile_append_of_not_all {p : α → Bool} (ys : List α)
    (h : ∃ x ∈ xs, ¬ p x = true) : (ys ++ xs).rdropWhile p = ys ++ xs.rdropWhile p := by
  have hne : xs.reverse.dropWhile p ≠ [] := by
    rw [ne_eq, List.dropWhile_eq_nil_iff]
    obtain ⟨x, hx, hp⟩ := h
    exact fun hall => hp (hall x (List.mem_reverse.mpr hx))
  rw [List.rdropWhile, List.reverse_append, List.dropWhile_append, if_neg (by simpa using hne),
    List.reverse_append, List.reverse_reverse, List.rdropWhile]

/-- The gap in front is dropped up to the first word. -/
theorem Leads.dropWhile (h : Leads d gap word rest) :
    (gap ++ word ++ rest).dropWhile (· = d) = word ++ rest := by
  obtain ⟨x, word, rfl⟩ := List.exists_cons_of_ne_nil h.word_ne
  have hx := (List.ne_and_not_mem_of_not_mem_cons h.word_free).1
  rw [List.append_assoc, List.dropWhile_append_of_pos fun y hy => decide_eq_true (h.gap_eq y hy),
    List.cons_append, List.dropWhile_cons_of_neg (by simpa using hx.symm)]

/-- A word has no delimiter at its end. -/
theorem Leads.rdropWhile (h : Leads d gap word rest) :
    word.rdropWhile (· = d) = word := by
  refine List.rdropWhile_eq_self_iff.mpr fun hne hd => h.word_free ?_
  rw [← of_decide_eq_true hd]
  exact List.getLast_mem hne

/-- What is left of a list that starts with a word starts with the word. -/
theorem Leads.cons_rdropWhile (h : Leads d gap word rest) :
    ∃ x ys, x ≠ d ∧ (word ++ rest).rdropWhile (· = d) = x :: ys := by
  obtain ⟨x, word, rfl⟩ := List.exists_cons_of_ne_nil h.word_ne
  have hx := (List.ne_and_not_mem_of_not_mem_cons h.word_free).1.symm
  have hne : (x :: word ++ rest).rdropWhile (· = d) ≠ [] := by
    rw [ne_eq, List.rdropWhile_eq_nil_iff]
    exact fun hall => hx (of_decide_eq_true (hall x List.mem_cons_self))
  obtain ⟨y, ys, hy⟩ := List.exists_cons_of_ne_nil hne
  have hprefix := List.rdropWhile_prefix (fun y => decide (y = d)) (l := x :: word ++ rest)
  rw [hy, List.cons_append, List.cons_prefix_cons] at hprefix
  obtain rfl := hprefix.1
  exact ⟨y, ys, hx, hy⟩

/-- Collapsing joins the words by one separator each. -/
theorem collapse_eq (d : α) (xs : List α) : collapse d xs = [d].intercalate (words d xs) := by
  induction xs using word_induction (d := d) with
  | hgap xs h =>
    have hdrop : xs.dropWhile (· = d) = [] :=
      List.dropWhile_eq_nil_iff.mpr fun x hx => decide_eq_true (h x hx)
    rw [collapse, hdrop, words_of_gap h]
    rfl
  | hword gap word rest h ih =>
    rw [words_leads h, collapse, h.dropWhile]
    rcases gap_or_leads d rest with hall | ⟨gap', word', rest', rfl, h'⟩
    · rw [rdropWhile_append_of_all _ fun x hx => decide_eq_true (hall x hx), h.rdropWhile,
        words_of_gap hall, List.intercalate_singleton]
      have hsqueeze := squeeze_word_append h.word_free []
      rwa [List.append_nil, show squeeze d [] = [] from rfl, List.append_nil] at hsqueeze
    · obtain ⟨x, ys, hx, hrest⟩ := h'.cons_rdropWhile
      have hin : ∃ y ∈ word' ++ rest', ¬ decide (y = d) = true := by
        obtain ⟨y, word', rfl⟩ := List.exists_cons_of_ne_nil h'.word_ne
        have hy := (List.ne_and_not_mem_of_not_mem_cons h'.word_free).1.symm
        exact ⟨y, List.mem_cons_self, by simpa using hy⟩
      -- The rest goes on with a separator, so its gap is not empty.
      obtain ⟨gap', rfl⟩ : ∃ gap, gap' = d :: gap := by
        cases gap' with
        | nil =>
          obtain ⟨y, word', rfl⟩ := List.exists_cons_of_ne_nil h'.word_ne
          have hy := h.rest_eq y rfl
          exact absurd (hy ▸ List.mem_cons_self) h'.word_free
        | cons y gap' =>
          obtain rfl := h'.gap_eq y List.mem_cons_self
          exact ⟨gap', rfl⟩
      have hne : words d (d :: gap' ++ word' ++ rest') ≠ [] := by
        rw [words_leads h']
        exact List.cons_ne_nil _ _
      have hgap : ∀ y ∈ gap', y = d := fun y hy => h'.gap_eq y (List.mem_cons_of_mem _ hy)
      rw [List.intercalate_cons_of_ne_nil hne, ← ih, collapse, h'.dropWhile, hrest,
        List.append_assoc (d :: gap'), ← List.append_assoc word,
        rdropWhile_append_of_not_all _ hin, hrest, List.append_assoc,
        squeeze_word_append h.word_free, squeeze_gap_append hgap hx, List.append_assoc]
      rfl

end Toolkit.Runs
