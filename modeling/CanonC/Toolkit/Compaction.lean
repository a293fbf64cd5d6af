import CanonC.Toolkit.StableSort
import Mathlib.Data.List.Destutter
import Mathlib.Data.List.SplitBy

/-!
# Keeping one element of each run

`List.destutter R` keeps an element when it is related by `R` to the last one kept. Where
the failure of `R` is an equivalence, what is kept are the heads of the maximal runs. On a
stable sort that leaves, of each class of level elements, the one that came first in the
input.
-/

namespace Toolkit

variable {α : Type*} {R : α → α → Prop}

private theorem not_rel_head (heq : Equivalence fun a b => ¬R a b) {a : α} {g : List α}
    (hrun : (a :: g).IsChain fun x y => ¬R x y) : ∀ b ∈ a :: g, ¬R a b := by
  induction g generalizing a with
  | nil =>
    intro b hb
    rw [List.mem_singleton.mp hb]
    exact heq.refl a
  | cons c g ih =>
    obtain ⟨hac, hrest⟩ := List.isChain_cons_cons.mp hrun
    intro b hb
    rcases List.mem_cons.mp hb with rfl | hb
    · exact heq.refl b
    · exact heq.trans hac (ih hrest b hb)

variable [DecidableRel R]

/-- Elements that are not related to the last one kept are passed over. -/
theorem destutter'_append {a : α} {g : List α} (hg : ∀ b ∈ g, ¬R a b) (t : List α) :
    (g ++ t).destutter' R a = t.destutter' R a := by
  induction g with
  | nil => rfl
  | cons b g ih =>
    obtain ⟨hb, hg⟩ := List.forall_mem_cons.mp hg
    rw [List.cons_append, List.destutter'_cons_neg _ hb, ih hg]

/-- Of a list that is cut into its runs the head of each run is kept. -/
private theorem destutter_flatten (heq : Equivalence fun a b => ¬R a b) (gs : List (List α))
    (hne : [] ∉ gs) (hrun : ∀ g ∈ gs, g.IsChain fun x y => ¬R x y)
    (hbreak : gs.IsChain fun g h => ∃ hg hh, R (g.getLast hg) (h.head hh)) :
    gs.flatten.destutter R = gs.filterMap List.head? := by
  induction gs with
  | nil => rfl
  | cons g gs ih =>
    obtain ⟨hrun₁, hrunRest⟩ := List.forall_mem_cons.mp hrun
    rw [List.mem_cons, not_or] at hne
    obtain ⟨a, g, rfl⟩ := List.exists_cons_of_ne_nil (Ne.symm hne.1)
    have hlevel := not_rel_head heq hrun₁
    rw [List.filterMap_cons_some List.head?_cons, ← ih hne.2 hrunRest hbreak.tail,
      List.flatten_cons, List.cons_append, List.destutter_cons',
      destutter'_append fun b hb => hlevel b (List.mem_cons_of_mem a hb)]
    cases gs with
    | nil => rfl
    | cons h gs =>
      obtain ⟨⟨hg, hh, hR⟩, -⟩ := List.isChain_cons_cons.mp hbreak
      obtain ⟨b, h, rfl⟩ := List.exists_cons_of_ne_nil hh
      have hab : R a b := by
        by_contra hn
        exact heq.trans (heq.symm (hlevel _ (List.getLast_mem hg))) hn hR
      rw [List.flatten_cons, List.cons_append, List.destutter'_cons_pos _ hab,
        List.destutter_cons']

/-- What is kept are the heads of the maximal runs. -/
theorem destutter_eq_heads (heq : Equivalence fun a b => ¬R a b) (l : List α) :
    l.destutter R = (l.splitBy fun a b => !decide (R a b)).filterMap List.head? := by
  have hflat := List.flatten_splitBy (fun a b => !decide (R a b)) l
  have hkeep := destutter_flatten heq (l.splitBy fun a b => !decide (R a b))
    (List.nil_notMem_splitBy _ l)
    (fun g hg => (List.isChain_of_mem_splitBy hg).imp fun a b hab => by simpa using hab)
    ((List.isChain_getLast_head_splitBy _ l).imp fun g h hgh => by simpa using hgh)
  rwa [hflat] at hkeep

/-- Every element is kept or comes after an unrelated one that is kept. -/
theorem exists_mem_destutter {T : α → α → Prop} {l : List α} (hl : l.Pairwise T) :
    ∀ y ∈ l, ∃ x ∈ l.destutter R, x = y ∨ ¬R x y ∧ T x y := by
  cases l with
  | nil => exact fun y hy => absurd hy List.not_mem_nil
  | cons a l =>
    rw [List.destutter_cons']
    induction l generalizing a with
    | nil => exact fun y hy => ⟨y, by simpa using hy, Or.inl rfl⟩
    | cons b l ih =>
      obtain ⟨ha, hbl⟩ := List.pairwise_cons.mp hl
      intro y hy
      by_cases hab : R a b
      · rw [List.destutter'_cons_pos _ hab]
        rcases List.mem_cons.mp hy with rfl | hy
        · exact ⟨y, List.mem_cons_self, Or.inl rfl⟩
        · obtain ⟨x, hx, hxy⟩ := ih b hbl y hy
          exact ⟨x, List.mem_cons_of_mem a hx, hxy⟩
      · rw [List.destutter'_cons_neg _ hab]
        have hal : (a :: l).Pairwise T :=
          List.pairwise_cons.mpr ⟨fun z hz => ha z (List.mem_cons_of_mem b hz),
            (List.pairwise_cons.mp hbl).2⟩
        rcases List.mem_cons.mp hy with rfl | hy
        · exact ⟨y, List.mem_destutter' l R y, Or.inl rfl⟩
        · rcases List.mem_cons.mp hy with rfl | hy
          · exact ⟨a, List.mem_destutter' l R a, Or.inr ⟨hab, ha y List.mem_cons_self⟩⟩
          · exact ih a hal y (List.mem_cons_of_mem a hy)

section Sorted

variable {le : α → α → Bool}

/-- What is kept of a sorted list is strictly ascending. -/
theorem pairwise_destutter (hle : IsTotalPreorderTest le)
    (hR : ∀ a b, R a b ↔ ¬(le a b = true ∧ le b a = true)) {l : List α}
    (hl : l.Pairwise fun a b => le a b = true) :
    (l.destutter R).Pairwise fun a b => le b a = false := by
  have hsorted := hl.sublist (List.destutter_sublist R l)
  have hstrict : (l.destutter R).IsChain fun a b => le b a = false := by
    have hchain := List.isChain_destutter R l
    rw [List.isChain_iff_getElem] at hchain ⊢
    rw [List.pairwise_iff_getElem] at hsorted
    intro i hi
    rw [← Bool.not_eq_true]
    exact fun hba => (hR _ _).mp (hchain i hi)
      ⟨hsorted i (i + 1) (by omega) hi (Nat.lt_succ_self i), hba⟩
  have : IsTrans α fun a b => le b a = false := ⟨fun a b c hab hbc => by
    rw [← Bool.not_eq_true] at hab hbc ⊢
    intro hca
    rcases hle.total b c with h | h
    · exact hab (hle.trans b c a h hca)
    · exact hbc h⟩
  exact hstrict.pairwise

/-- Of a stable sort, exactly the elements are kept that no earlier element of the input is
level with. -/
theorem IsStableSort.mem_destutter_iff (hle : IsTotalPreorderTest le)
    (hR : ∀ a b, R a b ↔ ¬(le a b = true ∧ le b a = true)) {input output : List α}
    (h : IsStableSort le input output) (x : α) : x ∈ output.destutter R ↔
      ∃ i : Nat, input[i]? = some x ∧ ∀ j < i, ∀ y ∈ input[j]?, R y x := by
  obtain ⟨tagged, hperm, rfl, hp⟩ := h
  have hmem (y : α) (j : Nat) : (y, j) ∈ tagged ↔ input[j]? = some y := by
    rw [hperm.mem_iff, List.mk_mem_zipIdx_iff_getElem?]
  have hmap : (tagged.map Prod.fst).destutter R =
      (tagged.destutter fun p q => R p.1 q.1).map Prod.fst :=
    (List.map_destutter (f := Prod.fst) fun _ _ _ _ => Iff.rfl).symm
  have hfirst := exists_mem_destutter (R := fun p q : α × Nat => R p.1 q.1) hp
  rw [hmap, List.mem_map]
  constructor
  · rintro ⟨⟨x, i⟩, hx, rfl⟩
    refine ⟨i, (hmem x i).mp ((List.destutter_sublist _ tagged).subset hx), ?_⟩
    intro j hj y hy
    -- An earlier level element would put a second level element among those kept.
    by_contra hyx
    obtain ⟨⟨z, k⟩, hz, hzy⟩ := hfirst (y, j) ((hmem y j).mpr hy)
    have hk : k ≤ j ∧ ¬R z x := by
      rcases hzy with heq | ⟨hlevel, hbefore⟩
      · obtain ⟨rfl, rfl⟩ := Prod.mk.inj heq
        exact ⟨Nat.le_refl _, hyx⟩
      · have hzy' := not_not.mp (mt (hR z y).mpr hlevel)
        have hyx' := not_not.mp (mt (hR y x).mpr hyx)
        refine ⟨(hbefore.2 hzy'.2).le, fun hzx => (hR z x).mp hzx ⟨?_, ?_⟩⟩
        · exact hle.trans z y x hzy'.1 hyx'.1
        · exact hle.trans x y z hyx'.2 hzy'.2
    have hzx := not_not.mp (mt (hR z x).mpr hk.2)
    have hpair := pairwise_destutter hle hR (List.pairwise_map.mpr (hp.imp fun hxy => hxy.1))
    rw [hmap, List.pairwise_map] at hpair
    have hstrict := hpair.imp (S := fun p q => ¬(le p.1 q.1 = true ∧ le q.1 p.1 = true))
      fun hpq hlevel => Bool.false_ne_true (hpq.symm.trans hlevel.2)
    have : Std.Symm fun p q : α × Nat => ¬(le p.1 q.1 = true ∧ le q.1 p.1 = true) :=
      ⟨fun p q hpq hqp => hpq hqp.symm⟩
    refine hstrict.forall hz hx (fun heq => ?_) hzx
    cases heq
    omega
  · rintro ⟨i, hi, hearlier⟩
    obtain ⟨⟨z, k⟩, hz, hzx⟩ := hfirst (x, i) ((hmem x i).mpr hi)
    rcases hzx with heq | ⟨hlevel, hbefore⟩
    · exact ⟨(x, i), heq ▸ hz, rfl⟩
    · have hki := hbefore.2 (not_not.mp (mt (hR z x).mpr hlevel)).2
      have hzk := (hmem z k).mp ((List.destutter_sublist _ tagged).subset hz)
      exact absurd (hearlier k hki z hzk) hlevel

end Sorted

end Toolkit
