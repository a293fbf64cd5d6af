import Mathlib.Data.List.ReduceOption

/-!
# Texts written piece by piece

A writer with bounded room takes each piece as a whole or not at all, and stops at the first
piece that it does not take or that is not there.
-/

namespace Toolkit

variable {α : Type*} {room : Nat} {ps : List (Option (List α))}

/-- The pieces in front of the first one that is missing or does not fit behind them. -/
def fitting (room : Nat) : List (Option (List α)) → List (List α)
  | some p :: ps => if p.length ≤ room then p :: fitting (room - p.length) ps else []
  | _ => []

/-- A piece that fits comes first, and the others get the room it leaves. -/
theorem fitting_cons_of_le {p : List α} (h : p.length ≤ room) (ps : List (Option (List α))) :
    fitting room (some p :: ps) = p :: fitting (room - p.length) ps := by
  rw [fitting, if_pos h]

/-- From a piece that does not fit on nothing is written. -/
theorem fitting_cons_of_lt {p : List α} (h : room < p.length) (ps : List (Option (List α))) :
    fitting room (some p :: ps) = [] := by
  rw [fitting, if_neg (Nat.not_le.mpr h)]

/-- What fits are the first pieces. -/
theorem map_fitting_start (room : Nat) (ps : List (Option (List α))) :
    (fitting room ps).map some <+: ps := by
  induction ps generalizing room with
  | nil => exact List.nil_prefix
  | cons p ps ih =>
    cases p with
    | none => exact List.nil_prefix
    | some p =>
      rcases Nat.lt_or_ge room p.length with hlt | hle
      · rw [fitting_cons_of_lt hlt]
        exact List.nil_prefix
      · rw [fitting_cons_of_le hle]
        exact List.cons_prefix_cons.mpr ⟨rfl, ih _⟩

/-- The first pieces are all taken when none of them is missing and there is room for them. -/
theorem le_length_fitting_iff {k : Nat} : k ≤ (fitting room ps).length ↔
    k ≤ ps.length ∧ none ∉ ps.take k ∧ (ps.take k).reduceOption.flatten.length ≤ room := by
  induction ps generalizing room k with
  | nil =>
    rw [List.take_nil]
    exact ⟨fun h => ⟨h, List.not_mem_nil, Nat.zero_le _⟩, fun h => h.1⟩
  | cons p ps ih =>
    cases k with
    | zero => exact iff_of_true (Nat.zero_le _) ⟨Nat.zero_le _, List.not_mem_nil, Nat.zero_le _⟩
    | succ k =>
      rw [List.take_succ_cons]
      cases p with
      | none => exact iff_of_false (Nat.not_succ_le_zero k) fun h => h.2.1 List.mem_cons_self
      | some p =>
        rw [List.reduceOption_cons_of_some, List.flatten_cons, List.length_append,
          List.length_cons, Nat.succ_le_succ_iff, List.mem_cons, or_iff_right
            (Option.some_ne_none p).symm]
        rcases Nat.lt_or_ge room p.length with hlt | hle
        · rw [fitting_cons_of_lt hlt]
          refine iff_of_false (Nat.not_succ_le_zero k) fun h => ?_
          omega
        · rw [fitting_cons_of_le hle, List.length_cons, Nat.succ_le_succ_iff, ih]
          refine and_congr_right fun _ => and_congr_right fun _ => ?_
          omega

/-- All pieces fit when none is missing and there is room for all of them. -/
theorem map_fitting_eq_iff : (fitting room ps).map some = ps ↔
    none ∉ ps ∧ ps.reduceOption.flatten.length ≤ room := by
  have hpre := map_fitting_start room ps
  have hall := @le_length_fitting_iff _ room ps ps.length
  rw [List.take_length, and_iff_right (Nat.le_refl _)] at hall
  rw [← hall]
  constructor
  · intro heq
    have hlen := congrArg List.length heq
    rw [List.length_map] at hlen
    exact Nat.le_of_eq hlen.symm
  · intro hle
    exact hpre.eq_of_length_le (by rwa [List.length_map])

/-- Of pieces that are all there the first ones are taken, as many as there is room for. -/
theorem fitting_map_some (room : Nat) (ps : List (List α)) :
    fitting room (ps.map some) = ps.take (fitting room (ps.map some)).length := by
  have htake := List.prefix_iff_eq_take.mp (map_fitting_start room (ps.map some))
  rw [List.length_map, ← List.map_take] at htake
  exact (List.map_inj_right fun _ _ => Option.some.inj).mp htake

/-- As many pieces fit as have room together. -/
theorem le_length_fitting_map_some {ps : List (List α)} {k : Nat} :
    k ≤ (fitting room (ps.map some)).length ↔
      k ≤ ps.length ∧ (ps.take k).flatten.length ≤ room := by
  have hsome : none ∉ (ps.take k).map some := by
    rw [List.mem_map]
    rintro ⟨p, -, hp⟩
    cases hp
  rw [le_length_fitting_iff, List.length_map, ← List.map_take, and_iff_right hsome,
    List.reduceOption, List.filterMap_map, Function.id_comp, List.filterMap_some]

end Toolkit
