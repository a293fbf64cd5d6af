import CanonC.Core.Region.Model
import CanonC.Toolkit.Run

/-!
# When a borrow of a region is accepted

The identifier of a region is the address of its object from the first `region_begin` on.
A captured identifier is therefore accepted whenever the object is open, whichever
lifetime it is in, and by no other object.
-/

namespace CanonC

open Toolkit

variable {maxCleanup self i k : Nat} {r r' : Region} {log : List RegionEvent}
  {hookCalls : Nat → List RegionCall} {regions regions' : Nat → Region}

/-- Registering and attaching keep the identifier. -/
theorem regionCalls_id {calls : List RegionCall}
    (h : regionCalls maxCleanup calls r = .ok (r', log)) : r'.id = r.id := by
  induction calls generalizing r log with
  | nil =>
    obtain ⟨rfl, -⟩ := Prod.mk.inj (Except.ok.inj h)
    rfl
  | cons call calls ih =>
    cases call with
    | register hook =>
      obtain ⟨⟨t, accepted⟩, ht, h⟩ := bind_eq_ok.mp h
      obtain ⟨⟨u, rest⟩, hu, h⟩ := bind_eq_ok.mp h
      obtain ⟨rfl, -⟩ := Prod.mk.inj (Except.ok.inj h)
      obtain ⟨-, -, ht⟩ := bind_eq_ok.mp ht
      obtain ⟨-, -, ht⟩ := bind_eq_ok.mp ht
      rw [ih hu]
      split at ht
      · obtain ⟨rfl, -⟩ := Prod.mk.inj (Except.ok.inj ht)
        rfl
      · obtain ⟨rfl, -⟩ := Prod.mk.inj (Except.ok.inj ht)
        rfl
    | attachArena arena =>
      obtain ⟨t, ht, h⟩ := bind_eq_ok.mp h
      obtain ⟨-, -, ht⟩ := bind_eq_ok.mp ht
      obtain ⟨-, -, ht⟩ := bind_eq_ok.mp ht
      rw [ih h, ← Except.ok.inj ht]

/-- Running the hooks keeps the identifier. -/
theorem regionWalk_id (h : regionWalk maxCleanup hookCalls i k r = .ok (r', log)) :
    r'.id = r.id := by
  induction i generalizing k r log with
  | zero =>
    obtain ⟨rfl, -⟩ := Prod.mk.inj (Except.ok.inj h)
    rfl
  | succ i ih =>
    rw [regionWalk] at h
    split at h
    · exact ih h
    · obtain ⟨⟨t, log₁⟩, ht, h⟩ := bind_eq_ok.mp h
      obtain ⟨⟨u, rest⟩, hu, h⟩ := bind_eq_ok.mp h
      obtain ⟨rfl, -⟩ := Prod.mk.inj (Except.ok.inj h)
      have hid : t.id = r.id := regionCalls_id ht
      exact (ih hu).trans hid

/-- The end of a region leaves its identifier. -/
theorem regionEnd_id (h : regionEnd maxCleanup hookCalls r = .ok (r', log)) : r'.id = r.id := by
  obtain ⟨-, -, h⟩ := bind_eq_ok.mp h
  obtain ⟨⟨t, log₁⟩, ht, h⟩ := bind_eq_ok.mp h
  obtain ⟨rfl, -⟩ := Prod.mk.inj (Except.ok.inj h)
  have hid : t.id = r.id := regionWalk_id ht
  exact hid

/-- The object is named by its address. -/
def Named (self : Nat) (regions : Nat → Region) : Prop := self ≠ 0 ∧ (regions self).id = self

/-- Opening an object names it. -/
theorem regionStep_begin (h : regionStep maxCleanup regions (self, .begin) = .ok (log, regions')) :
    Named self regions' := by
  obtain ⟨t, ht, h⟩ := bind_eq_ok.mp h
  obtain ⟨⟨⟩, hself, ht⟩ := bind_eq_ok.mp ht
  obtain ⟨-, rfl⟩ := Prod.mk.inj (Except.ok.inj h)
  rw [requireMsg_eq_ok, decide_eq_true_eq] at hself
  rw [Named, Function.update_self, ← Except.ok.inj ht]
  exact ⟨hself, rfl⟩

/-- A call on any object keeps the names. -/
theorem regionStep_named {op : Nat × RegionOp} (hn : Named self regions)
    (h : regionStep maxCleanup regions op = .ok (log, regions')) : Named self regions' := by
  obtain ⟨other, op⟩ := op
  by_cases hne : self = other
  · subst hne
    cases op with
    | begin => exact regionStep_begin h
    | call call =>
      obtain ⟨⟨t, log₁⟩, ht, h⟩ := bind_eq_ok.mp h
      obtain ⟨-, rfl⟩ := Prod.mk.inj (Except.ok.inj h)
      exact ⟨hn.1, by rw [Function.update_self, regionCalls_id ht, hn.2]⟩
    | close hookCalls =>
      obtain ⟨⟨t, log₁⟩, ht, h⟩ := bind_eq_ok.mp h
      obtain ⟨-, rfl⟩ := Prod.mk.inj (Except.ok.inj h)
      exact ⟨hn.1, by rw [Function.update_self, regionEnd_id ht, hn.2]⟩
  · have hframe : regions' self = regions self := by
      cases op <;> obtain ⟨t, ht, h⟩ := bind_eq_ok.mp h
      all_goals
        obtain ⟨-, rfl⟩ := Prod.mk.inj (Except.ok.inj h)
        exact Function.update_of_ne hne _ _
    exact ⟨hn.1, by rw [hframe, hn.2]⟩

/-- An object that was opened in the course of a run is named by its address at its end. -/
theorem run_named {ops : List (Nat × RegionOp)} {logs : List (List RegionEvent)}
    (hbegun : Named self regions ∨ (self, .begin) ∈ ops)
    (h : run (regionStep maxCleanup) regions ops = .ok (logs, regions')) : Named self regions' := by
  induction ops generalizing regions logs with
  | nil =>
    obtain ⟨-, rfl⟩ := Prod.mk.inj (Except.ok.inj h)
    exact hbegun.resolve_right List.not_mem_nil
  | cons op ops ih =>
    obtain ⟨o, t, os, ht, hrest, -⟩ := run_cons_eq_ok.mp h
    refine ih ?_ hrest
    rcases hbegun with hn | hmem
    · exact .inl (regionStep_named hn ht)
    · rcases List.mem_cons.mp hmem with rfl | hmem
      · exact .inl (regionStep_begin ht)
      · exact .inr hmem

/-- An identifier is accepted by an object exactly when the object has it and is open. -/
theorem regionAssertBorrowValid_iff {id : Nat} (hid : id ≠ regionIdStatic) :
    regionAssertBorrowValid (some r) id = .ok () ↔ r.isOpen = true ∧ r.id = id := by
  rw [regionAssertBorrowValid, if_neg hid]
  cases r.isOpen
  · simp
  · simp [requireMsg_eq_ok]

/-- An identifier captured while a region object is open is accepted after any further calls
exactly when the object is open, and by no other object that was opened. -/
theorem region_borrow_valid_iff_open (maxCleanup self : Nat)
    (regions₀ regions regions' : Nat → Region) (before after : List (Nat × RegionOp))
    (logs logs' : List (List RegionEvent)) (hbegun : (self, .begin) ∈ before)
    (hbefore : run (regionStep maxCleanup) regions₀ before = .ok (logs, regions))
    (hafter : run (regionStep maxCleanup) regions after = .ok (logs', regions')) :
    (regionAssertBorrowValid (some (regions' self)) (regionId (some (regions self))) = .ok () ↔
      (regions' self).isOpen = true) ∧
      ∀ other, other ≠ self → (other, .begin) ∈ before ++ after →
        regionAssertBorrowValid (some (regions' other)) (regionId (some (regions self))) ≠
          .ok () := by
  have hn := run_named (.inr hbegun) hbefore
  have hn' := run_named (.inl hn) hafter
  have hid : regionId (some (regions self)) = self := hn.2
  rw [hid]
  constructor
  · rw [regionAssertBorrowValid_iff hn.1]
    exact and_iff_left hn'.2
  · intro other hne hbegun' hvalid
    have hother : Named other regions' := by
      rcases List.mem_append.mp hbegun' with h | h
      · exact run_named (.inl (run_named (.inr h) hbefore)) hafter
      · exact run_named (.inr h) hafter
    rw [regionAssertBorrowValid_iff hn.1, hother.2] at hvalid
    exact hne hvalid.2

/-- One object, opened and closed. -/
theorem region_borrow_valid_iff_closed : ∃ regions regions' : Nat → Region,
    (regionAssertBorrowValid (some (regions' 4096)) (regionId (some (regions 4096))) = .ok () ↔
      (regions' 4096).isOpen = true) ∧ (regions' 4096).isOpen = false :=
  ⟨_, _, (region_borrow_valid_iff_open 8 4096 (fun _ => ⟨0, false, 0, fun _ => ⟨0, 0⟩, 0⟩) _ _
    [(4096, .begin)] [(4096, .close fun _ => [])] _ _ List.mem_cons_self rfl rfl).1, rfl⟩

/-- An identifier captured in one lifetime is accepted in the next one of the same object. -/
theorem region_borrow_reused : ¬ ∀ (maxCleanup self : Nat)
    (regions₀ regions regions' : Nat → Region) (before after : List (Nat × RegionOp))
    (logs logs' : List (List RegionEvent)), (self, .begin) ∈ before →
    run (regionStep maxCleanup) regions₀ before = .ok (logs, regions) →
    (regions self).isOpen = true →
    run (regionStep maxCleanup) regions after = .ok (logs', regions') →
    regionAssertBorrowValid (some (regions' self)) (regionId (some (regions self))) = .ok () →
    (self, .begin) ∉ after := by
  intro h
  have hnot := h 8 4096 (fun _ => ⟨0, false, 0, fun _ => ⟨0, 0⟩, 0⟩) _ _ [(4096, .begin)]
    [(4096, .close fun _ => []), (4096, .begin)] _ _ List.mem_cons_self rfl rfl rfl rfl
  exact hnot (List.mem_cons_of_mem _ List.mem_cons_self)

end CanonC
