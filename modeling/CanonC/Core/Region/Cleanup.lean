import CanonC.Core.Region.Model
import Mathlib.Tactic.Common

/-!
# Cleanup hooks run in reverse order

A log of a lifetime is in order when every accepted hook is called exactly once, the
latest one first, and the attached arena is reset once, behind everything else. `region_end`
keeps this order for the hooks it finds in the table, and loses every hook that one of them
registers with success.
-/

namespace CanonC

variable {maxCleanup i k n arena : Nat} {r : Region} {hook : RegionCleanup}
  {calls : List RegionCall} {hookCalls : Nat → List RegionCall}
  {pending new : List RegionCleanup} {log rest : List RegionEvent}

/-- From the given stack of accepted hooks on, each call is of the latest accepted hook that
was not called yet, and none is left at the end. The arena, zero for none, is reset there: once,
and nothing happens behind it. -/
def CleanedUp (arena : Nat) : List RegionCleanup → List RegionEvent → Prop
  | pending, [] => pending = [] ∧ arena = 0
  | pending, .registered hook accepted :: log =>
    CleanedUp arena (if accepted then hook :: pending else pending) log
  | pending, .called hook :: log => pending.head? = some hook ∧ CleanedUp arena pending.tail log
  | pending, .arenaReset reset :: log => pending = [] ∧ log = [] ∧ reset = arena ∧ arena ≠ 0

/-- The event is a registration that succeeded. -/
def RegionEvent.accepts : RegionEvent → Bool
  | .registered _ accepted => accepted
  | _ => false

/-- The event is a call of a hook. -/
def RegionEvent.isCall : RegionEvent → Bool
  | .called _ => true
  | _ => false

/-- The hooks that the calls offer. -/
def registrations (calls : List RegionCall) : List RegionCleanup :=
  calls.filterMap fun
    | .register hook => some hook
    | .attachArena _ => none

/-- The arena that is attached behind the calls, when the given one is in front of them. -/
def attachedArena (arena : Nat) : List RegionCall → Nat
  | [] => arena
  | .register _ :: calls => attachedArena arena calls
  | .attachArena arena :: calls => attachedArena arena calls

/-- No call passes NULL. -/
def RegionCall.Valid : RegionCall → Prop
  | .register hook => hook.fn ≠ 0
  | .attachArena arena => arena ≠ 0

/-- The hooks in the first `n` slots, the last one first. -/
def Region.slots (r : Region) (n : Nat) : List RegionCleanup :=
  ((List.range n).map r.cleanups).reverse

/-- The hook of the last slot comes first. -/
theorem Region.slots_succ (r : Region) (n : Nat) :
    r.slots (n + 1) = r.cleanups n :: r.slots n := by
  simp [slots, List.range_succ]

/-- The hooks of the first slots depend on these slots only. -/
theorem Region.slots_congr {r' : Region} (h : ∀ i < n, r'.cleanups i = r.cleanups i) :
    r'.slots n = r.slots n :=
  congrArg List.reverse (List.map_congr_left fun i hi => h i (List.mem_range.mp hi))

/-- In a log in order as many hooks are called as were accepted. -/
theorem CleanedUp.count (h : CleanedUp arena pending log) :
    pending.length + log.countP RegionEvent.accepts = log.countP RegionEvent.isCall := by
  induction log generalizing pending with
  | nil =>
    rw [h.1]
    rfl
  | cons event log ih =>
    cases event with
    | registered hook accepted =>
      have hrest := ih h
      rw [List.countP_cons, List.countP_cons]
      cases accepted with
      | false => exact hrest
      | true =>
        simp only [if_true, List.length_cons] at hrest
        simp only [RegionEvent.accepts, RegionEvent.isCall, if_true, Bool.false_eq_true, if_false]
        omega
    | called hook =>
      obtain ⟨hhead, hlog⟩ := h
      have hrest := ih hlog
      cases pending with
      | nil => cases hhead
      | cons head tail =>
        rw [List.countP_cons, List.countP_cons, List.length_cons]
        simp only [RegionEvent.accepts, RegionEvent.isCall, if_true, Bool.false_eq_true, if_false,
          List.tail_cons] at hrest ⊢
        omega
    | arenaReset reset =>
      obtain ⟨rfl, rfl, -⟩ := h
      rfl

/-- An open region takes the arena. -/
theorem regionAttachArena_eq (hopen : r.isOpen = true) (harena : arena ≠ 0) :
    regionAttachArena r arena = .ok { r with arena } := by
  simp [regionAttachArena, hopen, harena]

/-- A registration fills the next slot while there is one. -/
theorem regionRegister_eq (hopen : r.isOpen = true) (hfn : hook.fn ≠ 0) :
    regionRegister maxCleanup r hook = .ok (if r.numHooks ≥ maxCleanup then (r, false) else
      ({ r with cleanups := Function.update r.cleanups r.numHooks hook
                numHooks := r.numHooks + 1 }, true)) := by
  simp only [regionRegister, hopen, requireMsg_true, ok_bind, hfn, ne_eq, not_false_eq_true,
    decide_true]
  split <;> rfl

/-- What calls on an open region do: the hooks they offer are accepted as long as there is a
slot, put on top of the hooks in the table, and no hook is called. -/
structure CallsDone (maxCleanup : Nat) (calls : List RegionCall) (r r' : Region)
    (log : List RegionEvent) (new : List RegionCleanup) : Prop where
  isOpen : r'.isOpen = true
  /-- The arena attached last. -/
  arena : r'.arena = attachedArena r.arena calls
  /-- Hooks are accepted up to the size of the table. -/
  numHooks : r'.numHooks = min maxCleanup (r.numHooks + (registrations calls).length)
  /-- The hooks that were accepted. -/
  length : new.length + r.numHooks = r'.numHooks
  /-- They are the hooks in the new slots. -/
  slots : r'.slots r'.numHooks = new ++ r.slots r.numHooks
  /-- None of them is NULL. -/
  valid : ∀ hook ∈ new, hook.fn ≠ 0
  /-- The other slots are as they were. -/
  frame : ∀ i < r.numHooks, r'.cleanups i = r.cleanups i
  /-- The log accepts these hooks. -/
  accepts : log.countP RegionEvent.accepts = new.length
  /-- The log has no call. -/
  calls : log.countP RegionEvent.isCall = 0
  /-- Whether a log is in order is a matter of what follows. -/
  cleanedUp : ∀ saved pending rest,
    CleanedUp saved pending (log ++ rest) ↔ CleanedUp saved (new ++ pending) rest

/-- A registration is counted. -/
theorem registrations_register :
    registrations (.register hook :: calls) = hook :: registrations calls := rfl

namespace CallsDone

variable {t r' : Region} {new : List RegionCleanup}

/-- No call does nothing. -/
theorem nil (hopen : r.isOpen = true) (hle : r.numHooks ≤ maxCleanup) :
    CallsDone maxCleanup [] r r [] [] :=
  ⟨hopen, rfl, by simp [registrations, hle], Nat.zero_add _, rfl,
    fun _ hmem => absurd hmem List.not_mem_nil, fun _ _ => rfl, rfl, rfl, fun _ _ _ => Iff.rfl⟩

/-- An arena that was attached before the others makes no difference to the hooks. -/
theorem attachArena (h : CallsDone maxCleanup calls { r with arena } r' log new) :
    CallsDone maxCleanup (.attachArena arena :: calls) r r' log new :=
  ⟨h.isOpen, h.arena, h.numHooks, h.length, h.slots, h.valid, h.frame, h.accepts, h.calls,
    h.cleanedUp⟩

/-- A hook offered to a full table before the others is turned down. -/
theorem turnDown (hfull : maxCleanup ≤ r.numHooks) (h : CallsDone maxCleanup calls r r' log new) :
    CallsDone maxCleanup (.register hook :: calls) r r' (.registered hook false :: log) new := by
  have hnum := h.numHooks
  refine ⟨h.isOpen, h.arena, ?_, h.length, h.slots, h.valid, h.frame, h.accepts, h.calls,
    h.cleanedUp⟩
  rw [registrations_register, List.length_cons]
  omega

/-- A hook offered while there is a slot, before the others, is put into that slot. -/
theorem accept (h : CallsDone maxCleanup calls t r' log new) (hfn : hook.fn ≠ 0)
    (harena : t.arena = r.arena) (hnum : t.numHooks = r.numHooks + 1)
    (hslot : t.cleanups = Function.update r.cleanups r.numHooks hook) :
    CallsDone maxCleanup (.register hook :: calls) r r' (.registered hook true :: log)
      (new ++ [hook]) := by
  have hcount := h.numHooks
  have hlen := h.length
  have hbelow : ∀ i < r.numHooks, t.cleanups i = r.cleanups i := fun i hi => by
    rw [hslot, Function.update_of_ne (by omega)]
  have hslots : t.slots t.numHooks = hook :: r.slots r.numHooks := by
    rw [hnum, Region.slots_succ, Region.slots_congr hbelow, hslot, Function.update_self]
  refine ⟨h.isOpen, ?_, ?_, ?_, ?_, ?_, fun i hi => (h.frame i (by omega)).trans (hbelow i hi), ?_,
    h.calls, ?_⟩
  · rw [h.arena, harena]
    rfl
  · rw [registrations_register, List.length_cons]
    omega
  · rw [List.length_append, List.length_singleton]
    omega
  · rw [h.slots, hslots, List.append_assoc, List.singleton_append]
  · intro g hmem
    rcases List.mem_append.mp hmem with hnew | hself
    · exact h.valid g hnew
    · rwa [List.mem_singleton.mp hself]
  · rw [List.countP_cons, h.accepts, List.length_append]
    rfl
  · intro saved pending rest
    rw [List.cons_append, CleanedUp, if_pos rfl, h.cleanedUp, List.append_assoc,
      List.singleton_append]

end CallsDone

/-- Valid calls on an open region succeed and do what they say. -/
theorem regionCalls_done (hopen : r.isOpen = true) (hle : r.numHooks ≤ maxCleanup)
    (hvalid : ∀ call ∈ calls, call.Valid) :
    ∃ r' log new, regionCalls maxCleanup calls r = .ok (r', log) ∧
      CallsDone maxCleanup calls r r' log new := by
  induction calls generalizing r with
  | nil => exact ⟨r, [], [], rfl, CallsDone.nil hopen hle⟩
  | cons call calls ih =>
    have hrest := fun c hc => hvalid c (List.mem_cons_of_mem call hc)
    cases call with
    | attachArena arena =>
      have harena : arena ≠ 0 := hvalid _ List.mem_cons_self
      obtain ⟨r', log, new, hr, hdone⟩ := ih (r := { r with arena }) hopen hle hrest
      refine ⟨r', log, new, ?_, hdone.attachArena⟩
      rw [regionCalls, regionAttachArena_eq hopen harena, ok_bind, hr]
    | register hook =>
      have hfn : hook.fn ≠ 0 := hvalid _ List.mem_cons_self
      by_cases hfull : r.numHooks ≥ maxCleanup
      · obtain ⟨r', log, new, hr, hdone⟩ := ih hopen hle hrest
        refine ⟨r', .registered hook false :: log, new, ?_, hdone.turnDown hfull⟩
        simp [regionCalls, regionRegister_eq hopen hfn, hfull, hr]
      · have hroom : r.numHooks + 1 ≤ maxCleanup := Nat.lt_of_not_le hfull
        obtain ⟨r', log, new, hr, hdone⟩ := ih (r := { r with
          cleanups := Function.update r.cleanups r.numHooks hook
          numHooks := r.numHooks + 1 }) hopen hroom hrest
        refine ⟨r', .registered hook true :: log, new ++ [hook], ?_,
          hdone.accept (r := r) hfn rfl rfl rfl⟩
        simp only [regionCalls, regionRegister_eq hopen hfn, if_neg hfull, ok_bind, hr]

/-- One turn of the walk: the hook is called, makes its calls and its slot is cleared. -/
theorem regionWalk_succ {t r' : Region} (hfn : (r.cleanups i).fn ≠ 0)
    (ht : regionCalls maxCleanup (hookCalls k) r = .ok (t, log))
    (hr : regionWalk maxCleanup hookCalls i (k + 1)
      { t with cleanups := Function.update t.cleanups i ⟨0, 0⟩ } = .ok (r', rest)) :
    regionWalk maxCleanup hookCalls (i + 1) k r =
      .ok (r', .called (r.cleanups i) :: (log ++ rest)) := by
  simp only [regionWalk, if_neg hfn, ht, ok_bind, hr, List.cons_append]

/-- The walk calls the hooks of the slots below `i`, and none that they register. -/
theorem regionWalk_eq (hopen : r.isOpen = true) (hi : i ≤ r.numHooks)
    (hle : r.numHooks ≤ maxCleanup) (hfn : ∀ j < i, (r.cleanups j).fn ≠ 0)
    (hvalid : ∀ k, ∀ call ∈ hookCalls k, call.Valid) :
    ∃ r' log, regionWalk maxCleanup hookCalls i k r = .ok (r', log) ∧
      log.countP RegionEvent.isCall = i ∧
      (log.countP RegionEvent.accepts = 0 ↔
        r.numHooks = maxCleanup ∨ ∀ j < i, registrations (hookCalls (k + j)) = []) ∧
      (log.countP RegionEvent.accepts = 0 →
        ∀ saved rest, CleanedUp saved (r.slots i) (log ++ rest) ↔ CleanedUp saved [] rest) := by
  induction i generalizing k r with
  | zero => exact ⟨r, [], rfl, rfl, by simp, fun _ _ _ => Iff.rfl⟩
  | succ i ih =>
    obtain ⟨t, log, new, ht, hdone⟩ := regionCalls_done hopen hle (hvalid k)
    let u : Region := { t with cleanups := Function.update t.cleanups i ⟨0, 0⟩ }
    have hu : u.numHooks = t.numHooks := rfl
    have hnum := hdone.numHooks
    have hlen := hdone.length
    have hbelow : ∀ j < i, u.cleanups j = r.cleanups j := fun j hj =>
      (Function.update_of_ne (by omega) _ _).trans (hdone.frame j (by omega))
    obtain ⟨r', rest, hr, hcalls, haccepts, hclean⟩ := ih (r := u) (k := k + 1) hdone.isOpen
      (by omega) (by omega) (fun j hj => by rw [hbelow j hj]; exact hfn j (by omega))
    have hcount : (RegionEvent.called (r.cleanups i) :: (log ++ rest)).countP
        RegionEvent.accepts = new.length + rest.countP RegionEvent.accepts := by
      rw [List.countP_cons, List.countP_append, hdone.accepts]
      rfl
    have hnew : new.length = 0 ↔ r.numHooks = maxCleanup ∨ registrations (hookCalls k) = [] := by
      rw [← List.length_eq_zero_iff (l := registrations (hookCalls k))]
      omega
    have hsplit : (∀ j < i + 1, registrations (hookCalls (k + j)) = []) ↔
        registrations (hookCalls k) = [] ∧ ∀ j < i, registrations (hookCalls (k + 1 + j)) = [] := by
      simp only [Nat.forall_lt_succ_left, Nat.add_zero, Nat.add_right_comm k 1, Nat.add_assoc]
    refine ⟨r', _, regionWalk_succ (hfn i (Nat.lt_succ_self i)) ht hr, ?_, ?_, ?_⟩
    · rw [List.countP_cons, List.countP_append, hdone.calls, hcalls, Nat.zero_add]
      rfl
    · rw [hcount, hsplit, Nat.add_eq_zero_iff, hnew, haccepts, hu]
      constructor
      · rintro ⟨hfull | hk, hfull' | hrest⟩
        · exact .inl hfull
        · exact .inl hfull
        · have := hnew.mpr (.inr hk)
          exact .inl (by omega)
        · exact .inr ⟨hk, hrest⟩
      · rintro (hfull | ⟨hk, hrest⟩)
        · exact ⟨.inl hfull, .inl (by omega)⟩
        · exact ⟨.inr hk, .inr hrest⟩
    · intro h0 saved tail
      rw [hcount] at h0
      have hnil : new = [] := List.length_eq_zero_iff.mp (by omega)
      rw [Region.slots_succ, List.cons_append, List.append_assoc, CleanedUp, List.tail_cons,
        hdone.cleanedUp, hnil, List.nil_append, ← Region.slots_congr hbelow,
        hclean (by omega)]
      exact and_iff_right rfl

/-- `region_end` keeps a log in order, for the arena it finds attached, exactly when none of the
hooks it calls has another accepted. -/
theorem regionEnd_cleanedUp (hopen : r.isOpen = true) (hle : r.numHooks ≤ maxCleanup)
    (hfn : ∀ j < r.numHooks, (r.cleanups j).fn ≠ 0)
    (hvalid : ∀ k, ∀ call ∈ hookCalls k, call.Valid) :
    ∃ r' log, regionEnd maxCleanup hookCalls r = .ok (r', log) ∧
      (CleanedUp r.arena (r.slots r.numHooks) log ↔
        r.numHooks = maxCleanup ∨ ∀ j < r.numHooks, registrations (hookCalls j) = []) := by
  obtain ⟨t, log, ht, hcalls, haccepts, hclean⟩ :=
    regionWalk_eq (k := 0) hopen (Nat.le_refl _) hle hfn hvalid
  simp only [Nat.zero_add] at haccepts
  have hlength : (r.slots r.numHooks).length = r.numHooks := by simp [Region.slots]
  have hend : ∃ tail : List RegionEvent, regionEnd maxCleanup hookCalls r =
      .ok ({ t with numHooks := 0, arena := 0, isOpen := false }, log ++ tail) ∧
      CleanedUp r.arena [] tail ∧ tail.countP RegionEvent.isCall = 0 := by
    by_cases harena : r.arena = 0
    · exact ⟨[], by simp [regionEnd, hopen, ht, harena], ⟨rfl, harena⟩, rfl⟩
    · exact ⟨[.arenaReset r.arena], by simp [regionEnd, hopen, ht, harena],
        ⟨rfl, rfl, rfl, harena⟩, rfl⟩
  obtain ⟨tail, hend, htail, hnocall⟩ := hend
  refine ⟨_, _, hend, ?_⟩
  rw [← haccepts]
  constructor
  · intro h
    have hcount := h.count
    rw [List.countP_append, List.countP_append, hcalls, hnocall, hlength] at hcount
    omega
  · exact fun h => (hclean h r.arena tail).mpr htail

/-- In every lifetime whose calls pass no NULL, every hook that was accepted is called exactly
once, the latest one first, and the arena that `region_end` finds attached is reset once, behind
them all, exactly when the table was full before `region_end` or no hook that it calls registers
another. -/
theorem region_cleanup_iff (maxCleanup self : Nat) (calls : List RegionCall)
    (hookCalls : Nat → List RegionCall) (hself : self ≠ 0) (hvalid : ∀ call ∈ calls, call.Valid)
    (hhooks : ∀ k, ∀ call ∈ hookCalls k, call.Valid) :
    ∃ r log, regionLifetime maxCleanup self calls hookCalls = .ok (r, log) ∧
      (CleanedUp (attachedArena 0 calls) [] log ↔
        maxCleanup ≤ (registrations calls).length ∨
          ∀ k < (registrations calls).length, registrations (hookCalls k) = []) := by
  let r₀ : Region := ⟨self, true, 0, fun _ => ⟨0, 0⟩, 0⟩
  have hbegin : regionBegin self = .ok r₀ := by simp [regionBegin, hself, r₀]
  obtain ⟨r, before, new, hr, hdone⟩ :=
    regionCalls_done (r := r₀) rfl (Nat.zero_le maxCleanup) hvalid
  have hnum : r.numHooks = min maxCleanup (registrations calls).length := by
    rw [hdone.numHooks, Nat.zero_add]
  have hslots : r.slots r.numHooks = new := hdone.slots.trans (List.append_nil new)
  have hfn : ∀ j < r.numHooks, (r.cleanups j).fn ≠ 0 := fun j hj => by
    apply hdone.valid
    rw [← hslots, Region.slots, List.mem_reverse]
    exact List.mem_map_of_mem (List.mem_range.mpr hj)
  have hle : r.numHooks ≤ maxCleanup := by omega
  obtain ⟨t, log, ht, hclean⟩ := regionEnd_cleanedUp hdone.isOpen hle hfn hhooks
  refine ⟨t, before ++ log, ?_, ?_⟩
  · simp only [regionLifetime, hbegin, hr, ht, ok_bind]
  · rw [hdone.cleanedUp, List.append_nil, ← hslots, ← hdone.arena, hclean, hnum]
    rcases Nat.le_total maxCleanup (registrations calls).length with hfull | hroom
    · rw [Nat.min_eq_left hfull]
      exact iff_of_true (.inl rfl) (.inl hfull)
    · rw [Nat.min_eq_right hroom]
      exact or_congr_left ⟨fun h => Nat.le_of_eq h.symm, fun h => Nat.le_antisymm hroom h⟩

/-- A table of eight slots with an arena and one hook that registers nothing. -/
theorem region_cleanup_iff_one : ∃ r log,
    regionLifetime 8 4096 [.attachArena 8192, .register ⟨1, 0⟩] (fun _ => []) = .ok (r, log) ∧
      CleanedUp 8192 [] log := by
  obtain ⟨r, log, hrun, hiff⟩ := region_cleanup_iff 8 4096 [.attachArena 8192, .register ⟨1, 0⟩]
    (fun _ => []) (by decide) (by simp [RegionCall.Valid]) (by simp)
  exact ⟨r, log, hrun, hiff.mpr (.inr fun _ _ => rfl)⟩

/-- A hook that registers another one with success: the second is never called. -/
theorem region_hook_lost : ¬ ∀ (maxCleanup self : Nat) (calls : List RegionCall)
    (hookCalls : Nat → List RegionCall) (r : Region) (log : List RegionEvent),
    regionLifetime maxCleanup self calls hookCalls = .ok (r, log) →
      CleanedUp (attachedArena 0 calls) [] log := by
  intro h
  have hlost := h 8 4096 [.register ⟨1, 0⟩] (fun k => if k = 0 then [.register ⟨2, 0⟩] else [])
    _ _ rfl
  simp [CleanedUp] at hlost

end CanonC
