import CanonC.Core.Lifetime
import CanonC.Toolkit.Run
import Mathlib.Logic.Function.Basic

/-!
# Identifiers captured before a restamp

All owners of a translation unit draw from one counter. Two draws of one owner at different
counter values give different identifiers, unless one of them is the value that would give
the identifier of static data and the other gives the replacement of it directly.
-/

namespace CanonC

open Toolkit

/-- The token of an owner, with the counter value of the last draw. -/
structure StampedToken where
  lt : LifetimeT
  /-- The counter stood here at the draw. -/
  drawnAt : Nat

/-- What a borrow captured of its owner. -/
structure CapturedId where
  /-- Address of the owner. -/
  owner : Nat
  id : Nat
  /-- The counter stood here when the identifier was drawn. -/
  drawnAt : Nat
  /-- The owner has drawn again since. -/
  restamped : Bool

/-- The counter of a translation unit, its owners and the borrows from them. -/
structure StampWorld where
  counter : Nat
  /-- Number of draws so far. -/
  draws : Nat
  /-- The tokens of the owners, by address. -/
  tokens : Nat → Option StampedToken
  /-- The identifiers captured. -/
  borrows : List CapturedId

/-- A borrow after its owner or another one has drawn. -/
def CapturedId.draw (owner : Nat) (b : CapturedId) : CapturedId :=
  { b with restamped := b.restamped || b.owner = owner }

/-- The world after a draw of an owner, whose token is now the given one. -/
def StampWorld.draw (w : StampWorld) (owner : Nat) (lt : LifetimeT) : StampWorld where
  counter := (w.counter + 1) % 2 ^ 64
  draws := w.draws + 1
  tokens := Function.update w.tokens owner (some ⟨lt, w.counter⟩)
  borrows := w.borrows.map (CapturedId.draw owner)

/-- A translation unit in which nothing was drawn. -/
def StampWorld.start : StampWorld := ⟨1, 0, fun _ => none, []⟩

/-- While the counter has not wrapped, every draw of an owner was at a counter value of its own. -/
structure StampWorld.Sound (w : StampWorld) : Prop where
  /-- The counter starts at one. -/
  counter_eq : w.counter = (w.draws + 1) % 2 ^ 64
  /-- A token has the identifier of its draw, which was one of those so far. -/
  tokens : ∀ owner t, w.tokens owner = some t →
    t.lt.id = canonLifetimeNextId t.drawnAt owner ∧ t.drawnAt ≤ w.draws
  /-- So has a borrow, and its owner has drawn since exactly when it is marked. -/
  borrows : ∀ b ∈ w.borrows, b.id = canonLifetimeNextId b.drawnAt b.owner ∧
    ∃ t, w.tokens b.owner = some t ∧ b.drawnAt ≤ t.drawnAt ∧
      (b.restamped = true → b.drawnAt < t.drawnAt)

variable {w w' : StampWorld}

/-- A draw keeps the tokens and the borrows apart, while the counter does not wrap. -/
theorem StampWorld.Sound.draw (hw : w.Sound) (hdraws : w.draws + 1 < 2 ^ 64) {owner : Nat}
    {lt : LifetimeT} (hlt : lt.id = canonLifetimeNextId w.counter owner) :
    (w.draw owner lt).Sound := by
  have hcounter : w.counter = w.draws + 1 := by
    rw [hw.counter_eq, Nat.mod_eq_of_lt hdraws]
  refine ⟨?_, fun a t ht => ?_, fun b hb => ?_⟩
  · simp only [StampWorld.draw, hcounter]
  · simp only [StampWorld.draw, Function.update_apply] at ht ⊢
    split_ifs at ht with ha
    · obtain rfl := Option.some.inj ht
      rw [ha]
      exact ⟨hlt, Nat.le_of_eq hcounter⟩
    · obtain ⟨hid, hle⟩ := hw.tokens a t ht
      exact ⟨hid, by omega⟩
  · obtain ⟨b, hmem, rfl⟩ := List.mem_map.mp hb
    obtain ⟨hid, t, ht, hle, hlt⟩ := hw.borrows b hmem
    obtain ⟨-, hbound⟩ := hw.tokens b.owner t ht
    refine ⟨hid, ?_⟩
    simp only [CapturedId.draw, StampWorld.draw, Function.update_apply]
    by_cases ha : b.owner = owner
    · rw [if_pos ha]
      exact ⟨_, rfl, by dsimp only; omega, fun _ => by dsimp only; omega⟩
    · rw [if_neg ha]
      exact ⟨t, ht, hle, by simpa [ha] using hlt⟩

end CanonC
