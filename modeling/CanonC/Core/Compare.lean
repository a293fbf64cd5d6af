import CanonC.Core.Types
import Mathlib.Order.Lattice
import Mathlib.Data.Int.Order.Basic

/-!
# Three-way comparators

The comparison function type of sorting and of the ordered containers. Elements are
compared through a caller context, and the sign of the result is all that is read.
-/

namespace CanonC

/-- `algo_cmp_fn`: negative if the first element is before the second, zero if they
are level, positive if it is after. -/
abbrev AlgoCmpFn (α Ctx : Type*) := α → α → Ctx → Int

/-- `algo_cmp_fn` with the context as a call leaves it. A comparator whose answers depend on the
addresses of its arguments or on anything else follows the calls in its context. -/
abbrev AlgoCmpProc (α Ctx : Type*) := α → α → Ctx → Int × Ctx

/-- From a context in `I` on, the comparator only gives the answers that `may` allows: whether the
first element may stand before the second. -/
structure AlgoCmpProc.Answers {α Ctx : Type*} (cmp : AlgoCmpProc α Ctx) (I : Ctx → Prop)
    (may : α → α → Bool → Prop) : Prop where
  /-- The answer is allowed. -/
  answer : ∀ {ctx}, I ctx → ∀ a b, may a b (decide ((cmp a b ctx).1 ≤ 0))
  /-- The next answers are allowed too. -/
  keep : ∀ {ctx}, I ctx → ∀ a b, I (cmp a b ctx).2

/-- Every comparator gives some answer. -/
theorem AlgoCmpProc.answers_any {α Ctx : Type*} (cmp : AlgoCmpProc α Ctx) :
    cmp.Answers (fun _ => True) fun _ _ _ => True := ⟨fun _ _ _ => trivial, fun _ _ _ => trivial⟩

namespace AlgoCmpFn

variable {α Ctx : Type*}

/-- The comparator as a procedure that leaves its context alone. -/
def call (cmp : AlgoCmpFn α Ctx) : AlgoCmpProc α Ctx := fun a b ctx => (cmp a b ctx, ctx)

/-- The first element is not after the second. -/
def Le (cmp : AlgoCmpFn α Ctx) (ctx : Ctx) (a b : α) : Prop := cmp a b ctx ≤ 0

/-- `Le` as the code tests it. -/
def test (cmp : AlgoCmpFn α Ctx) (ctx : Ctx) (a b : α) : Bool := decide (cmp a b ctx ≤ 0)

/-- Called with one context, the comparator answers by one test. -/
theorem call_answers (cmp : AlgoCmpFn α Ctx) (ctx : Ctx) :
    cmp.call.Answers (· = ctx) fun a b first => cmp.test ctx a b = first where
  answer h _ _ := by rw [h]; rfl
  keep h _ _ := h

/-- The comparator is a total preorder. -/
structure TotalPreorder (cmp : AlgoCmpFn α Ctx) (ctx : Ctx) : Prop where
  /-- Exchanging the arguments flips the sign. -/
  flip : ∀ a b, cmp a b ctx < 0 ↔ 0 < cmp b a ctx
  /-- Not being after is transitive. -/
  trans : ∀ a b c, cmp a b ctx ≤ 0 → cmp b c ctx ≤ 0 → cmp a c ctx ≤ 0

namespace TotalPreorder

variable {cmp : AlgoCmpFn α Ctx} {ctx : Ctx}

/-- Of two elements one is not after the other. -/
theorem le_of_not_le (h : cmp.TotalPreorder ctx) {a b : α} (hab : ¬ cmp.Le ctx a b) :
    cmp.Le ctx b a := by
  unfold Le at *
  have hflip := (h.flip b a).mpr (by omega)
  omega

/-- An element before another is exactly one that the other is not before or level with. -/
theorem lt_iff_not_le (h : cmp.TotalPreorder ctx) {a b : α} :
    cmp a b ctx < 0 ↔ ¬ cmp.Le ctx b a := by
  rw [h.flip]
  exact Int.not_le.symm

/-- Every element is level with itself. -/
theorem le_refl (h : cmp.TotalPreorder ctx) (a : α) : cmp.Le ctx a a := by
  by_contra hn
  exact hn (h.le_of_not_le hn)

/-- The order of a total preorder is transitive. -/
theorem le_trans (h : cmp.TotalPreorder ctx) (a b c : α) (hab : cmp.Le ctx a b)
    (hbc : cmp.Le ctx b c) : cmp.Le ctx a c := h.trans a b c hab hbc

end TotalPreorder

end AlgoCmpFn

/-- The built-in ascending comparators `algo_cmp_*`: `(x > y) - (x < y)`. -/
def algoCmp {α Ctx : Type*} [LinearOrder α] : AlgoCmpFn α Ctx := fun x y _ =>
  (if x > y then 1 else 0) - (if x < y then 1 else 0)

/-- The built-in descending comparators `algo_cmp_*_desc`. -/
def algoCmpDesc {α Ctx : Type*} [LinearOrder α] : AlgoCmpFn α Ctx := fun x y ctx => algoCmp y x ctx

section BuiltIn

variable {α Ctx : Type*} [LinearOrder α] {ctx : Ctx} {a b : α}

/-- The generated comparator is negative below. -/
theorem algoCmp_neg_iff : algoCmp a b ctx < 0 ↔ a < b := by
  rcases lt_trichotomy a b with h | rfl | h
  · simp [algoCmp, h, h.not_gt]
  · simp [algoCmp]
  · simp [algoCmp, h, h.not_gt]

/-- The generated comparator is not positive where the first is not above. -/
theorem algoCmp_nonpos_iff : algoCmp a b ctx ≤ 0 ↔ a ≤ b := by
  rcases lt_trichotomy a b with h | rfl | h
  · simp [algoCmp, h, h.not_gt, h.le]
  · simp [algoCmp]
  · simp [algoCmp, h, h.not_gt, h.not_ge]

/-- The ascending comparators are total preorders. -/
theorem algoCmp_totalPreorder : (algoCmp : AlgoCmpFn α Ctx).TotalPreorder ctx where
  flip a b := by
    rw [algoCmp_neg_iff, ← Int.not_le, algoCmp_nonpos_iff]
    exact not_le.symm
  trans a b c := by
    rw [algoCmp_nonpos_iff, algoCmp_nonpos_iff, algoCmp_nonpos_iff]
    exact fun hab hbc => hab.trans hbc

/-- The descending comparators are total preorders. -/
theorem algoCmpDesc_totalPreorder : (algoCmpDesc : AlgoCmpFn α Ctx).TotalPreorder ctx where
  flip a b := algoCmp_totalPreorder.flip b a
  trans a b c hab hbc := algoCmp_totalPreorder.trans c b a hbc hab

end BuiltIn

end CanonC
