import Mathlib.Data.Int.CardIntervalMod
import Mathlib.Data.Nat.Periodic

/-!
# Rejection sampling

Of `n` equally likely draws the least `n % b` are rejected. The rest are a whole number of
periods of the remainder by `b`, so each remainder is left by as many draws as another.
-/

namespace Toolkit.Rejection

variable {n b r : Nat}

/-- The draws that are not rejected. -/
def accepted (n b : Nat) : Finset Nat := Finset.Ico (n % b) n

/-- Each remainder is left by the same number of accepted draws. -/
theorem card_accepted_filter (hr : r < b) :
    ((accepted n b).filter (· % b = r)).card = n / b := by
  have hperiod : Function.Periodic (fun x => x ≡ r [MOD b]) (b * (n / b)) := by
    intro x
    simp only [Nat.ModEq, Nat.add_mul_mod_self_left]
  have hinterval : accepted n b = Finset.Ico (n % b) (n % b + b * (n / b)) := by
    rw [accepted, Nat.mod_add_div]
  have hfilter : ((accepted n b).filter (· % b = r)) =
      (accepted n b).filter (· ≡ r [MOD b]) :=
    Finset.filter_congr fun x _ => by rw [Nat.ModEq, Nat.mod_eq_of_lt hr]
  rw [hfilter, hinterval, Nat.filter_Ico_card_eq_of_periodic _ _ _ hperiod,
    Nat.count_modEq_card _ (Nat.zero_lt_of_lt hr), Nat.mul_mod_right, if_neg (Nat.not_lt_zero _),
    Nat.mul_div_cancel_left _ (Nat.zero_lt_of_lt hr), Nat.add_zero]

/-- At least half of the draws are accepted. -/
theorem half_le_card_accepted (hb : 0 < b) (hn : b ≤ n) : n ≤ 2 * (accepted n b).card := by
  have hmod := Nat.mod_lt n hb
  have hperiods := Nat.mul_le_mul_left b (Nat.div_pos hn hb)
  have hsplit := Nat.mod_add_div n b
  rw [accepted, Nat.card_Ico]
  omega

end Toolkit.Rejection
