import DiceOdds.Distribution.Basic

/-!
# The probability of one value

The slot of a value is found from its distance to the constant: a value at distance `n` is the
outcome of slot `n - 1`. Values at a distance that is not whole, and values outside the table,
have probability 0 whether or not the table weighs anything.
-/

namespace DiceOdds.Distribution

open Arithmetic

variable {α : Type} [Arithmetic α]

/-- The weight in slot `i`. Reading past the end of the table is a fault. -/
def weightAt (d : Distribution α) (i : Nat) : Except (DistributionError α) α :=
  match d.weights[i]? with
  | some w => .ok w
  | none => .error (.fault (.pastTable i d.size))

/-- The probability that `d` gives exactly `value`. -/
def probabilityOf (d : Distribution α) (value : α) : Except (DistributionError α) α := do
  if d.isCertain then
    return if value == d.constant then ofNat 1 else ofNat 0
  -- The upper end is checked on the value and the lower on the distance: with a large constant
  -- the two may round differently, and the slot may lie past the table.
  let distance := value - d.constant
  if !(ofNat 0 < distance && value ≤ d.maxValue) || !isWhole distance then
    return ofNat 0
  let total ← d.normalizer
  return (← d.weightAt (toWord distance - 1)) / total

/-- Lookup in a table passes three tests before it divides a weight by the total. -/
theorem probabilityOf_of_isUncertain {d : Distribution α} (h : d.isCertain = false) (v : α) :
    d.probabilityOf v =
      if ofNat 0 < v - d.constant ∧ v ≤ d.maxValue ∧ isWhole (v - d.constant) then
        d.normalizer.bind fun total =>
          (d.weightAt (toWord (v - d.constant) - 1)).map (· / total)
      else .ok (ofNat 0) := by
  have hiff : (!(decide (ofNat 0 < v - d.constant) && decide (v ≤ d.maxValue)) ||
      !isWhole (v - d.constant)) = true ↔
      ¬ (ofNat 0 < v - d.constant ∧ v ≤ d.maxValue ∧ isWhole (v - d.constant)) := by
    rw [← Bool.not_and, Bool.not_eq_true', ← Bool.not_eq_true, Bool.and_eq_true, Bool.and_eq_true,
      decide_eq_true_eq, decide_eq_true_eq, and_assoc]
  unfold probabilityOf
  simp only [h, hiff, Bool.false_eq_true, if_false]
  by_cases htests : ofNat 0 < v - d.constant ∧ v ≤ d.maxValue ∧ isWhole (v - d.constant)
  · rw [if_pos htests, if_neg (not_not_intro htests)]
    cases d.normalizer with
    | error => rfl
    | ok =>
      cases d.weightAt (toWord (v - d.constant) - 1) with
      | error => rfl
      | ok => rfl
  · rw [if_neg htests, if_pos htests]
    rfl

end DiceOdds.Distribution
