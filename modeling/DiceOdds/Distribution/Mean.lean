import DiceOdds.Distribution.Basic

/-!
# The mean of a distribution
-/

namespace DiceOdds.Distribution

open Arithmetic

variable {α : Type} [Arithmetic α]

/-- The sum of the outcomes, each multiplied by its weight. -/
def weightedSum (d : Distribution α) : α := sum (d.outcomes.map fun (v, w) => v * w)

/-- The mean of the outcomes of `d`, as a certain distribution. A certain distribution is its own
mean. -/
def mean (d : Distribution α) : Except (DistributionError α) (Distribution α) := do
  if d.isCertain then
    return d
  let total ← d.normalizer
  return certain (d.weightedSum / total)

end DiceOdds.Distribution
