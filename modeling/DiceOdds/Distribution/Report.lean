import DiceOdds.Arithmetic.Binary64
import DiceOdds.Decimal.Fixed
import DiceOdds.Decimal.Layout
import DiceOdds.Distribution.Basic

/-!
# Distributions and their errors in words
-/

namespace DiceOdds

namespace DistributionError

/-- What went wrong, for the reader of a message. -/
def message : DistributionError Float → String
  | zeroWeight total =>
    "distribution has no weight to normalize or sample from (total weight " ++
      valueText total ++ ")"
  | productOutOfRange value size =>
    "product outcome " ++ valueText value ++ " does not fit a table of " ++ toString size ++
      " outcomes"
  | tableTooLarge outcomes =>
    "a table of " ++ valueText outcomes ++ " outcomes cannot be allocated"
  | fault (.tableCapacity size) =>
    "a table of " ++ toString size ++ " outcomes is beyond memory"
  | fault (.pastTable slot size) =>
    "slot " ++ toString slot ++ " of a table of " ++ toString size ++ " outcomes was read"

end DistributionError

namespace Distribution

/-- One line of a table: an outcome and its probability with six places. -/
def reportLine (total : Float) (entry : Float × Float) : String :=
  -- A table without weight has no probabilities to show.
  let p := if total == 0 then 0 else entry.2 / total
  valueText entry.1 ++ ": " ++ fixedText 6 p

/-- A distribution for the eye: its constant, or a line for every slot of its table. -/
def report (d : Distribution Float) : String :=
  if d.isCertain then "constant: " ++ valueText d.constant
  else "\n".intercalate (d.outcomes.toList.map (reportLine d.totalWeight))

end Distribution

end DiceOdds
