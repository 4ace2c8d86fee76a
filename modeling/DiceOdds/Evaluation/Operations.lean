import DiceOdds.Distribution.Lookup
import DiceOdds.Distribution.Mean
import DiceOdds.Distribution.Product
import DiceOdds.Distribution.Sum
import DiceOdds.Evaluation.Limits
import DiceOdds.Expr.Basic
import DiceOdds.Sampling.Draw

/-!
# The operations of an expression

Every operator and reduction of an expression takes distributions to a distribution. Those that
need a number where they are given an uncertain distribution draw one. The operations that build
tables do so within limits: the size is known before the table is built, and a table that is too
large is never begun.
-/

namespace DiceOdds

open Arithmetic

variable {α : Type} [Arithmetic α]

/-- What an operation of an expression gives: it may draw, and it may fail. -/
abbrev Evaluated (α β : Type) := Rolling (RollError α) β

namespace Distribution

/-- A number that `d` resolves to: its constant, or an outcome drawn from its table. -/
@[specialize] def resolve (d : Distribution α) : Evaluated α α := d.sample.mapError .distribution

/-- A certain distribution at the number that `d` resolves to. -/
@[specialize] def roll (d : Distribution α) : Evaluated α (Distribution α) := do
  if d.isCertain then
    return d
  return certain (← d.resolve)

/-- A certain distribution at the mean of `d`. -/
@[specialize] def avg (d : Distribution α) : Evaluated α (Distribution α) :=
  .ofExcept (d.mean.mapError .distribution)

/-- A certain distribution at the probability that `d` gives the number that `target` resolves
to. -/
@[specialize] def prob (target d : Distribution α) : Evaluated α (Distribution α) := do
  let value ← target.resolve
  return certain (← .ofExcept ((d.probabilityOf value).mapError .distribution))

/-- The count of dice or faces that `d` resolves to, rounded to a whole number. -/
@[specialize] def diceCount (d : Distribution α) : Evaluated α Nat := do
  let value ← d.resolve
  let rounded := roundHalfAway value
  if ofNat 0 ≤ rounded && isFinite rounded then
    return toWord rounded
  -- The error shows the value as it was drawn, before rounding.
  throw (.invalidDice value)

end Distribution

namespace Limits

/-- Fails if a table of `outcomes` slots exceeds the cap. -/
@[specialize] def checkOutcomes (limits : Limits) (outcomes : α) : Except (RollError α) Unit :=
  match limits.maxOutcomes with
  | some limit =>
    if ofNat limit < outcomes then .error (.tooManyOutcomes outcomes limit) else .ok ()
  | none => .ok ()

/-- An error of building a table: a table that no memory can hold exceeds every cap. -/
def tableError (limits : Limits) : DistributionError α → RollError α
  | .tableTooLarge outcomes => .tooManyOutcomes outcomes (limits.maxOutcomes.getD wordMax)
  | e => .distribution e

variable [Memory]

/-- The product of two independent distributions. -/
@[specialize] def times (limits : Limits) (d e : Distribution α) :
    Except (RollError α) (Distribution α) := do
  if d.isUncertain || e.isUncertain then
    limits.checkOutcomes (d.productBound e)
  (Distribution.times d e).mapError limits.tableError

/-- The sum of `count` dice with `faces` faces each. Without dice or without faces nothing is
built, and no cap applies. -/
@[specialize] def diceTable (limits : Limits) (count faces : Nat) :
    Except (RollError α) (Distribution α) := do
  if count = 0 || faces = 0 then
    return .certain (ofNat 0)
  -- Of two caps that are exceeded, that on dice is reported.
  if let some limit := limits.maxDice then
    if limit < count then
      throw (.tooManyDice count limit)
  limits.checkOutcomes (ofNat count * ofNat faces)
  (Distribution.uniformSum count faces).mapError limits.tableError

/-- As many dice as `d` resolves to, with as many faces as `e` resolves to. The operands are
drawn first, so this is the table of one roll and not a mixture over all counts. -/
@[specialize] def dice (limits : Limits) (d e : Distribution α) :
    Evaluated α (Distribution α) := do
  -- The count is drawn before the faces.
  let count ← d.diceCount
  let faces ← e.diceCount
  .ofExcept (limits.diceTable count faces)

/-- The distribution of two distributions joined by an operator. The table of a sum is no larger
than those of its operands together, so no cap applies to it. -/
@[specialize] def operate (limits : Limits) (op : Operator) (d e : Distribution α) :
    Evaluated α (Distribution α) :=
  match op with
  | .plus => .ofExcept ((d.add e).mapError .distribution)
  | .times => .ofExcept (limits.times d e)
  | .dice => limits.dice d e

end Limits

end DiceOdds
