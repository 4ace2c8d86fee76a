import DiceOdds.Distribution.Basic
import DiceOdds.Roller
import DiceOdds.Sampling.RunningSums

/-!
# Drawing a weighted index

One draw scaled by the total weight could not tell apart outcomes less likely than one in
`2 ^ 32`. So a table is cut in two again and again, near the middle of its weight, and every draw
decides between two parts only. A section of one slot is the answer and takes no draw.
-/

namespace DiceOdds

open Arithmetic

variable {α : Type} [Arithmetic α]

namespace RunningSums

/-- The draws below this number choose the first part, when a section of weight `weight` is cut
into parts of which the first weighs `first`. -/
@[inline] def threshold (first weight : α) : α := first / weight * ofNat 4294967296

/-- Narrows the section from `start` to `stop`, of weight `weight`, down to one slot. -/
@[specialize] def narrow (s : RunningSums α) (start stop : Nat) (weight : α) : StateM Roller Nat :=
  if h : start < stop then do
    let cut := s.divider start stop weight
    have := s.le_divider weight h
    have := s.divider_lt weight h
    let first := s.sectionWeight start cut
    -- Low draws choose the first part, which holds the lower slots.
    if ofNat (← Roller.draw).toNat < threshold first weight then s.narrow start cut first
    else s.narrow (cut + 1) stop (s.sectionWeight (cut + 1) stop)
  else return start
termination_by stop - start

end RunningSums

/-- An index of `weights`, drawn with a probability in proportion to its weight. -/
@[specialize] def sampleIndex (weights : Array α) : Rolling (DistributionError α) Nat :=
  let sums := RunningSums.ofWeights weights
  if isPositiveFinite sums.total then
    ExceptT.lift (sums.narrow 0 (weights.size - 1) sums.total)
  else throw (.zeroWeight sums.total)

/-- One outcome of a distribution, drawn with its probability. A certain distribution gives its
constant and takes no draw. -/
@[specialize] def Distribution.sample (d : Distribution α) : Rolling (DistributionError α) α := do
  if d.isCertain then
    return d.constant
  return d.outcome (← sampleIndex d.weights)

end DiceOdds
