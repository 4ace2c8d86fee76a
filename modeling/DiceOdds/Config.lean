import DiceOdds.Evaluation.Limits
import DiceOdds.Roller.Seeded

/-!
# Settings of an evaluation
-/

namespace DiceOdds

/-- The limits of an evaluation and the seed of its draws. -/
structure Config where
  /-- The caps on dice and outcomes. -/
  limits : Limits := {}
  /-- The seed that makes results reproducible; without one the draws come from elsewhere. -/
  seed : Option UInt64 := none
  deriving Repr, DecidableEq

/-- The roller of a configuration. `entropy` is the seed where the configuration has none. -/
def Config.roller (c : Config) (entropy : UInt64) : Roller := .seeded (c.seed.getD entropy)

end DiceOdds
