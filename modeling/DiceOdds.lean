import DiceOdds.Arithmetic.Rational
import DiceOdds.Main
import DiceOdds.Expr.Print
import DiceOdds.Workbench
import DiceOdds.Proofs.Evaluation.Lookups
import DiceOdds.Proofs.Evaluation.Meaning
import DiceOdds.Proofs.Evaluation.Values
import DiceOdds.Proofs.Sampling.Doubles
import DiceOdds.Proofs.Sampling.Frequency
import DiceOdds.Proofs.Sampling.Reach
import DiceOdds.Proofs.Grammar.Parse
import DiceOdds.Proofs.Lookup.Slots
import DiceOdds.Proofs.Grammar.Errors
import DiceOdds.Proofs.Binary64.Counts
import DiceOdds.Proofs.Evaluation.TableSize
import DiceOdds.Proofs.Binary64.Scientific
import DiceOdds.Proofs.Decimal.Shortest
import DiceOdds.Proofs.Decimal.Layout
import DiceOdds.Proofs.Grammar.Shape
import DiceOdds.Proofs.Grammar.Writing
import DiceOdds.Proofs.Grammar.Printing
import DiceOdds.Proofs.Grammar.Spacing
import DiceOdds.Proofs.Evaluation.Drawless
import DiceOdds.Proofs.Evaluation.Failures
import DiceOdds.Proofs.Evaluation.SimilarBenches
import DiceOdds.Proofs.Evaluation.Memory
import DiceOdds.Proofs.Law.Pairs
import DiceOdds.Proofs.Law.Mean
import DiceOdds.Proofs.ProductBound
import DiceOdds.Proofs.Sampling.Halving
import DiceOdds.Proofs.Sampling.Monotone
import DiceOdds.Proofs.CommandLine.Input
import DiceOdds.Proofs.Binary64.Infinity
