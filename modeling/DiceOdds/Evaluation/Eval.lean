import DiceOdds.Evaluation.Operations
import DiceOdds.Expr.Parse

/-!
# The value of an expression

An expression is evaluated to a distribution from the inside out and from left to right, drawing
only where an operation needs a number. Its value is then one outcome of that distribution.
-/

namespace DiceOdds

variable {α : Type} [Arithmetic α]

/-- The distribution of an expression. -/
@[specialize] def Expr.eval [Memory] (limits : Limits) : Expr α → Evaluated α (Distribution α)
  | int n => pure (.certain (Arithmetic.ofInt n))
  | decimal x => pure (.certain x)
  | paren e => e.eval limits
  | binary l op r => do
    let left ← l.eval limits
    let right ← r.eval limits
    limits.operate op left right
  | roll e => do (← e.eval limits).roll
  | avg e => do (← e.eval limits).avg
  | prob target e => do
    let target ← target.eval limits
    let d ← e.eval limits
    target.prob d

/-- A value, and the distribution that it was drawn from. -/
structure Outcome (α : Type) where
  /-- The distribution of the expression. -/
  distribution : Distribution α
  /-- The outcome drawn. -/
  value : α
  deriving Repr, BEq

/-- The distribution of an expression and one outcome of it. -/
@[specialize] def Expr.evaluate [Memory] (limits : Limits) (e : Expr α) :
    Evaluated α (Outcome α) := do
  let d ← e.eval limits
  return ⟨d, ← d.resolve⟩

/-- Why a text has no value. -/
inductive TextError (α : Type) where
  /-- The text is no expression. -/
  | parse (e : ParseError)
  /-- The expression cannot be evaluated. -/
  | roll (e : RollError α)
  deriving Repr, DecidableEq

/-- What went wrong, for the reader of a message. -/
def TextError.message : TextError Float → String
  | parse e => e.message
  | roll e => e.message

/-- The distribution of the expression that a text is. -/
@[specialize] def evalText [Memory] (limits : Limits) (text : String) :
    Rolling (TextError α) (Distribution α) := do
  let e : Expr α ← .ofExcept ((Expr.parse text).mapError .parse)
  (e.eval limits).mapError .roll

/-- The value of the expression that a text is. -/
@[specialize] def rollText [Memory] (limits : Limits) (text : String) :
    Rolling (TextError α) (Outcome α) := do
  let e : Expr α ← .ofExcept ((Expr.parse text).mapError .parse)
  (e.evaluate limits).mapError .roll

end DiceOdds
