/-!
# Dice expressions
-/

namespace DiceOdds

/-- The operators that join two expressions. -/
inductive Operator where
  /-- The sum, written `+`. -/
  | plus
  /-- The product, written `*`. -/
  | times
  /-- So many dice with so many faces, written `d`. -/
  | dice
  deriving Repr, DecidableEq

/-- The character that an operator is written with. -/
def Operator.symbol : Operator → Char
  | plus => '+'
  | times => '*'
  | dice => 'd'

/-- A dice expression. Parentheses are kept, so that an expression can be written as it was
read. -/
inductive Expr (α : Type) where
  /-- A whole number. -/
  | int (n : Int)
  /-- A number with a point. -/
  | decimal (x : α)
  /-- An expression in parentheses. -/
  | paren (e : Expr α)
  /-- Two expressions joined by an operator. -/
  | binary (left : Expr α) (op : Operator) (right : Expr α)
  /-- One outcome of an expression, drawn. -/
  | roll (e : Expr α)
  /-- The mean of an expression. -/
  | avg (e : Expr α)
  /-- The probability that an expression has the value of another. -/
  | prob (target e : Expr α)
  deriving Repr, BEq

end DiceOdds
