/-!
# Kinds of tokens
-/

namespace DiceOdds

/-- The operations that an expression calls by name. -/
inductive Reduction where
  /-- Collapse a distribution to one of its outcomes. -/
  | roll
  /-- The mean of a distribution. -/
  | avg
  /-- The probability of a value. -/
  | prob
  deriving Repr, DecidableEq

/-- The name of a reduction, as it stands in an expression. -/
def Reduction.name : Reduction → List Char
  | roll => ['r', 'o', 'l', 'l']
  | avg => ['a', 'v', 'g']
  | prob => ['p', 'r', 'o', 'b']

/-- What a piece of an expression's text is. -/
inductive TokenKind where
  /-- A row of digits. -/
  | integer
  /-- Digits with a point before, among or after them. -/
  | decimal
  /-- The letter that asks for dice, small or capital. -/
  | dice
  /-- `(` -/
  | leftParen
  /-- `)` -/
  | rightParen
  /-- `,` -/
  | comma
  /-- `+` -/
  | plus
  /-- `*` -/
  | star
  /-- The name of a reduction. -/
  | reduction (f : Reduction)
  /-- A character that begins no other token. -/
  | error
  deriving Repr, DecidableEq

namespace TokenKind

/-- How messages name a kind: tokens of one form by that form in quotes. -/
def describe : TokenKind → String
  | integer => "<integer>"
  | decimal => "<decimal>"
  | dice => "'d'"
  | leftParen => "'('"
  | rightParen => "')'"
  | comma => "','"
  | plus => "'+'"
  | star => "'*'"
  | reduction f => "'" ++ String.ofList f.name ++ "'"
  | error => "<error>"

/-- A list of alternatives in words: two are joined by "or", more are set off by commas. -/
def describeAny : List TokenKind → String
  | [] => ""
  | [a] => a.describe
  | [a, b] => a.describe ++ " or " ++ b.describe
  | kinds =>
    String.join (kinds.dropLast.map fun k => k.describe ++ ", ") ++ "or " ++
      String.join (kinds.getLast?.toList.map describe)

end TokenKind

end DiceOdds
