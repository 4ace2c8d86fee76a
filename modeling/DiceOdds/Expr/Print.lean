import DiceOdds.Decimal.Layout
import DiceOdds.Expr.Basic
import DiceOdds.Token.Kind

/-!
# Expressions written out

Sums and products are spaced and dice are not. No parentheses are added: those of the expression
are all that its reading needs.
-/

namespace DiceOdds.Expr

/-- An operator as it stands between its operands. -/
def operatorChars : Operator → List Char
  | .dice => [Operator.dice.symbol]
  | op => [' ', op.symbol, ' ']

/-- A call of a reduction. -/
def callChars (f : Reduction) (arguments : List Char) : List Char :=
  f.name ++ '(' :: arguments ++ [')']

/-- The characters of an expression. -/
def chars : Expr Float → List Char
  | int n => (toString n).toList
  | decimal x => Layout.literal.number x
  | paren e => '(' :: e.chars ++ [')']
  | binary l op r => l.chars ++ operatorChars op ++ r.chars
  | roll e => callChars .roll e.chars
  | avg e => callChars .avg e.chars
  | prob target e => callChars .prob (target.chars ++ ',' :: ' ' :: e.chars)

/-- The characters of an expression with `rest` after them. A long sum is nested to the left, and
here its beginning is not copied again for every term. -/
def charsBefore : Expr Float → List Char → List Char
  | int n, rest => (toString n).toList ++ rest
  | decimal x, rest => Layout.literal.number x ++ rest
  | paren e, rest => '(' :: e.charsBefore (')' :: rest)
  | binary l op r, rest => l.charsBefore (operatorChars op ++ r.charsBefore rest)
  | roll e, rest => Reduction.roll.name ++ '(' :: e.charsBefore (')' :: rest)
  | avg e, rest => Reduction.avg.name ++ '(' :: e.charsBefore (')' :: rest)
  | prob target e, rest =>
    Reduction.prob.name ++ '(' :: target.charsBefore (',' :: ' ' :: e.charsBefore (')' :: rest))

/-- The characters of an expression come first, and what follows them after. -/
theorem charsBefore_eq (e : Expr Float) (rest : List Char) :
    e.charsBefore rest = e.chars ++ rest := by
  induction e generalizing rest with
  | int n => rfl
  | decimal x => rfl
  | paren e ih => simp only [charsBefore, chars, ih, List.cons_append, List.append_assoc,
      List.nil_append]
  | binary l op r ihl ihr => simp only [charsBefore, chars, ihl, ihr, List.append_assoc]
  | roll e ih => simp only [charsBefore, chars, callChars, ih, List.cons_append,
      List.append_assoc, List.nil_append]
  | avg e ih => simp only [charsBefore, chars, callChars, ih, List.cons_append,
      List.append_assoc, List.nil_append]
  | prob target e iht ihe => simp only [charsBefore, chars, callChars, iht, ihe,
      List.cons_append, List.append_assoc, List.nil_append]

/-- The text of an expression. -/
def print (e : Expr Float) : String := String.ofList (e.charsBefore [])

/-- The text of an expression is its characters. -/
theorem print_eq_ofList_chars (e : Expr Float) : e.print = String.ofList e.chars := by
  rw [print, charsBefore_eq, List.append_nil]

end DiceOdds.Expr
