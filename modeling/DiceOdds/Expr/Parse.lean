import DiceOdds.Arithmetic
import DiceOdds.Expr.Basic
import DiceOdds.Expr.ParseError

/-!
# Reading an expression

An expression is read token by token in one pass. What has been read so far is a `ParseState`:
the brackets that are open, and for each of them the operands that wait for their right-hand
side. Sums bind weaker than products and products weaker than dice, and all three group to the
left, so at each level at most one operand of each operator waits.

A token that does not fit is reported at once, so the tokens before an error can always be
continued to an expression.
-/

namespace DiceOdds

open Arithmetic

/-- The largest integer that an expression may contain. -/
def maxInteger : Nat := 0x7fffffffffffffff

/-! ## What waits at one level -/

/-- The operands at one level that wait for their right-hand side. -/
structure Pending (α : Type) where
  /-- The left operand of a sum. -/
  sum : Option (Expr α) := none
  /-- The left operand of a product. -/
  product : Option (Expr α) := none
  /-- The left operand of dice. -/
  dice : Option (Expr α) := none

namespace Pending

variable {α : Type}

/-- A waiting left operand joined with its right operand. -/
def join (op : Operator) (left : Option (Expr α)) (right : Expr α) : Expr α :=
  match left with
  | none => right
  | some l => .binary l op right

/-- The dice that a term completes. -/
def toDice (p : Pending α) (term : Expr α) : Expr α := join .dice p.dice term

/-- The product that complete dice belong to. -/
def toProduct (p : Pending α) (dice : Expr α) : Expr α := join .times p.product dice

/-- The sum that complete dice belong to. -/
def toSum (p : Pending α) (dice : Expr α) : Expr α := join .plus p.sum (p.toProduct dice)

end Pending

/-! ## Open brackets -/

/-- A bracket that is open, with what was read since the one around it. -/
inductive Bracket (α : Type) where
  /-- A parenthesis around an expression. -/
  | paren
  /-- The call of `roll`. -/
  | roll
  /-- The call of `avg`. -/
  | avg
  /-- The call of `prob`, before its comma. -/
  | target
  /-- The call of `prob` after its comma. -/
  | prob (target : Expr α)

namespace Bracket

variable {α : Type}

/-- The bracket that the call of a reduction opens. -/
def ofReduction : Reduction → Bracket α
  | .roll => roll
  | .avg => avg
  | .prob => target

/-- The token that ends the expression in a bracket. -/
def closer : Bracket α → TokenKind
  | target => .comma
  | _ => .rightParen

end Bracket

/-- A bracket that is open, and what waits in front of it. -/
structure Level (α : Type) where
  /-- The bracket. -/
  bracket : Bracket α
  /-- The operands that wait for what it holds. -/
  pending : Pending α

/-! ## Token by token -/

/-- What has been read of an expression: the open brackets from the innermost outward, and the
state of reading inside the innermost. -/
inductive ParseState (α : Type) where
  /-- A term has to follow. -/
  | operand (outer : List (Level α)) (pending : Pending α)
  /-- The name of a reduction was read, and its parenthesis has to follow. -/
  | call (outer : List (Level α)) (pending : Pending α) (f : Reduction)
  /-- Complete dice were read. -/
  | operator (outer : List (Level α)) (pending : Pending α) (dice : Expr α)

namespace ParseState

variable {α : Type} [Arithmetic α]

/-- Nothing has been read. -/
def start : ParseState α := operand [] {}

/-- The kinds of tokens that a term starts with. -/
def termStarts : List TokenKind :=
  [.integer, .decimal, .leftParen, .reduction .roll, .reduction .avg, .reduction .prob]

/-- The kinds of tokens that join operands. -/
def operators : List TokenKind := [.plus, .star, .dice]

/-- The number that a row of digits stands for. -/
def integerValue (text : List Char) : Nat := Nat.ofDigitChars 10 text 0

/-- The number that digits with a point stand for. -/
def decimalValue (text : List Char) : α :=
  let whole := text.takeWhile Char.isDigit
  let places := text.drop (whole.length + 1)
  ofDecimal (integerValue (whole ++ places)) places.length

/-- A term has been read. -/
def term (outer : List (Level α)) (pending : Pending α) (e : Expr α) : ParseState α :=
  operator outer pending (pending.toDice e)

/-- The state after a token where a term has to follow. Dice without a count are one die, but
only where they are not the faces of other dice. -/
def stepOperand (outer : List (Level α)) (pending : Pending α) (t : Token) :
    Except ParseError (ParseState α) :=
  match t.kind, pending.dice with
  | .integer, _ =>
    let n := integerValue t.text
    if n ≤ maxInteger then .ok (term outer pending (.int n))
    else .error (.atToken t .invalidNumber)
  | .decimal, _ => .ok (term outer pending (.decimal (decimalValue t.text)))
  | .leftParen, _ => .ok (operand (⟨.paren, pending⟩ :: outer) {})
  | .reduction f, _ => .ok (call outer pending f)
  -- Where the faces of dice have to follow, a second mark of dice is no term.
  | .dice, none => .ok (operand outer { pending with dice := some (.int 1) })
  | _, _ => .error (.unexpected t termStarts)

/-- The state after the token that ends a bracket around `e`. -/
def close (outer : List (Level α)) (pending : Pending α) (e : Expr α) :
    Bracket α → ParseState α
  | .paren => term outer pending (.paren e)
  | .roll => term outer pending (.roll e)
  | .avg => term outer pending (.avg e)
  | .target => operand (⟨.prob e, pending⟩ :: outer) {}
  | .prob target => term outer pending (.prob target e)

/-- The state after a token where dice are complete and the token is no operator. -/
def stepClose (outer : List (Level α)) (pending : Pending α) (dice : Expr α) (t : Token) :
    Except ParseError (ParseState α) :=
  match outer with
  | [] =>
    -- What is no token at all is reported with the operators that could stand there; a token is
    -- reported as too much, since the expression is complete without it.
    if t.kind = .error then .error (.unexpected t operators)
    else .error (.atToken t (.trailingInput t.kind))
  | level :: outer =>
    if t.kind = level.bracket.closer then
      .ok (close outer level.pending (pending.toSum dice) level.bracket)
    else .error (.unexpected t [level.bracket.closer])

/-- The state after one more token. -/
def step : ParseState α → Token → Except ParseError (ParseState α)
  | operand outer pending, t => stepOperand outer pending t
  | call outer pending f, t =>
    if t.kind = .leftParen then .ok (operand (⟨.ofReduction f, pending⟩ :: outer) {})
    else .error (.unexpected t [.leftParen])
  | operator outer pending dice, t =>
    match t.kind with
    | .dice => .ok (operand outer { pending with dice := some dice })
    | .star => .ok (operand outer ⟨pending.sum, some (pending.toProduct dice), none⟩)
    | .plus => .ok (operand outer ⟨some (pending.toSum dice), none, none⟩)
    | _ => stepClose outer pending dice t

/-- The expression read, when the text of `length` bytes ends. -/
def finish (length : Nat) : ParseState α → Except ParseError (Expr α)
  | operand _ _ => .error (.unexpectedEnd length termStarts)
  | call _ _ _ => .error (.unexpectedEnd length [.leftParen])
  | operator [] pending dice => .ok (pending.toSum dice)
  | operator (level :: _) _ _ => .error (.unexpectedEnd length [level.bracket.closer])

end ParseState

/-! ## Whole texts -/

/-- The expression that a row of tokens is, when the text ends after `length` bytes. -/
def Expr.ofTokens {α : Type} [Arithmetic α] (tokens : List Token) (length : Nat) :
    Except ParseError (Expr α) := do
  (← tokens.foldlM ParseState.step ParseState.start).finish length

/-- The expression that a text is. -/
def Expr.parse {α : Type} [Arithmetic α] (text : String) : Except ParseError (Expr α) :=
  Expr.ofTokens (Token.scan text) (byteLength text.toList)

end DiceOdds
