import DiceOdds.Text.Quoted
import DiceOdds.Token.Scan

/-!
# Why a text is no expression
-/

namespace DiceOdds

/-- What is wrong with a text. -/
inductive ParseError.Cause where
  /-- A token, or the end of the text, where only other tokens could stand. -/
  | unexpectedToken (found : Option TokenKind) (expected : List TokenKind)
  /-- A character that begins no token. -/
  | unexpectedText (expected : List TokenKind)
  /-- An integer that is too large. -/
  | invalidNumber
  /-- A token after a complete expression. -/
  | trailingInput (found : TokenKind)
  deriving Repr, DecidableEq

/-- The place where a text stops being an expression, and why. -/
structure ParseError where
  /-- What is wrong there. -/
  cause : ParseError.Cause
  /-- The number of bytes before the place. -/
  start : Nat
  /-- The number of bytes before its end. -/
  stop : Nat
  /-- The text between. -/
  slice : List Char
  deriving Repr, DecidableEq

namespace ParseError

/-- An error at a token. -/
def atToken (t : Token) (cause : Cause) : ParseError := ⟨cause, t.start, t.stop, t.text⟩

/-- An error at the end of a text of `length` bytes. -/
def atEnd (length : Nat) (cause : Cause) : ParseError := ⟨cause, length, length, []⟩

/-- The error that `t` is none of the `expected`. -/
def unexpected (t : Token) (expected : List TokenKind) : ParseError :=
  atToken t <|
    if t.kind = .error then .unexpectedText expected else .unexpectedToken (some t.kind) expected

/-- The error that the text ends before any of the `expected`. -/
def unexpectedEnd (length : Nat) (expected : List TokenKind) : ParseError :=
  atEnd length (.unexpectedToken none expected)

/-- What is wrong, in words. -/
def Cause.message : Cause → String
  | unexpectedToken (some found) expected =>
    "unexpected token: found " ++ found.describe ++ ", expected " ++
      TokenKind.describeAny expected
  | unexpectedToken none expected =>
    "unexpected end of input, expected " ++ TokenKind.describeAny expected
  | unexpectedText expected => "expected " ++ TokenKind.describeAny expected
  | invalidNumber => "number out of range"
  | trailingInput found => "unexpected " ++ found.describe ++ " after the end of the expression"

/-- The place, its text and what is wrong. -/
def message (e : ParseError) : String :=
  "error at position " ++ toString e.start ++ " (" ++ String.ofList (Quoted.encode e.slice) ++
    "): " ++ e.cause.message

end ParseError

end DiceOdds
