import DiceOdds.CommandLine.Options
import DiceOdds.Evaluation.Eval
import DiceOdds.Text.Blank

/-!
# What the command shows

The command evaluates the expressions among its arguments or, if there are none, the lines of its
input, with a prompt before each. Either way all expressions share one roller, and one that fails
uses up the draws it took.
-/

namespace DiceOdds.CommandLine

/-! ## Replies -/

/-- What is shown for one expression. -/
inductive Reply where
  /-- Text on the standard output. -/
  | output (text : String)
  /-- A message on the standard error output. -/
  | error (message : String)
  /-- Nothing: the command stops. -/
  | stop
  deriving Repr, DecidableEq

namespace Reply

/-- The reply to an expression whose value is `outcome`. -/
def ofOutcome (table : Bool) (outcome : Outcome Float) : Reply :=
  .output <|
    (if table then outcome.distribution.report ++ "\n" else "") ++
      "RESULT: " ++ valueText outcome.value ++ "\n"

/-- The reply to a text that has no value. -/
def ofError (e : TextError Float) : Reply :=
  match e with
  | .roll e => if e.fault?.isSome then .stop else .error ("Error: " ++ e.message)
  | .parse e => .error ("Error: " ++ e.message)

/-- What a reply puts on the standard output. -/
def text : Reply → String
  | output text => text
  | _ => ""

/-- What a reply puts on the standard error output. -/
def errors : Reply → List String
  | error message => [message]
  | _ => []

end Reply

/-- Evaluates one expression and replies to it. -/
def answer [Memory] (config : Config) (table : Bool) (text : String) : StateM Roller Reply := do
  match ← (rollText config.limits text).run with
  | .ok outcome => return .ofOutcome table outcome
  | .error e => return .ofError e

/-- Replies to a line of input; a blank one gets no reply. -/
def answerLine [Memory] (config : Config) (table : Bool) (line : String) :
    StateM Roller (Option Reply) := do
  if isBlank line.toList then
    return none
  return some (← answer config table line)

/-! ## Transcripts -/

/-- All that the command shows before it ends. -/
structure Transcript where
  /-- The standard output. -/
  output : String := ""
  /-- The lines of the standard error output. -/
  errors : List String := []
  /-- The exit code. -/
  code : Nat := 0
  deriving Repr, DecidableEq

namespace Transcript

/-- The exit code of a command that a fault stops. -/
def faultCode : Nat := 101

/-- The exit code of a command whose arguments are not understood. -/
def usageCode : Nat := 2

/-- A transcript that starts with text on the standard output. -/
def write (text : String) (rest : Transcript) : Transcript :=
  { rest with output := text ++ rest.output }

/-- A transcript that starts with a reply. -/
def reply (r : Reply) (rest : Transcript) : Transcript :=
  { rest with output := r.text ++ rest.output, errors := r.errors ++ rest.errors }

/-- What is left of a transcript that a fault ends. -/
def stopped : Transcript := { code := faultCode }

end Transcript

/-! ## Sessions -/

/-- The text before each line of input. -/
def prompt : String := "> "

/-- What the command shows for the expressions among its arguments. -/
def runArguments [Memory] (config : Config) (table : Bool) :
    List String → StateM Roller Transcript
  | [] => return {}
  | text :: rest => do
    match ← answer config table text with
    | .stop => return .stopped
    | r => return (← runArguments config table rest).reply r

/-- What the command shows for lines of input. -/
def runLines [Memory] (config : Config) (table : Bool) : List String → StateM Roller Transcript
  | [] => return Transcript.write (prompt ++ "\n") {}
  | line :: rest => do
    match ← answerLine config table line with
    | none => return (← runLines config table rest).write prompt
    | some .stop => return Transcript.stopped.write prompt
    | some r => return ((← runLines config table rest).reply r).write prompt

/-- The lines of a text of which `reversed` was read since the last line end. A line ends at a
line feed, and a carriage return right before it belongs to the line end. The text after the last
line feed is a line unless it is empty. -/
def linesFrom (reversed : List Char) : List Char → List String
  | [] => if reversed.isEmpty then [] else [String.ofList reversed.reverse]
  | c :: rest =>
    if c = '\n' then
      -- A second carriage return would belong to the line.
      let line := match reversed with
        | '\r' :: line => line
        | line => line
      String.ofList line.reverse :: linesFrom [] rest
    else linesFrom (c :: reversed) rest

/-- The lines of a text. -/
def lines (text : String) : List String := linesFrom [] text.toList

/-- The name and version of the command. -/
def versionText : String := "dice-prob 0.1.0"

/-- What the command shows when it is given arguments and an input. `entropy` is the seed where
the arguments give none. -/
def run [Memory] (arguments : List String) (input : String) (entropy : UInt64) : Transcript :=
  match Request.ofArguments arguments with
  | .usageError => { code := Transcript.usageCode }
  | .version => { output := versionText ++ "\n" }
  | .run options =>
    let config := options.config
    let session :=
      if options.expressions.isEmpty then runLines config options.table (lines input)
      else runArguments config options.table options.expressions
    (session (config.roller entropy)).1

end DiceOdds.CommandLine
