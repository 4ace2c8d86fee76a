import DiceOdds.CommandLine.Session

/-!
# The command

The outermost layer: it reads the arguments and the lines of input, and shows the replies as they
come.
-/

namespace DiceOdds.CommandLine

/-- Shows a reply; whether the command goes on after it. -/
def deliver (r : Reply) : IO Bool := do
  IO.print r.text
  for message in r.errors do
    IO.eprintln message
  return r != .stop

/-- Answers the lines of the input until it ends. -/
partial def readLoop (config : Config) (table : Bool) (roller : Roller) : IO UInt32 := do
  IO.print prompt
  (← IO.getStdout).flush
  let input ← (← IO.getStdin).getLine
  -- The end of the input reads as a text without even a line end.
  match lines input with
  | [] =>
    IO.println ""
    return 0
  | line :: _ =>
    let (reply, roller) := answerLine config table line roller
    if ← (reply.map deliver).getD (pure true) then
      readLoop config table roller
    else
      return UInt32.ofNat Transcript.faultCode

end DiceOdds.CommandLine

open DiceOdds DiceOdds.CommandLine in

/-- Evaluates the expressions among the arguments, or the lines of the input. -/
def main (arguments : List String) : IO UInt32 := do
  match Request.ofArguments arguments with
  | .usageError =>
    IO.eprintln "usage: dice-prob [OPTIONS] [EXPRESSIONS]..."
    return UInt32.ofNat Transcript.usageCode
  | .version =>
    IO.println versionText
    return 0
  | .run options =>
    let entropy := (← IO.getRandomBytes 8).toUInt64LE!
    let config := options.config
    let mut roller := config.roller entropy
    if options.expressions.isEmpty then
      return ← readLoop config options.table roller
    for text in options.expressions do
      let (reply, rest) := answer config options.table text roller
      roller := rest
      unless ← deliver reply do
        return UInt32.ofNat Transcript.faultCode
    return 0
