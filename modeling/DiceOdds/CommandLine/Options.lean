import DiceOdds.Config

/-!
# The arguments of the command

Options and expressions may be mixed; after `--` everything is an expression. An argument that
starts with a hyphen is an option, except for a hyphen alone. No option may be given twice.
-/

namespace DiceOdds.CommandLine

/-! ## Names and forms -/

/-- The options that take a number. -/
inductive Setting where
  /-- The seed of the draws. -/
  | seed
  /-- The cap on dice. -/
  | maxDice
  /-- The cap on outcomes. -/
  | maxOutcomes
  deriving Repr, DecidableEq

/-- The options that stand alone. -/
inductive Flag where
  /-- Show the distribution of every result. -/
  | table
  /-- Log in detail. -/
  | verbose
  /-- Show the version and nothing else. -/
  | version
  deriving Repr, DecidableEq

/-- The setting of a name. -/
def Setting.ofName? : String → Option Setting
  | "seed" => some seed
  | "max-dice" => some maxDice
  | "max-outcomes" => some maxOutcomes
  | _ => none

/-- The flag of a name. -/
def Flag.ofName? : String → Option Flag
  | "table" => some table
  | "verbose" => some verbose
  | "version" => some version
  | _ => none

/-- The flag of a letter. -/
def Flag.ofLetter? : Char → Option Flag
  | 't' => some table
  | 'v' => some verbose
  | 'V' => some version
  | _ => none

/-- An argument by its form. -/
inductive Argument where
  /-- The mark after which there are no more options. -/
  | endOfOptions
  /-- An option by its name, with the value that an equals sign joins to it. -/
  | long (name : String) (value : Option String)
  /-- Options by their letters. -/
  | letters (letters : List Char)
  /-- An expression, or the value of the option before it. -/
  | plain (text : String)
  deriving Repr, DecidableEq

/-- The form of an argument. -/
def Argument.ofText (text : String) : Argument :=
  match text.toList with
  | ['-', '-'] => endOfOptions
  | '-' :: '-' :: option =>
    let name := option.takeWhile (· ≠ '=')
    long (String.ofList name) <|
      match option.drop name.length with
      | [] => none
      | _ :: value => some (String.ofList value)
  | '-' :: c :: rest => letters (c :: rest)
  | _ => plain text

/-! ## Reading the arguments -/

/-- What the arguments ask for, apart from the version. -/
structure Options where
  /-- The seed of the draws. -/
  seed : Option Nat := none
  /-- The cap on dice as given. -/
  maxDice : Option Nat := none
  /-- The cap on outcomes as given. -/
  maxOutcomes : Option Nat := none
  /-- Whether the distribution of every result is shown. -/
  table : Bool := false
  /-- Whether the log is to be detailed. -/
  verbose : Bool := false
  /-- The expressions. -/
  expressions : List String := []
  deriving Repr, DecidableEq

/-- What the command is to do. -/
inductive Request where
  /-- Evaluate expressions. -/
  | run (options : Options)
  /-- Show the version. -/
  | version
  /-- Nothing: the arguments are not understood. -/
  | usageError
  deriving Repr, DecidableEq

namespace Options

/-- A cap as it is given: 0 means that there is none. -/
def cap (n : Nat) : Option Nat := if n = 0 then none else some n

/-- The configuration that the options describe. -/
def config (o : Options) : Config where
  limits :=
    { maxDice := cap (o.maxDice.getD 1000), maxOutcomes := cap (o.maxOutcomes.getD 10000) }
  seed := o.seed.map UInt64.ofNat

/-- The word that a text stands for: digits, with or without a plus sign before them. -/
def word? (text : List Char) : Option Nat :=
  let digits := match text with
    | '+' :: rest => rest
    | _ => text
  if digits.isEmpty || !digits.all Char.isDigit then none
  else
    let n := Nat.ofDigitChars 10 digits 0
    if n ≤ wordMax then some n else none

/-- The options with one more setting, if it was not made before. -/
def set? (o : Options) (setting : Setting) (n : Nat) : Option Options :=
  match setting with
  | .seed => if o.seed.isSome then none else some { o with seed := n }
  | .maxDice => if o.maxDice.isSome then none else some { o with maxDice := n }
  | .maxOutcomes => if o.maxOutcomes.isSome then none else some { o with maxOutcomes := n }

/-- The options with the setting that a name and a value stand for. -/
def assign? (o : Options) (name value : String) : Option Options := do
  o.set? (← Setting.ofName? name) (← word? value.toList)

/-- The options with one more flag. Asking for the version ends the reading of arguments, and so
does a flag that is unknown or was raised before. -/
def raise (o : Options) : Option Flag → Except Request Options
  | some .table => if o.table then .error .usageError else .ok { o with table := true }
  | some .verbose => if o.verbose then .error .usageError else .ok { o with verbose := true }
  | some .version => .error .version
  | none => .error .usageError

/-- What the arguments ask for, given what those before them ask for. -/
def read (o : Options) : List String → Request
  | [] => .run o
  | argument :: rest =>
    match Argument.ofText argument with
    | .endOfOptions => .run { o with expressions := o.expressions ++ rest }
    | .plain text => { o with expressions := o.expressions ++ [text] }.read rest
    | .letters letters =>
      match letters.foldlM (fun o c => o.raise (Flag.ofLetter? c)) o with
      | .ok o => o.read rest
      | .error request => request
    | .long name (some value) =>
      match o.assign? name value with
      | some o => o.read rest
      | none => .usageError
    | .long name none =>
      if (Setting.ofName? name).isSome then
        match rest with
        | [] => .usageError
        | value :: rest =>
          -- A value that looks like an option is none.
          match Argument.ofText value, o.assign? name value with
          | .plain _, some o => o.read rest
          | _, _ => .usageError
      else
        match o.raise (Flag.ofName? name) with
        | .ok o => o.read rest
        | .error request => request

end Options

/-- What the arguments of the command ask for. -/
def Request.ofArguments (arguments : List String) : Request := Options.read {} arguments

end DiceOdds.CommandLine
