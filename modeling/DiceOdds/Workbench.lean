import DiceOdds.Evaluation.Eval

/-!
# A bench of named distributions

A `Workbench` keeps distributions under names and works on them one instruction at a time. An
operation uses its operands up: their names are free afterwards, also if it fails. What is on the
bench is all there is, so the number of names in use is the number of distributions alive.
-/

namespace DiceOdds

variable {α : Type}

/-- Distributions by name, with the limits and the two rollers of the work on them. -/
structure Workbench (α : Type) where
  /-- The names in use, each with its distribution. -/
  shelf : List (String × Distribution α) := []
  /-- The caps on operations of expressions. -/
  limits : Limits
  /-- The draws for operations of expressions. -/
  roller : Roller
  /-- The draws for sampling a distribution by itself. -/
  sampler : Roller

/-- Why an instruction gives nothing. -/
inductive WorkError (α : Type) where
  /-- A name is not in use, or both operands have the same name. -/
  | noOperand
  /-- An operation on distributions failed. -/
  | distribution (e : DistributionError α)
  /-- An operation of expressions failed. -/
  | roll (e : RollError α)
  /-- A text has no value. -/
  | text (e : TextError α)
  deriving Repr, DecidableEq

/-- Work on a bench. The bench survives a failure. -/
abbrev Work (α β : Type) := ExceptT (WorkError α) (StateM (Workbench α)) β

/-! ## Instructions -/

/-- Where a distribution comes from when no other is used up for it. -/
inductive Source (α : Type) where
  /-- Outcomes of equal weight. -/
  | flat (size : Nat) (weight constant : α)
  /-- A single outcome. -/
  | certain (constant : α)
  /-- A table of weights. -/
  | table (weights : Array α) (constant : α)
  /-- A sum of fair dice. -/
  | uniformSum (count faces : Nat)
  /-- The text of an expression. -/
  | text (text : String)
  /-- Another distribution, which stays where it is. -/
  | copy (name : String)

/-- Operations that use up one distribution. -/
inductive Change where
  /-- The mean, outside of an expression. -/
  | mean
  /-- The mean, as an expression has it. -/
  | avg
  /-- One outcome, drawn. -/
  | roll

/-- Operations that use up two distributions. -/
inductive Combination where
  /-- The sum, outside of an expression and its limits. -/
  | add
  /-- The product, outside of an expression and its limits. -/
  | times
  /-- An operator of an expression. -/
  | operate (op : Operator)
  /-- The probability, in the second, of what the first resolves to. -/
  | prob

/-- Instructions that put a distribution on the bench or take one away. -/
inductive Instruction (α : Type) where
  /-- Put a new distribution under the name `out`. -/
  | make (out : String) (source : Source α)
  /-- Use up `a` and put the result under the name `out`. -/
  | change (out a : String) (op : Change)
  /-- Use up `a` and `b` and put the result under the name `out`. -/
  | combine (out a b : String) (op : Combination)

namespace Workbench

/-! ## The shelf -/

/-- The distribution under a name. -/
def find? (bench : Workbench α) (name : String) : Option (Distribution α) :=
  bench.shelf.lookup name

/-- The bench without a name. -/
def erase (bench : Workbench α) (name : String) : Workbench α :=
  { bench with shelf := bench.shelf.filter fun entry => entry.1 != name }

/-- The bench with a distribution under a name, in place of what was there. -/
def insert (bench : Workbench α) (name : String) (d : Distribution α) : Workbench α :=
  { bench with shelf := (name, d) :: (bench.erase name).shelf }

/-- The number of distributions alive. -/
def live (bench : Workbench α) : Nat := bench.shelf.length

/-- The distribution under a name, which stays there. -/
def look (name : String) : Work α (Distribution α) := fun bench =>
  match bench.find? name with
  | some d => (.ok d, bench)
  | none => (.error .noOperand, bench)

/-- The distribution under a name, which is used up. -/
def take (name : String) : Work α (Distribution α) := do
  let d ← look name
  modify (·.erase name)
  return d

/-- The distributions under two names. Both are used up, or neither if one is missing or the
names are the same. -/
def takeTwo (a b : String) : Work α (Distribution α × Distribution α) := do
  if a = b then
    throw .noOperand
  -- Nothing is taken before both are found.
  let d ← look a
  let e ← look b
  modify fun bench => (bench.erase a).erase b
  return (d, e)

/-! ## Carrying out instructions -/

/-- A result that takes no draw. -/
def ofExcept {β : Type} (x : Except (DistributionError α) β) : Work α β := fun bench =>
  (x.mapError .distribution, bench)

/-- Work that draws as an expression does. -/
def rolling {ε β : Type} (onError : ε → WorkError α) (x : Rolling ε β) : Work α β := fun bench =>
  let (result, roller) := x bench.roller
  (result.mapError onError, { bench with roller })

/-- Work that draws by itself. -/
def sampling {β : Type} (x : Rolling (DistributionError α) β) : Work α β := fun bench =>
  let (result, sampler) := x bench.sampler
  (result.mapError .distribution, { bench with sampler })

variable [Arithmetic α] [Memory]

/-- A new distribution. -/
@[specialize] def produce : Source α → Work α (Distribution α)
  | .flat size weight constant => ofExcept (Distribution.flat size weight constant)
  | .certain constant => return .certain constant
  | .table weights constant => return ⟨constant, weights⟩
  | .uniformSum count faces => ofExcept (Distribution.uniformSum count faces)
  | .text text => do rolling .text (evalText (← get).limits text)
  | .copy name => look name

/-- What becomes of one distribution. -/
@[specialize] def alter (d : Distribution α) : Change → Work α (Distribution α)
  | .mean => ofExcept d.mean
  | .avg => rolling .roll d.avg
  | .roll => rolling .roll d.roll

/-- What becomes of two distributions. -/
@[specialize] def unite (d e : Distribution α) : Combination → Work α (Distribution α)
  | .add => ofExcept (d.add e)
  | .times => ofExcept (d.times e)
  | .operate op => do rolling .roll ((← get).limits.operate op d e)
  | .prob => rolling .roll (d.prob e)

/-- Carries out an instruction. Its result replaces what was under the name it is put under; a
failure replaces nothing. -/
@[specialize] def perform : Instruction α → Work α (Distribution α)
  | .make out source => do put out (← produce source)
  | .change out a op => do put out (← alter (← take a) op)
  | .combine out a b op => do
    let (d, e) ← takeTwo a b
    put out (← unite d e op)
where
  /-- Puts a distribution under a name. -/
  put (name : String) (d : Distribution α) : Work α (Distribution α) := do
    modify (·.insert name d)
    return d

end Workbench

end DiceOdds
