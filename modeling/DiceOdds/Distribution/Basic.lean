import DiceOdds.Arithmetic

/-!
# Discrete distributions

A `Distribution` is a constant and a table of relative weights: slot `i` of the table weighs the
outcome `constant + i + 1`. With an empty table the distribution is *certain* and its only outcome
is the constant. Weights need not sum to 1; the operations that need probabilities divide by the
total and fail if there is none to divide by.
-/

namespace DiceOdds

/-- A request that cannot be carried out at all. No caller can recover from it: the operation
stops. -/
inductive Fault where
  /-- A table of more weights than memory can hold was asked for. -/
  | tableCapacity (size : Nat)
  /-- A slot past the end of a table was read. -/
  | pastTable (slot size : Nat)
  deriving Repr, DecidableEq

/-- Why an operation on distributions has no result. -/
inductive DistributionError (α : Type) where
  /-- The weights sum to no positive finite total. -/
  | zeroWeight (total : α)
  /-- A product of two outcomes has no slot in the product's table. -/
  | productOutOfRange (value : α) (size : Nat)
  /-- The table of the result has too many slots. -/
  | tableTooLarge (outcomes : α)
  /-- The operation stopped. -/
  | fault (fault : Fault)
  deriving Repr, DecidableEq

/-- The memory that tables are kept in. How much there is differs from machine to machine. -/
class Memory where
  /-- The most weights that a table can hold. -/
  tableCapacity : Nat
  /-- At eight bytes for each weight, no machine has `2 ^ 63` bytes for a table. -/
  tableCapacity_lt : tableCapacity < 0x1000000000000000

/-- Memory of eight gibibytes for a table, where nothing else is said. -/
instance defaultMemory : Memory where
  tableCapacity := 0x40000000
  tableCapacity_lt := by decide

export Memory (tableCapacity tableCapacity_lt)

/-- A table within memory has no more weights than a word can number. -/
theorem tableCapacity_lt_wordMax [Memory] : tableCapacity < wordMax :=
  Nat.lt_trans tableCapacity_lt (by decide)

/-- A constant, or a table of relative weights over the outcomes that follow it. -/
structure Distribution (α : Type) where
  /-- The outcome of a certain distribution; of any other, one below the first outcome. -/
  constant : α
  /-- The weight of `constant + i + 1` at index `i`. -/
  weights : Array α
  deriving Repr, BEq

namespace Distribution

open Arithmetic

variable {α : Type} [Arithmetic α]

/-! ## Construction and shape -/

/-- The distribution whose only outcome is `constant`. -/
def certain (constant : α) : Distribution α := ⟨constant, #[]⟩

/-- The distribution of `size` outcomes that all have the same weight. -/
def flat [Memory] (size : Nat) (weight constant : α) :
    Except (DistributionError α) (Distribution α) :=
  if tableCapacity < size then .error (.fault (.tableCapacity size))
  else .ok ⟨constant, Array.replicate size weight⟩

/-- The number of slots in the table. -/
def size (d : Distribution α) : Nat := d.weights.size

/-- Whether the constant is the only outcome. -/
def isCertain (d : Distribution α) : Bool := d.weights.isEmpty

/-- Whether there is a table of outcomes. -/
def isUncertain (d : Distribution α) : Bool := !d.isCertain

/-- The largest outcome that the table has a slot for. -/
def maxValue (d : Distribution α) : α := ofNat d.size + d.constant

/-! ## Outcomes and their shares -/

/-- The sum of the weights. -/
def totalWeight (d : Distribution α) : α := sum d.weights

/-- The outcome of slot `i`. -/
def outcome (d : Distribution α) (i : Nat) : α := d.constant + ofNat i + ofNat 1

/-- The outcomes with their weights, in ascending order of slots. -/
def outcomes (d : Distribution α) : Array (α × α) :=
  d.weights.mapIdx fun i w => (d.outcome i, w)

/-- The share of slot `i` in the total, if the table has such a slot and weighs anything. -/
def probability (d : Distribution α) (i : Nat) : Option α :=
  d.weights[i]?.bind fun w =>
    let total := d.totalWeight
    if ofNat 0 < total then some (w / total) else none

/-- The total weight, provided that the weights can be divided by it. -/
def normalizer (d : Distribution α) : Except (DistributionError α) α :=
  let total := d.totalWeight
  if isPositiveFinite total then .ok total else .error (.zeroWeight total)

/-- The outcomes with their probabilities; a certain outcome has probability 1. -/
def normalizedOutcomes (d : Distribution α) : Except (DistributionError α) (Array (α × α)) := do
  if d.isCertain then
    return #[(d.constant, ofNat 1)]
  let total ← d.normalizer
  return d.outcomes.map fun (value, weight) => (value, weight / total)

end Distribution

end DiceOdds
