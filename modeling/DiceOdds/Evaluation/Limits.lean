import DiceOdds.Distribution.Report

/-!
# Limits on what may be evaluated

An expression of a few characters can ask for millions of dice. `Limits` caps the dice of one
roll and the outcomes of one table, and `RollError` says which cap was met or what else went
wrong.
-/

namespace DiceOdds

/-- Caps on the size of an evaluation. Without a value there is no cap. -/
structure Limits where
  /-- The most dice that one roll may use. -/
  maxDice : Option Nat := some 1000
  /-- The most outcomes that the table of dice or of a product may have. -/
  maxOutcomes : Option Nat := some 10000
  deriving Repr, DecidableEq

/-- No caps at all. -/
def Limits.unbounded : Limits := ⟨none, none⟩

/-- Why an expression has no value. -/
inductive RollError (α : Type) where
  /-- A count of dice or of faces is negative, infinite or undefined. -/
  | invalidDice (value : α)
  /-- More dice than the cap allows. -/
  | tooManyDice (count limit : Nat)
  /-- More outcomes than the cap allows, or than a table can hold. -/
  | tooManyOutcomes (outcomes : α) (limit : Nat)
  /-- An operation on distributions has no result. -/
  | distribution (e : DistributionError α)
  deriving Repr, DecidableEq

namespace RollError

/-- The fault behind an error, if it is one. -/
def fault? {α : Type} : RollError α → Option Fault
  | distribution (.fault f) => some f
  | _ => none

/-- What went wrong, for the reader of a message. -/
def message : RollError Float → String
  | invalidDice value =>
    "dice counts and face counts must be non-negative integers, found " ++ valueText value
  | tooManyDice count limit =>
    "too many dice rolled: " ++ toString count ++ " (limit " ++ toString limit ++ ")"
  | tooManyOutcomes outcomes limit =>
    "distribution too large: " ++ valueText outcomes ++ " outcomes (limit " ++ toString limit ++
      ")"
  | distribution e => e.message

end RollError

end DiceOdds
