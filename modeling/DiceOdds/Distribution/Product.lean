import DiceOdds.Distribution.Basic

/-!
# Products of independent distributions

The product of two distributions has constant 0 and one slot for every whole number up to the
product of the two largest outcomes. A product of outcomes that is not whole counts for its whole
part. The table is sized by the largest outcomes, so a product that falls outside it is an error
and not a guess; that includes every product below 1.
-/

namespace DiceOdds.Distribution

open Arithmetic

variable {α : Type} [Arithmetic α]

/-- The whole part of the product of the largest outcomes: the size of the product's table. -/
def productBound (d e : Distribution α) : α := trunc (d.maxValue * e.maxValue)

/-- The slot of outcome `value` in a table of `size` slots above constant 0. -/
@[inline] def productSlot? (size : Nat) (value : α) : Option Nat :=
  let index := trunc value - ofNat 1
  if ofNat 0 ≤ index && index < ofNat size then some (toWord index) else none

/-- Adds `weight` to the slot of `value`. -/
@[inline] def addProduct (size : Nat) (table : Array α) (value weight : α) :
    Except (DistributionError α) (Array α) :=
  match productSlot? size value with
  | none => .error (.productOutOfRange value size)
  | some i => .ok (table.modify i (· + weight))

/-- The table of products: every pair of outcomes adds the product of its probabilities to the
slot of its product. -/
@[specialize] def productTable (size : Nat) (left right : Array (α × α)) :
    Except (DistributionError α) (Array α) :=
  left.foldlM (fun table (v, p) =>
    right.foldlM (fun table (w, q) => addProduct size table (v * w) (p * q)) table)
    (Array.replicate size (ofNat 0))

/-- The distribution of `X * Y` for independent `X` and `Y`. -/
@[specialize] def times [Memory] (d e : Distribution α) :
    Except (DistributionError α) (Distribution α) := do
  if d.isCertain && e.isCertain then
    return certain (d.constant * e.constant)
  if (d.isCertain && d.constant == ofNat 0) || (e.isCertain && e.constant == ofNat 0) then
    return certain (ofNat 0)
  -- The size is settled before the operands are normalized, so a table that is too large is the
  -- error also where an operand has no weight.
  let bound := productBound d e
  -- An undefined bound is no smaller than any, and is refused with those that are too large.
  if !(bound < ofNat wordMax) then
    throw (.tableTooLarge bound)
  let size := if ofNat 0 < bound then toWord bound else 0
  if tableCapacity < size then
    throw (.tableTooLarge (ofNat size))
  let right ← e.normalizedOutcomes
  let left ← d.normalizedOutcomes
  return ⟨ofNat 0, ← productTable size left right⟩

end DiceOdds.Distribution
