import DiceOdds.Arithmetic

/-!
# Exact arithmetic

The rational numbers as an `Arithmetic`. Every operation is exact and every number is finite, so
over this instance a table of weights is a distribution in the mathematical sense.
-/

namespace DiceOdds

/-- Exact rational arithmetic. -/
instance : Arithmetic Rat where
  decLt := inferInstance
  decLe := inferInstance
  ofNat n := (n : Rat)
  ofInt n := (n : Rat)
  ofDecimal digits places := (digits : Rat) / (10 : Rat) ^ places
  trunc x := if 0 ≤ x then (x.floor : Rat) else (x.ceil : Rat)
  isFinite _ := true
  toWord x := min x.floor.toNat wordMax
  emptySum := 0

namespace Arithmetic

/-- A natural number is itself. -/
@[simp] theorem ofNat_rat (n : Nat) : (ofNat n : Rat) = n := rfl

/-- A decimal is its digits over a power of ten. -/
@[simp] theorem ofDecimal_rat (digits places : Nat) :
    (ofDecimal digits places : Rat) = digits / 10 ^ places := rfl

/-- The sum of nothing is 0. -/
@[simp] theorem emptySum_rat : (emptySum : Rat) = 0 := rfl

/-- Every number is finite. -/
@[simp] theorem isFinite_rat (x : Rat) : isFinite x = true := rfl

/-- Weights can be divided by every positive total. -/
@[simp] theorem isPositiveFinite_rat (x : Rat) : isPositiveFinite x = decide (0 < x) := by
  rw [isPositiveFinite, isFinite_rat, Bool.and_true]
  rfl

end Arithmetic

end DiceOdds
