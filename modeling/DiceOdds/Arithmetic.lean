/-!
# The numbers that weights and outcomes are made of

Every definition of this library that computes with weights or outcomes is stated over an
`Arithmetic`: the four operations, comparisons, and a handful of conversions. Two instances
matter. Binary floating point (`DiceOdds.Arithmetic.Binary64`) is what runs, and there the order
of the operations is part of the result. The rational numbers
(`DiceOdds.Arithmetic.Rational`) give the same definitions their exact meaning.
-/

namespace DiceOdds

/-- The largest table index, dice count or limit that a machine word can hold. -/
def wordMax : Nat := 0xffffffffffffffff

/-- Numbers with the operations that tables of weights need. Nothing here promises a law: a
rounding instance is as good as an exact one. -/
class Arithmetic (α : Type) extends Add α, Sub α, Mul α, Div α, LT α, LE α, BEq α where
  /-- The strict order is decidable. -/
  decLt (x y : α) : Decidable (x < y)
  /-- The weak order is decidable. -/
  decLe (x y : α) : Decidable (x ≤ y)
  /-- The number nearest to a natural number. -/
  ofNat : Nat → α
  /-- The number nearest to an integer. -/
  ofInt : Int → α
  /-- The number nearest to `digits / 10 ^ places`. -/
  ofDecimal (digits places : Nat) : α
  /-- The whole part of a number, its fraction dropped toward zero. -/
  trunc : α → α
  /-- Whether a number is neither infinite nor undefined. -/
  isFinite : α → Bool
  /-- The whole part of a number as a word: at least 0, at most `wordMax`, and 0 for a number
  that is undefined. -/
  toWord : α → Nat
  /-- The sum of no weights. -/
  emptySum : α

namespace Arithmetic

variable {α : Type} [Arithmetic α]

instance (x y : α) : Decidable (x < y) := decLt x y

instance (x y : α) : Decidable (x ≤ y) := decLe x y

/-- The whole number nearest to `x`; one half goes away from zero. -/
@[inline] def roundHalfAway (x : α) : α :=
  -- The fraction is compared with one half. Adding one half before cutting would round the sum
  -- and could carry a number just below one half up to 1.
  let whole := trunc x
  let half : α := ofDecimal 5 1
  if half ≤ x - whole then whole + ofNat 1
  else if half ≤ whole - x then whole - ofNat 1
  else whole

/-- Whether `x` is a whole number. Infinite and undefined numbers are not. -/
@[inline] def isWhole (x : α) : Bool := x - trunc x == ofNat 0

/-- The sum of an array from left to right, starting from `emptySum`. -/
@[inline] def sum (xs : Array α) : α := xs.foldl (· + ·) emptySum

/-- Whether a total can be divided by to normalize weights: positive and finite. -/
@[inline] def isPositiveFinite (x : α) : Bool := ofNat 0 < x && isFinite x

end Arithmetic

end DiceOdds
