/-!
# Numbers in base two

A finite nonnegative floating-point number is a natural number times a power of two, and it
stands for every real number that rounds to it. `Binary` is the first, `Binary.reads` the second:
the decimals that may be written for the number are the ones it reads.
-/

namespace DiceOdds

/-- The number `mantissa · 2 ^ exponent`, together with how far below it the next smaller
floating-point number lies. -/
structure Binary where
  /-- The whole factor. -/
  mantissa : Nat
  /-- The power of two. -/
  exponent : Int
  /-- Whether the next smaller number is only half a unit of the mantissa away, as it is just
  above a power of two. -/
  narrowBelow : Bool
  deriving Repr, DecidableEq

namespace Binary

/-- The magnitude of a finite `x`, decoded from its bits. -/
def ofFloat (x : Float) : Binary :=
  let field := ((x.toBits >>> 52) &&& 0x7ff).toNat
  let fraction := (x.toBits &&& 0xfffffffffffff).toNat
  -- The least exponent has no hidden bit, and shares its spacing with the next one.
  if field = 0 then ⟨fraction, -1074, false⟩
  else ⟨0x10000000000000 + fraction, (field : Int) - 1075, fraction = 0 && 1 < field⟩

/-- Whether the sign bit of `x` is set, as it also is on negative zero. -/
def isNegative (x : Float) : Bool := x.toBits >>> 63 == 1

/-- The factor that takes `x · 10 ^ exponent10` to the common scale, for a comparison with a
multiple of `2 ^ exponent2`; `binaryScale` is the factor of the other side. -/
def decimalScale (exponent2 exponent10 : Int) : Nat :=
  Nat.pow 10 exponent10.toNat * Nat.pow 2 (-exponent2).toNat

/-- The factor that takes `x · 2 ^ exponent2` to the common scale, for a comparison with a
multiple of `10 ^ exponent10`. -/
def binaryScale (exponent2 exponent10 : Int) : Nat :=
  Nat.pow 2 exponent2.toNat * Nat.pow 10 (-exponent10).toNat

/-- The floor of `b / 10 ^ exponent10`. -/
def floorAt (b : Binary) (exponent10 : Int) : Nat :=
  b.mantissa * binaryScale b.exponent exponent10 / decimalScale b.exponent exponent10

/-- Whether `digits · 10 ^ exponent10` rounds to `b`: it lies between the midpoints to the two
neighbours of `b`, and on a midpoint only if the mantissa of `b` is even. The comparison is made
in quarters of a unit, where the midpoints are whole. -/
def reads (b : Binary) (digits : Nat) (exponent10 : Int) : Bool :=
  let quarters := b.exponent - 2
  let y := digits * decimalScale quarters exponent10
  let scale := binaryScale quarters exponent10
  -- A nearer neighbour below brings the lower midpoint up to a quarter of a unit away.
  let low := (4 * b.mantissa - if b.narrowBelow then 1 else 2) * scale
  let high := (4 * b.mantissa + 2) * scale
  if b.mantissa % 2 = 0 then low ≤ y && y ≤ high else low < y && y < high

end Binary

end DiceOdds
