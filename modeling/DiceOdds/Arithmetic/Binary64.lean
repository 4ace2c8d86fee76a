import DiceOdds.Arithmetic

/-!
# Floating-point arithmetic

Binary floating point of 64 bits as an `Arithmetic`, with the operations rounded to nearest as
the standard asks. A sum starts from negative zero, the neutral element of rounded addition:
starting from positive zero would lose the sign of a sum of negative zeros.
-/

namespace DiceOdds.Binary64

/-- The exponent field of `x`; a number has no fraction from 1075 on, and only a fraction below
1023. -/
@[inline] def exponentField (x : Float) : UInt64 := (x.toBits >>> 52) &&& 0x7ff

/-- The whole part of `x`, found by clearing the bits of its fraction. The sign is kept, also on
zero; infinities and undefined numbers have no fraction bits to clear. -/
def trunc (x : Float) : Float :=
  let e := exponentField x
  -- Below 1 in magnitude nothing but the sign is left.
  if e < 1023 then Float.ofBits (x.toBits &&& 0x8000000000000000)
  else if e < 1075 then
    let fractionBits := 1075 - e
    Float.ofBits ((x.toBits >>> fractionBits) <<< fractionBits)
  else x

end DiceOdds.Binary64

namespace DiceOdds

/-- Floating-point arithmetic of 64 bits. -/
instance : Arithmetic Float where
  decLt x y := Float.decLt x y
  decLe x y := Float.decLe x y
  ofNat := Float.ofNat
  ofInt := Float.ofInt
  ofDecimal digits places := Float.ofScientific digits true places
  trunc := Binary64.trunc
  isFinite := Float.isFinite
  toWord x := x.toUInt64.toNat
  emptySum := Float.ofBits 0x8000000000000000

end DiceOdds
