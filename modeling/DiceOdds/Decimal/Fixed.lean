import DiceOdds.Binary

/-!
# Numbers with a fixed count of places

Probabilities in a table are written with six places after the point. The digits are those of the
exact value rounded to the last place, one half going to the even digit.
-/

namespace DiceOdds

/-- The whole number nearest to `num / den`; of two equally near the even one. -/
def roundHalfEven (num den : Nat) : Nat :=
  let below := num / den
  let twice := 2 * (num % den)
  if den < twice || (twice = den && below % 2 = 1) then below + 1 else below

namespace Binary

/-- The number of units of `10 ^ -places` in `b`, rounded. -/
def units (b : Binary) (places : Nat) : Nat :=
  roundHalfEven (b.mantissa * binaryScale b.exponent (-places))
    (decimalScale b.exponent (-places))

end Binary

/-- A finite number or an infinity with `places` digits after the point, and with its sign even
if all digits are zero. -/
def fixedText (places : Nat) (x : Float) : String :=
  if x.isNaN then "NaN"
  else
    let magnitude :=
      if x.isInf then "inf"
      else
        -- The digits of the units are cut where the point goes.
        let n := (Binary.ofFloat x).units places
        let fraction := Nat.toDigits 10 (n % Nat.pow 10 places)
        let zeros := List.replicate (places - fraction.length) '0'
        toString (n / Nat.pow 10 places) ++ "." ++ String.ofList (zeros ++ fraction)
    if Binary.isNegative x then "-" ++ magnitude else magnitude

end DiceOdds
