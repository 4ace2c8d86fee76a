import DiceOdds.Decimal.Shortest

/-!
# How a number is set out

The digits of a number are chosen by `Decimal.shortest`; a `Layout` says how they are laid out.
Two layouts are in use: `Layout.plain` for values and messages, which never shows an exponent,
and `Layout.literal` for the decimals of an expression, which a reader of expressions must be
able to tell from whole numbers.
-/

namespace DiceOdds

namespace Decimal

/-- The digits of a decimal as characters. -/
def chars (d : Decimal) : List Char := Nat.toDigits 10 d.digits

/-- The exponent of the first digit. -/
def firstExponent (d : Decimal) : Int := d.exponent + (length d.digits : Int) - 1

/-- A decimal written out in full: zeros fill the places up to the point on either side. -/
def positional (d : Decimal) : List Char :=
  let places := (-d.exponent).toNat
  if places = 0 then d.chars ++ List.replicate d.exponent.toNat '0'
  else
    -- At least one digit stands before the point.
    let padded := List.replicate (places + 1 - length d.digits) '0' ++ d.chars
    padded.take (padded.length - places) ++ '.' :: padded.drop (padded.length - places)

/-- A decimal written with one digit before the point and the exponent of that digit. -/
def scientific (d : Decimal) : List Char :=
  let fraction := d.chars.drop 1
  d.chars.take 1 ++ (if fraction.isEmpty then [] else '.' :: fraction) ++
    'e' :: (toString d.firstExponent).toList

end Decimal

/-- The choices that set out a number. -/
structure Layout where
  /-- What follows a number that is written without a point. -/
  wholeMark : List Char
  /-- The exponents of the first digit that are written out in full, from the first up to but
  not including the second; every exponent if there is no range. -/
  inFull : Option (Int × Int)

namespace Layout

/-- Values and messages: never an exponent, and no point on a whole number. -/
def plain : Layout := ⟨[], none⟩

/-- Decimals in an expression: always a point or an exponent, and an exponent below `10 ^ -4` and
from `10 ^ 16` on. -/
def literal : Layout := ⟨['.', '0'], some (-4, 16)⟩

/-- A decimal set out by a layout. -/
def write (l : Layout) (d : Decimal) : List Char :=
  let full := d.positional ++ if d.exponent < 0 then [] else l.wholeMark
  match l.inFull with
  | none => full
  | some (least, limit) =>
    if least ≤ d.firstExponent && d.firstExponent < limit then full else d.scientific

/-- A floating-point number set out by a layout: its sign, also on zero, and its shortest
digits. -/
def number (l : Layout) (x : Float) : List Char :=
  if x.isNaN then ['N', 'a', 'N']
  else
    let magnitude := if x.isInf then ['i', 'n', 'f'] else l.write (.shortest (.ofFloat x))
    if Binary.isNegative x then '-' :: magnitude else magnitude

end Layout

/-- A value or a weight as it stands in results and messages. -/
def valueText (x : Float) : String := String.ofList (Layout.plain.number x)

end DiceOdds
