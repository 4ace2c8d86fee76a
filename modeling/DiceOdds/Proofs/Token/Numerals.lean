import Mathlib.Tactic.Ring
import DiceOdds.Expr.Parse

/-!
# Numbers as they are written

What digits stand for is said by their places. A digit in a row counts for itself times the power
of ten of the digits after it (`placeValue`), and where a point stands among the digits, those after
it are decimal places (`pointValue`).

The parser knows no places: it goes through the digits from left to right and makes room for each by
multiplying what it has by ten. `integerValue_eq_placeValue` and `decimalValue_eq_pointValue` say
that it reads every text as what the digits in it stand for.
-/

namespace DiceOdds.Token

open ParseState

/-! ## Rows of digits -/

/-- The number that a row of digits stands for. -/
def placeValue : List Char → Nat
  | [] => 0
  | c :: rest => (c.toNat - '0'.toNat) * 10 ^ rest.length + placeValue rest

/-- A row of digits after another moves it up by as many places. -/
theorem placeValue_append (digits more : List Char) :
    placeValue (digits ++ more) = 10 ^ more.length * placeValue digits + placeValue more := by
  induction digits with
  | nil => rw [List.nil_append, placeValue, Nat.mul_zero, Nat.zero_add]
  | cons c digits ih =>
    rw [List.cons_append, placeValue, placeValue, ih, List.length_append]
    ring

/-- A row of zeros stands for 0. -/
theorem placeValue_replicate_zero (n : Nat) : placeValue (List.replicate n '0') = 0 := by
  induction n with
  | zero => rfl
  | succ n ih => rw [List.replicate_succ, placeValue, ih, Nat.sub_self, Nat.zero_mul]

/-- The parser reads a row of digits as the number that it stands for. -/
theorem integerValue_eq_placeValue (text : List Char) : integerValue text = placeValue text := by
  unfold integerValue
  induction text with
  | nil => rfl
  | cons c rest ih =>
    rw [Nat.ofDigitChars_cons, Nat.ofDigitChars_eq_ofDigitChars_zero, ih, placeValue]
    ring

/-- The digits of a number stand for the number. -/
theorem placeValue_toDigits (n : Nat) : placeValue (Nat.toDigits 10 n) = n := by
  rw [← integerValue_eq_placeValue]
  exact Nat.ofDigitChars_ten_toDigits

/-! ## Digits with a point -/

/-- The number that digits with a point among them stand for: the number of all the digits in one
row, with as many decimal places as there are digits after the point. The point is the first
character that is no digit. -/
def pointValue {α : Type} [Arithmetic α] (text : List Char) : α :=
  let point := text.findIdx fun c => !c.isDigit
  Arithmetic.ofDecimal (placeValue (text.eraseIdx point)) (text.length - (point + 1))

/-- Digits on either side of a point stand for their number with those on the right as decimal
places. -/
theorem pointValue_append {α : Type} [Arithmetic α] {whole : List Char}
    (hwhole : ∀ c ∈ whole, c.isDigit) (places : List Char) :
    (pointValue (whole ++ '.' :: places) : α) =
      Arithmetic.ofDecimal (placeValue (whole ++ places)) places.length := by
  have hpoint : (whole ++ '.' :: places).findIdx (fun c => !c.isDigit) = whole.length := by
    have hnone : whole.findIdx (fun c => !c.isDigit) = whole.length :=
      List.findIdx_eq_length.mpr fun c hc => by rw [hwhole c hc, Bool.not_true]
    rw [List.findIdx_append, hnone, if_neg (Nat.lt_irrefl _)]
    exact Nat.zero_add _
  rw [pointValue, hpoint, List.eraseIdx_append_of_length_le le_rfl, Nat.sub_self,
    List.eraseIdx_cons_zero, List.length_append, List.length_cons]
  congr 1
  omega

/-- The parser reads digits with a point among them as the number that they stand for. -/
theorem decimalValue_eq_pointValue {α : Type} [Arithmetic α] (text : List Char) :
    (decimalValue text : α) = pointValue text := by
  have hwhole : text.takeWhile Char.isDigit = text.take (text.findIdx fun c => !c.isDigit) :=
    List.takeWhile_eq_take_findIdx_not
  have hlength : (text.take (text.findIdx fun c => !c.isDigit)).length =
      text.findIdx fun c => !c.isDigit := by
    rw [List.length_take, Nat.min_eq_left List.findIdx_le_length]
  rw [decimalValue, pointValue, hwhole, hlength, integerValue_eq_placeValue,
    List.eraseIdx_eq_take_drop_succ, List.length_drop]

/-- Digits with a point in them: at least one before it and any number after it. -/
structure Numeral where
  /-- The digits before the point. -/
  whole : List Char
  /-- The digits after the point. -/
  places : List Char
  /-- There is a digit before the point. -/
  whole_ne_nil : whole ≠ []
  /-- Before the point stand digits. -/
  isDigit_whole : ∀ c ∈ whole, c.isDigit
  /-- After the point stand digits. -/
  isDigit_places : ∀ c ∈ places, c.isDigit

namespace Numeral

/-- The characters of a numeral. -/
def text (n : Numeral) : List Char := n.whole ++ '.' :: n.places

/-- All digits of a numeral, read as one number. -/
def digits (n : Numeral) : Nat := placeValue (n.whole ++ n.places)

/-- A numeral stands for its digits with as many places as stand after the point. -/
theorem pointValue_text {α : Type} [Arithmetic α] (n : Numeral) :
    (pointValue n.text : α) = Arithmetic.ofDecimal n.digits n.places.length :=
  pointValue_append n.isDigit_whole n.places

end Numeral

end DiceOdds.Token
