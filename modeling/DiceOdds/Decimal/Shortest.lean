import DiceOdds.Binary

/-!
# The shortest decimal that reads back

A floating-point number is written with as few digits as identify it: its last digit stands at
the highest place at which some decimal reads back as the number. The places are tried from just
above the leading digit downward, and at each the two multiples next to the number; the nearer
one wins if both read back. Trying the neighbours is enough: the decimals that read back form an
interval around the number, so if any multiple lies in it, so does a neighbour.
-/

namespace DiceOdds

/-- The number `digits · 10 ^ exponent`. -/
structure Decimal where
  /-- The digits, read as one number. -/
  digits : Nat
  /-- The power of ten that the last digit counts. -/
  exponent : Int
  deriving Repr, DecidableEq

namespace Decimal

/-! ## The choice -/

/-- How many digits a number has; zero has one. -/
def length (n : Nat) : Nat := (Nat.toDigits 10 n).length

/-- The exponent of the leading digit of a positive `b`: the greatest `k` with `10 ^ k ≤ b`. -/
def leadingExponent (b : Binary) : Int :=
  let whole := b.floorAt 0
  if 0 < whole then (length whole : Int) - 1
  -- Below 1, the greatest whole number less than the reciprocal has as many digits as there are
  -- places up to the leading digit.
  else -(length ((Binary.decimalScale b.exponent 0 - 1) / b.mantissa) : Int)

/-- A decimal with its last digit at `10 ^ exponent` that reads as `b`, if there is one: the
nearest to `b`, and the larger of two equally near. -/
def atPlace? (b : Binary) (exponent : Int) : Option Decimal :=
  let below := b.floorAt exponent
  let above := below + 1
  let twice := 2 * b.mantissa * Binary.binaryScale b.exponent exponent
  let nearerBelow := twice < (below + above) * Binary.decimalScale b.exponent exponent
  match b.reads below exponent, b.reads above exponent with
  | true, true => some ⟨if nearerBelow then below else above, exponent⟩
  | true, false => some ⟨below, exponent⟩
  | false, true => some ⟨above, exponent⟩
  | false, false => none

/-- All digits of `b`. -/
def exact (b : Binary) : Decimal :=
  if 0 ≤ b.exponent then ⟨b.mantissa * Nat.pow 2 b.exponent.toNat, 0⟩
  else ⟨b.mantissa * Nat.pow 5 (-b.exponent).toNat, b.exponent⟩

/-- The decimal with the fewest digits that reads as `b`. The place above the leading digit is
that of a number which rounds up to a power of ten; seventeen places below it always suffice. -/
def shortest (b : Binary) : Decimal :=
  if b.mantissa = 0 then ⟨0, 0⟩
  else
    let top := leadingExponent b + 1
    ((List.range 18).findSome? fun (n : Nat) => atPlace? b (top - n)).getD (exact b)

/-! ## What is chosen reads back -/

/-- All digits of a number are the number itself, compared on the common scale. -/
theorem exact_scaled (b : Binary) :
    (exact b).digits * Binary.decimalScale (b.exponent - 2) (exact b).exponent =
      4 * b.mantissa * Binary.binaryScale (b.exponent - 2) (exact b).exponent := by
  unfold exact
  split
  · next h =>
    obtain ⟨n, hn⟩ := Int.eq_ofNat_of_zero_le h
    simp only [Binary.decimalScale, Binary.binaryScale, hn, Nat.pow_eq]
    match n with
    | 0 => simp; omega
    | 1 => simp; omega
    | n + 2 =>
      have hpos : ((n + 2 : Nat) - 2 : Int).toNat = n := by omega
      have hneg : (-((n + 2 : Nat) - 2 : Int)).toNat = 0 := by omega
      rw [hpos, hneg, Int.toNat_natCast]
      simp only [Nat.pow_succ]
      grind
  · next h =>
    obtain ⟨n, hn⟩ : ∃ n : Nat, b.exponent = -(n : Int) := ⟨(-b.exponent).toNat, by omega⟩
    have hpos : (-(n : Int) - 2).toNat = 0 := by omega
    have hneg : (-(-(n : Int) - 2)).toNat = n + 2 := by omega
    have hzero : (-(n : Int)).toNat = 0 := by omega
    have hten : (10 : Nat) ^ n = 5 ^ n * 2 ^ n := by rw [← Nat.mul_pow]
    simp only [Binary.decimalScale, Binary.binaryScale, hn, hpos, hneg, hzero, Nat.pow_eq, hten,
      Int.neg_neg, Int.toNat_natCast, Nat.pow_zero]
    grind

/-- All digits of a number read back as the number. -/
theorem reads_exact (b : Binary) : b.reads (exact b).digits (exact b).exponent = true := by
  have hpos : 0 < Binary.binaryScale (b.exponent - 2) (exact b).exponent :=
    Nat.mul_pos (Nat.pow_pos (by decide)) (Nat.pow_pos (by decide))
  simp only [Binary.reads, exact_scaled]
  generalize Binary.binaryScale (b.exponent - 2) (exact b).exponent = scale at hpos
  have low : (4 * b.mantissa - if b.narrowBelow then 1 else 2) * scale ≤ 4 * b.mantissa * scale :=
    Nat.mul_le_mul_right _ (Nat.sub_le _ _)
  have high : 4 * b.mantissa * scale < (4 * b.mantissa + 2) * scale :=
    Nat.mul_lt_mul_of_pos_right (by omega) hpos
  split
  · simp [low, Nat.le_of_lt high]
  · have : (4 * b.mantissa - if b.narrowBelow then 1 else 2) * scale < 4 * b.mantissa * scale :=
      Nat.mul_lt_mul_of_pos_right (by split <;> omega) hpos
    simp [this, high]

/-- What is chosen at a place reads back. -/
theorem reads_of_atPlace? {b : Binary} {place : Int} {d : Decimal}
    (h : atPlace? b place = some d) : b.reads d.digits d.exponent = true := by
  unfold atPlace? at h
  grind

/-- The shortest decimal reads back as the number. -/
theorem reads_shortest (b : Binary) :
    b.reads (shortest b).digits (shortest b).exponent = true := by
  simp only [shortest]
  split
  · next h => simp [Binary.reads, h]
  · cases hfind : (List.range 18).findSome?
      fun (n : Nat) => atPlace? b (leadingExponent b + 1 - n) with
    | none => simpa using reads_exact b
    | some d =>
      obtain ⟨n, -, hn⟩ := List.exists_of_findSome?_eq_some hfind
      exact reads_of_atPlace? hn

end Decimal

end DiceOdds
