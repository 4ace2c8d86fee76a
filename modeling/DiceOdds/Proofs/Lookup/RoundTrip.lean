import DiceOdds.Distribution.Basic
import DiceOdds.Proofs.Binary64.Value

/-!
# From a slot to its value and back

Sampling adds a slot's number to the constant of a table, and looking up a probability subtracts
the constant again. Both round, and rounding is the same over the rational numbers and over
doubles. With a constant of few enough bits nothing is rounded at all.
-/

namespace DiceOdds.Distribution

open Arithmetic Binary64

/-! ## The way there and back over the rational numbers -/

/-- The value of slot `i` above the constant `c`, every sum rounded. -/
def slotValue (c : ℚ) (i : ℕ) : ℚ := nearest (nearest (c + nearest i) + 1)

/-- The largest value of a table of `size` slots above the constant `c`, every sum rounded. -/
def topValue (c : ℚ) (size : ℕ) : ℚ := nearest (nearest size + c)

/-- Whether the way from slot `i` to its value and back ends at slot `i`. -/
structure RoundTrips (c : ℚ) (size i : ℕ) : Prop where
  /-- The distance of the value to the constant is rounded to the number of the slot. -/
  distance_eq : nearest (slotValue c i - c) = i + 1
  /-- The value is not above the largest one. -/
  le_top : slotValue c i ≤ topValue c size

/-- A number with `k` bits of fraction can be held if all its bits are at most 53. -/
theorem representable_div_add {k : ℕ} (hk : k ≤ 1074) {m j : ℤ} (h : |m + j * 2 ^ k| ≤ 2 ^ 53) :
    Representable (m / 2 ^ k + j) := by
  refine ⟨m + j * 2 ^ k, -k, h, by omega, ?_⟩
  have hpos : (2 : ℚ) ^ k ≠ 0 := by positivity
  rw [zpow_neg, zpow_natCast, ← div_eq_mul_inv]
  push_cast
  rw [add_div, mul_div_cancel_right₀ _ hpos]

/-- Without rounding every way back ends where it started: the constant has `k` bits of fraction,
and 53 bits have room for the constant and for the number of slots. -/
theorem roundTrips_of_bits {k : ℕ} (hk : k ≤ 1074) {m : ℤ} {size i : ℕ}
    (hbits : |m| + size * 2 ^ k ≤ 2 ^ 53) (hi : i < size) : RoundTrips (m / 2 ^ k) size i := by
  have hone : (1 : ℤ) ≤ 2 ^ k := one_le_pow₀ one_le_two
  have hsize : size ≤ 2 ^ 53 := by
    have : (size : ℤ) ≤ size * 2 ^ k := le_mul_of_one_le_right (Int.natCast_nonneg size) hone
    have := abs_nonneg m
    omega
  -- Every number on the way is a constant plus a number of slots, which the bits have room for.
  have hsum {j : ℕ} (hj : j ≤ size) : nearest (m / 2 ^ k + j) = m / 2 ^ k + j := by
    have hle : |m + j * 2 ^ k| ≤ 2 ^ 53 := by
      calc |m + j * 2 ^ k| ≤ |m| + |(j : ℤ) * 2 ^ k| := abs_add_le _ _
        _ = |m| + j * 2 ^ k := by rw [abs_of_nonneg (a := (j : ℤ) * 2 ^ k) (by positivity)]
        _ ≤ |m| + size * 2 ^ k := by
          have : (j : ℤ) * 2 ^ k ≤ size * 2 ^ k :=
            mul_le_mul_of_nonneg_right (by exact_mod_cast hj) (by positivity)
          omega
        _ ≤ 2 ^ 53 := hbits
    exact_mod_cast (representable_div_add hk hle).nearest_eq
  have hnat {j : ℕ} (hj : j ≤ size) : nearest j = j :=
    (representable_natCast (hj.trans hsize)).nearest_eq
  have hslot : slotValue (m / 2 ^ k) i = m / 2 ^ k + (i + 1 : ℕ) := by
    rw [slotValue, hnat hi.le, hsum hi.le, add_assoc, ← Nat.cast_add_one, hsum hi]
  have htop : topValue (m / 2 ^ k) size = m / 2 ^ k + size := by
    rw [topValue, hnat le_rfl, add_comm, hsum le_rfl]
  constructor
  · rw [hslot, add_sub_cancel_left, hnat hi, Nat.cast_add_one]
  · rw [hslot, htop]
    have : ((i + 1 : ℕ) : ℚ) ≤ size := by exact_mod_cast hi
    linarith

/-! ## The way there and back over doubles -/

/-- A slot that a word can number. -/
theorem abs_nearest_natCast_le {n : ℕ} (h : n ≤ 2 ^ 64) : |nearest n| ≤ 2 ^ (64 : ℤ) := by
  apply abs_nearest_le ⟨1, 64, by norm_num, by norm_num, by simp⟩
  rw [Nat.abs_cast]
  exact_mod_cast h

/-- A slot's number becomes the nearest double. -/
theorem hasValue_slot {n : ℕ} (h : n ≤ 2 ^ 64) : HasValue (ofNat n : Float) (nearest n) := by
  apply hasValue_ofNat
  exact (abs_nearest_natCast_le h).trans_lt (zpow_lt_zpow_right₀ one_lt_two (by norm_num))

variable {d : Distribution Float} {c : ℚ}

/-- The outcome of a slot is the value of the slot. -/
theorem hasValue_outcome (hc : HasValue d.constant c) {i : ℕ} (hi : i ≤ 2 ^ 64) :
    HasValue (d.outcome i) (slotValue c i) := by
  have hone : HasValue (ofNat 1 : Float) (1 : ℕ) := hasValue_ofNat_of_le (by norm_num)
  rw [Nat.cast_one] at hone
  have hpow : (2 : ℚ) ^ (64 : ℤ) + 1 ≤ 2 ^ (65 : ℤ) := by norm_num
  have hfirst : HasValue (d.constant + ofNat i) (nearest (c + nearest i)) := by
    apply hc.add (hasValue_slot hi)
    apply abs_nearest_lt
    calc |c + nearest i| ≤ |c| + |nearest i| := abs_add_le _ _
      _ ≤ maxFinite + 2 ^ (65 : ℤ) := by
        have := hc.abs_le
        have := abs_nearest_natCast_le hi
        linarith
  apply hfirst.add hone
  apply abs_nearest_lt
  calc |nearest (c + nearest i) + 1| ≤ |nearest (c + nearest i)| + |(1 : ℚ)| := abs_add_le _ _
    _ ≤ maxFinite + 2 ^ (65 : ℤ) := by
      have := hfirst.abs_le
      rw [abs_one]
      linarith

/-- The largest outcome computed for a table is the largest value. -/
theorem hasValue_maxValue (hc : HasValue d.constant c) (hsize : d.size ≤ 2 ^ 64) :
    HasValue d.maxValue (topValue c d.size) := by
  apply (hasValue_slot hsize).add hc
  apply abs_nearest_lt
  calc |nearest d.size + c| ≤ |nearest d.size| + |c| := abs_add_le _ _
    _ ≤ maxFinite + 2 ^ (65 : ℤ) := by
      have := hc.abs_le
      have := abs_nearest_natCast_le hsize
      have : (2 : ℚ) ^ (64 : ℤ) ≤ 2 ^ (65 : ℤ) := by norm_num
      linarith

/-- The value of a slot is not below the constant. -/
theorem le_slotValue (hc : nearest c = c) (i : ℕ) : c ≤ slotValue c i := by
  have hnat : 0 ≤ nearest (i : ℚ) := nearest_nonneg (Nat.cast_nonneg i)
  have hfirst : c ≤ nearest (c + nearest i) := by
    calc c = nearest c := hc.symm
      _ ≤ nearest (c + nearest i) := nearest_mono (by linarith)
  calc c = nearest c := hc.symm
    _ ≤ slotValue c i := nearest_mono (by linarith)

/-- Above a constant that is not positive, a slot's value is no larger than its number takes. -/
theorem slotValue_le (hc : c ≤ 0) {i : ℕ} (hi : i ≤ 2 ^ 64) : slotValue c i ≤ 2 ^ (65 : ℤ) := by
  have hnat := (abs_le.mp (abs_nearest_natCast_le hi)).2
  have h64 : Representable (2 ^ (64 : ℤ)) := ⟨1, 64, by norm_num, by norm_num, by simp⟩
  have h65 : Representable (2 ^ (65 : ℤ)) := ⟨1, 65, by norm_num, by norm_num, by simp⟩
  have hfirst : nearest (c + nearest i) ≤ 2 ^ (64 : ℤ) := by
    calc nearest (c + nearest i) ≤ nearest (2 ^ (64 : ℤ)) := nearest_mono (by linarith)
      _ = 2 ^ (64 : ℤ) := h64.nearest_eq
  have hpow : (2 : ℚ) ^ (64 : ℤ) + 1 ≤ 2 ^ (65 : ℤ) := by norm_num
  calc slotValue c i ≤ nearest (2 ^ (65 : ℤ)) := nearest_mono (by linarith)
    _ = 2 ^ (65 : ℤ) := h65.nearest_eq

/-- The distance of an outcome to the constant is the rounded distance of the values. -/
theorem hasValue_distance (hc : HasValue d.constant c) {i : ℕ} (hi : i ≤ 2 ^ 64) :
    HasValue (d.outcome i - d.constant) (nearest (slotValue c i - c)) := by
  have hslot := hasValue_outcome hc hi
  apply hslot.sub hc
  apply abs_nearest_lt
  -- The distance overflows for no constant: a negative one has small values only, and above any
  -- other the distance is not larger than the value.
  have hle := le_slotValue hc.nearest_eq i
  have hmax := (abs_le.mp hslot.abs_le).2
  have hmin := (abs_le.mp hc.abs_le).1
  rw [abs_of_nonneg (by linarith)]
  obtain hneg | hpos := le_total c 0
  · have := slotValue_le hneg hi
    linarith
  · have : (0 : ℚ) ≤ 2 ^ (65 : ℤ) := by positivity
    linarith

end DiceOdds.Distribution
