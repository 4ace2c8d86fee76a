import DiceOdds.Arithmetic.Binary64
import DiceOdds.Proofs.Binary64.Encoding
import DiceOdds.Proofs.Binary64.Operations

/-!
# The numbers that doubles stand for

A double that is neither infinite nor undefined stands for a rational number. The operations round
the exact result to the nearest number of 53 bits, as long as that does not overflow, and the
comparisons are exact.
-/

namespace DiceOdds.Binary64

open Float.Model

/-- The number that `x` stands for. -/
def value (x : Float) : ℚ :=
  signFactor (signBit x.toBits.toBitVec) * magnitude x.toBits.toBitVec

/-- Whether `x` stands for the number `q`. -/
def HasValue (x : Float) (q : ℚ) : Prop := Encodes x.toModel.unpack q

/-- A finite double stands for a number. -/
theorem hasValue_value {x : Float} (h : x.isFinite) : HasValue x (value x) :=
  encodes_unpack ((isFinite_unpack x.toBits.toBitVec).mp h)

/-- A double that stands for a number is finite. -/
theorem HasValue.isFinite {x : Float} {q : ℚ} (h : HasValue x q) : x.isFinite :=
  Encodes.isFinite h

/-- A double stands for one number only. -/
theorem HasValue.value_eq {x : Float} {q : ℚ} (h : HasValue x q) : value x = q :=
  Encodes.unique (hasValue_value h.isFinite) h

/-- What a double stands for is left as it is by rounding. -/
theorem HasValue.nearest_eq {x : Float} {q : ℚ} (h : HasValue x q) : nearest q = q :=
  Encodes.nearest_eq h

/-- A double stands for no number larger than the largest. -/
theorem HasValue.abs_le {x : Float} {q : ℚ} (h : HasValue x q) : |q| ≤ maxFinite := by
  rw [← h.value_eq]
  exact abs_word_le ((isFinite_unpack x.toBits.toBitVec).mp h.isFinite)

/-- A number that is not too large is what the double it is packed into stands for. -/
theorem hasValue_pack {u : UnpackedFloat} {q : ℚ} (h : Encodes u q)
    (hq : |q| < 2 ^ (1024 : ℤ)) : HasValue (.ofModel (.pack u)) q := by
  have hunpack : (Float.ofModel (.pack u)).toModel.unpack = u := h.unpack_pack hq
  rwa [HasValue, hunpack]

/-- What is little larger than the largest number is rounded down to it. -/
theorem nearest_maxFinite_add : nearest (maxFinite + 2 ^ (65 : ℤ)) = maxFinite := by
  have hbits : maxFinite = ((2 ^ 53 - 1 : ℤ) : ℚ) * 2 ^ (971 : ℤ) := by
    rw [maxFinite, Int.cast_sub, Int.cast_pow, Int.cast_ofNat, Int.cast_one]
  rw [hbits]
  apply nearest_add_of_lt_half (by norm_num) (by norm_num) (by norm_num) (by positivity)
  exact zpow_lt_zpow_right₀ one_lt_two (by norm_num)

/-- A number that is little larger than the largest does not overflow. -/
theorem abs_nearest_lt {q : ℚ} (h : |q| ≤ maxFinite + 2 ^ (65 : ℤ)) :
    |nearest q| < 2 ^ (1024 : ℤ) := by
  -- Rounding keeps the order, and the bounds themselves are rounded to the largest number.
  obtain ⟨hlower, hupper⟩ := abs_le.mp h
  have hle : |nearest q| ≤ maxFinite := by
    rw [abs_le]
    constructor
    · calc -maxFinite = nearest (-(maxFinite + 2 ^ (65 : ℤ))) := by
            rw [nearest_neg, nearest_maxFinite_add]
        _ ≤ nearest q := nearest_mono hlower
    · calc nearest q ≤ nearest (maxFinite + 2 ^ (65 : ℤ)) := nearest_mono hupper
        _ = maxFinite := nearest_maxFinite_add
  exact hle.trans_lt maxFinite_lt

/-- What fits in a word does not overflow. -/
theorem abs_nearest_lt_of_le {q : ℚ} (h : |q| ≤ 2 ^ (65 : ℤ)) : |nearest q| < 2 ^ (1024 : ℤ) := by
  apply abs_nearest_lt
  have : 0 ≤ maxFinite := mul_nonneg (by norm_num) (zpow_nonneg zero_le_two _)
  linarith

/-! ## Arithmetic -/

/-- A sum that does not overflow is the number nearest to the exact sum. -/
theorem HasValue.add {x y : Float} {p q : ℚ} (hx : HasValue x p) (hy : HasValue y q)
    (h : |nearest (p + q)| < 2 ^ (1024 : ℤ)) : HasValue (x + y) (nearest (p + q)) :=
  hasValue_pack (Encodes.add hx hy) h

/-- A difference that does not overflow is the number nearest to the exact difference. -/
theorem HasValue.sub {x y : Float} {p q : ℚ} (hx : HasValue x p) (hy : HasValue y q)
    (h : |nearest (p - q)| < 2 ^ (1024 : ℤ)) : HasValue (x - y) (nearest (p - q)) :=
  hasValue_pack (Encodes.sub hx hy) h

/-- A product that does not overflow is the number nearest to the exact product. -/
theorem HasValue.mul {x y : Float} {p q : ℚ} (hx : HasValue x p) (hy : HasValue y q)
    (h : |nearest (p * q)| < 2 ^ (1024 : ℤ)) : HasValue (x * y) (nearest (p * q)) :=
  hasValue_pack (Encodes.mul hx hy) h

/-! ## Comparison -/

/-- The strict order is that of the numbers. -/
theorem HasValue.lt_iff {x y : Float} {p q : ℚ} (hx : HasValue x p) (hy : HasValue y q) :
    x < y ↔ p < q := by
  have hlt : x < y ↔ (x.toModel.unpack.compare y.toModel.unpack == some .lt) = true :=
    decide_eq_true_iff
  rw [hlt, Encodes.compare_eq hx hy, beq_iff_eq, Option.some_inj, compare_lt_iff_lt]

/-- The weak order is that of the numbers. -/
theorem HasValue.le_iff {x y : Float} {p q : ℚ} (hx : HasValue x p) (hy : HasValue y q) :
    x ≤ y ↔ p ≤ q := by
  have hle : x ≤ y ↔ (x.toModel.unpack.compare y.toModel.unpack).any (·.isLE) = true :=
    decide_eq_true_iff
  rw [hle, Encodes.compare_eq hx hy, Option.any_some, Ordering.isLE_iff_ne_gt,
    compare_gt_iff_gt, not_lt]

/-- Doubles are equal if their numbers are. -/
theorem HasValue.beq_iff {x y : Float} {p q : ℚ} (hx : HasValue x p) (hy : HasValue y q) :
    x == y ↔ p = q := by
  have heq : (x == y) = (x.toModel.unpack.compare y.toModel.unpack == some .eq) := rfl
  rw [heq, Encodes.compare_eq hx hy, beq_iff_eq, Option.some_inj, compare_eq_iff_eq]

/-! ## Natural numbers -/

/-- The double with the bits of 1 stands for 1. -/
theorem hasValue_one : HasValue (Float.ofBits 0x3ff0000000000000) 1 := by
  have hvalue : value (Float.ofBits 0x3ff0000000000000) = 1 := by decide +kernel
  rw [← hvalue]
  exact hasValue_value (by decide +kernel)

/-- A word becomes the nearest double. -/
theorem hasValue_toFloat (n : UInt64) : HasValue n.toFloat (nearest n.toNat) := by
  have hencodes := encodes_normalize (n.toNat : ℤ) 0 .positive
  rw [zpow_zero, mul_one, Int.cast_natCast] at hencodes
  apply hasValue_pack hencodes
  apply abs_nearest_lt_of_le
  rw [Nat.abs_cast]
  exact_mod_cast n.toNat_lt.le.trans (by norm_num)

/-- A whole number is given 53 bits more before it is rounded, so that there are enough. -/
theorem ofScientific_eq {n : ℕ} (h : 0 < n) :
    UnpackedFloat.ofScientific Format.binary64 n 0 =
      UnpackedFloat.roundWithAccuracy Format.binary64 .positive (n * 2 ^ 53) (-53) .exact := by
  have hlog : ¬ (0 : ℤ) < -(2 ^ Format.binary64.exponentBits + n.log2) := by
    have : (0 : ℤ) ≤ 2 ^ Format.binary64.exponentBits + n.log2 := by positivity
    omega
  have hmantissa : n <<< Format.binary64.mantissaBits * 10 ^ (0 : ℤ).toNat = n * 2 ^ 53 := by
    rw [Nat.shiftLeft_eq, Int.toNat_zero, pow_zero, mul_one]
    rfl
  have hexponent : -(Format.binary64.mantissaBits : ℤ) + 0 = -53 := by decide
  rw [UnpackedFloat.ofScientific, dif_neg h.ne', if_neg (by decide), if_neg hlog,
    if_pos le_rfl, UnpackedFloat.mul, hmantissa, hexponent]
  rfl

/-- A whole number is rounded to the nearest number. -/
theorem encodes_ofScientific (n : ℕ) :
    Encodes (UnpackedFloat.ofScientific Format.binary64 n 0) (nearest n) := by
  obtain rfl | hpos := n.eq_zero_or_pos
  · rw [Nat.cast_zero, nearest_zero]
    exact Encodes.zero .positive
  have hpos' : 0 < n * 2 ^ 53 := by positivity
  have hvalue : ((n * 2 ^ 53 : ℕ) : ℚ) * 2 ^ (-53 : ℤ) = n := by
    push_cast
    rw [mul_assoc]
    norm_num
  have hbits : (-53 : ℤ) ≤ Format.binary64.targetExponent (totalExponent (n * 2 ^ 53) (-53)) := by
    have hlog : 52 ≤ (n * 2 ^ 53).log2 := by
      rw [Nat.le_log2 hpos'.ne']
      omega
    rw [targetExponent_eq]
    omega
  have htarget := targetExponent_eq_gridExponent hpos' (Int.floor_natCast (n * 2 ^ 53)) (-53)
  have h := encodes_roundWithAccuracy .positive (by exact_mod_cast hpos')
    (truncates_exact (n * 2 ^ 53)) htarget (htarget ▸ hbits)
  rw [hvalue, signFactor, one_mul] at h
  rwa [ofScientific_eq hpos]

/-- A natural number becomes the nearest double, if that does not overflow. -/
theorem hasValue_ofNat {n : ℕ} (h : |nearest n| < 2 ^ (1024 : ℤ)) :
    HasValue (Float.ofNat n) (nearest n) := by
  change HasValue (Float.ofScientific n false 0) (nearest n)
  unfold Float.ofScientific
  by_cases hsmall : n < 2 ^ 53 ∧ 0 ≤ 22
  · -- A number of at most 53 bits goes through a word, and is multiplied by the power 1 of 10.
    rw [dif_pos hsmall]
    change HasValue (n.toUInt64.toFloat * Float.ofBits 0x3ff0000000000000) (nearest n)
    have hword : n.toUInt64.toNat = n := UInt64.toNat_ofNat_of_lt' (by
      have := hsmall.1
      norm_num [UInt64.size]
      omega)
    have hn := hasValue_toFloat n.toUInt64
    rw [hword] at hn
    have hmul := hn.mul hasValue_one
    rw [mul_one, hn.nearest_eq] at hmul
    exact hmul h
  · rw [dif_neg hsmall]
    exact hasValue_pack (encodes_ofScientific n) h

/-- A natural number of at most 53 bits is a double. -/
theorem hasValue_ofNat_of_le {n : ℕ} (h : n ≤ 2 ^ 53) : HasValue (Float.ofNat n) n := by
  have hn := hasValue_ofNat (n := n) (abs_nearest_lt_of_le (by
    rw [Nat.abs_cast]
    exact_mod_cast h.trans (by norm_num)))
  rwa [(representable_natCast h).nearest_eq] at hn

/-! ## The number of doubles -/

/-- The words that can stand for a number: not those of the two infinities. -/
def finiteWords : Finset ℕ :=
  ((Finset.range (2 ^ 64)).erase 0x7ff0000000000000).erase 0xfff0000000000000

/-- A finite double is one of these words. -/
theorem toNat_toBits_mem_finiteWords {x : Float} (h : x.isFinite) :
    x.toBits.toNat ∈ finiteWords := by
  have hexp : x.toBits.toNat / 2 ^ 52 % 2 ^ 11 ≠ 2047 :=
    (isFinite_unpack x.toBits.toBitVec).mp h
  have hlt := x.toBits.toNat_lt
  rw [finiteWords, Finset.mem_erase, Finset.mem_erase, Finset.mem_range]
  omega

/-- There are not as many of them as a word can number. -/
theorem card_finiteWords : finiteWords.card < wordMax := by
  have hsecond : 0xfff0000000000000 ∈ (Finset.range (2 ^ 64)).erase 0x7ff0000000000000 := by
    rw [Finset.mem_erase, Finset.mem_range]
    omega
  rw [finiteWords, Finset.card_erase_of_mem hsecond,
    Finset.card_erase_of_mem (Finset.mem_range.mpr (by norm_num)), Finset.card_range]
  decide

end DiceOdds.Binary64
