import DiceOdds.Proofs.Binary64.Value

/-!
# Whole numbers among the doubles

The fraction of a double is cut off by clearing bits, and a double becomes a word by shifting its
mantissa. Both give the whole part of the number that the double stands for, toward zero, so that
the test for whole numbers is exact.
-/

namespace DiceOdds.Binary64

open Float.Model UnpackedFloat

/-- The whole part of `q`, toward zero. -/
def wholePart (q : ℚ) : ℤ := if 0 ≤ q then ⌊q⌋ else -⌊-q⌋

/-- A whole number is its own whole part. -/
@[simp] theorem wholePart_intCast (n : ℤ) : wholePart n = n := by
  unfold wholePart
  split_ifs
  · exact Int.floor_intCast n
  · rw [← Int.cast_neg, Int.floor_intCast, neg_neg]

/-- The whole part of a signed number has the number's sign. -/
theorem wholePart_sign (s : Sign) {y : ℚ} (h : 0 ≤ y) :
    wholePart (signFactor s * y) = s.apply ⌊y⌋ := by
  cases s with
  | negative =>
    rw [signFactor, neg_one_mul, Sign.apply, wholePart]
    split_ifs with hneg
    · rw [show y = 0 by linarith]
      simp
    · rw [neg_neg]
  | positive =>
    rw [signFactor, one_mul, Sign.apply, wholePart, if_pos h]

/-- The whole part of a larger number is not smaller. -/
theorem wholePart_mono {p q : ℚ} (hp : 0 ≤ p) (h : p ≤ q) : wholePart p ≤ wholePart q := by
  rw [wholePart, wholePart, if_pos hp, if_pos (hp.trans h)]
  exact Int.floor_le_floor h

/-- The whole part of a number from 1 up is from 1 up. -/
theorem one_le_wholePart {q : ℚ} (h : 1 ≤ q) : 1 ≤ wholePart q := by
  have hmono := wholePart_mono zero_le_one h
  rwa [← Int.cast_one, wholePart_intCast] at hmono

/-- What is cut off from a number is less than 1. -/
theorem abs_sub_wholePart_lt (q : ℚ) : |q - wholePart q| < 1 := by
  unfold wholePart
  rw [abs_lt]
  split_ifs
  · constructor <;> linarith [Int.floor_le q, Int.lt_floor_add_one q]
  · push_cast
    constructor <;> linarith [Int.floor_le (-q), Int.lt_floor_add_one (-q)]

/-! ## Doubles as words -/

/-- A mantissa is shifted to the whole part of its number. -/
theorem roundToInt_eq (s : Sign) (m : ℕ) (e : ℤ) :
    roundToInt s m e = s.apply ⌊(m * 2 ^ e : ℚ)⌋ := by
  have hvalue := decreaseExponent_value m e 0
  have hle := decreaseExponent_snd_le m e 0
  rw [roundToInt]
  generalize decreaseExponent m e 0 = p at *
  obtain ⟨m', e'⟩ := p
  simp only at hvalue hle ⊢
  have hfloor := ((truncates_exact m').shiftRight (0 - e').toNat).floor_eq
  have hscale : (m' : ℚ) / 2 ^ (0 - e').toNat = m * 2 ^ e := by
    rw [← hvalue, ← zpow_natCast, div_eq_mul_inv, ← zpow_neg]
    congr 2
    omega
  rw [hscale] at hfloor
  rw [hfloor]
  rfl

/-- A double becomes the whole part of its number, within the limits of a word. -/
theorem HasValue.toWord_eq {x : Float} {q : ℚ} (h : HasValue x q) :
    Arithmetic.toWord x = min (wholePart q).toNat wordMax := by
  have htoInt : x.toModel.unpack.toInt 0 (UInt64.size - 1) = wholePart q := by
    unfold HasValue at h
    generalize x.toModel.unpack = u at h
    cases h with
    | zero s => exact (wholePart_intCast 0).symm
    | finite s m e =>
      rw [wholePart_sign s (by positivity)]
      exact roundToInt_eq s m e
  have hword : Arithmetic.toWord x = (UInt64.ofNatClamp (wholePart q).toNat).toNat := by
    rw [← htoInt]
    rfl
  rw [hword]
  have hmax : wordMax = UInt64.size - 1 := rfl
  obtain hlt | hge := lt_or_ge (wholePart q).toNat UInt64.size
  · rw [UInt64.toNat_ofNatClamp_of_lt hlt]
    omega
  · rw [UInt64.toNat_ofNatClamp_of_le hge]
    omega

/-! ## Cutting off the fraction -/

/-- The exponent field is that of the word. -/
theorem toNat_exponentField (x : Float) :
    (exponentField x).toNat = exponentBits x.toBits.toBitVec := by
  have hmask : ((0x7ff : UInt64).toNat) = 2 ^ 11 - 1 := rfl
  rw [exponentField, UInt64.toNat_and, UInt64.toNat_shiftRight, hmask,
    Nat.and_two_pow_sub_one_eq_mod, Nat.shiftRight_eq_div_pow]
  rfl

/-- A word whose exponent field is not the largest is a double that stands for its number. -/
theorem hasValue_ofBits {w : UInt64} (h : exponentBits w.toBitVec ≠ 2047) :
    HasValue (Float.ofBits w) (signFactor (signBit w.toBitVec) * magnitude w.toBitVec) :=
  hasValue_pack (encodes_unpack h) ((abs_word_le h).trans_lt maxFinite_lt)

/-- The word of which only the sign is left stands for 0. -/
theorem hasValue_signOnly (w : UInt64) :
    HasValue (Float.ofBits (w &&& 0x8000000000000000)) 0 := by
  have hword : (w &&& 0x8000000000000000).toBitVec.toNat = (w.toNat.testBit 63).toNat * 2 ^ 63 :=
    Nat.and_two_pow w.toNat 63
  have hexp : exponentBits (w &&& 0x8000000000000000).toBitVec = 0 := by
    rw [exponentBits, hword]
    omega
  have hfrac : fractionBits (w &&& 0x8000000000000000).toBitVec = 0 := by
    rw [fractionBits, hword]
    omega
  have h := hasValue_ofBits (w := w &&& 0x8000000000000000) (by omega)
  rwa [magnitude, mantissaOf, if_pos hexp, hfrac, add_zero, Nat.cast_zero, zero_mul, mul_zero] at h

/-- Clearing the last bits of a word clears those of its fraction. -/
theorem div_mul_two_pow (n : ℕ) {k : ℕ} (hk : k ≤ 52) :
    n / 2 ^ k * 2 ^ k = n / 2 ^ 52 * 2 ^ 52 + n % 2 ^ 52 / 2 ^ k * 2 ^ k := by
  have hpow : 2 ^ 52 = 2 ^ (52 - k) * 2 ^ k := by rw [← pow_add, Nat.sub_add_cancel hk]
  have hsplit : n = n % 2 ^ 52 + n / 2 ^ 52 * 2 ^ (52 - k) * 2 ^ k := by
    rw [mul_assoc, ← hpow, mul_comm, Nat.mod_add_div]
  have hdiv : n / 2 ^ k = n % 2 ^ 52 / 2 ^ k + n / 2 ^ 52 * 2 ^ (52 - k) := by
    conv_lhs => rw [hsplit]
    exact Nat.add_mul_div_right _ _ (by positivity)
  rw [hdiv, add_mul, mul_assoc, ← hpow, add_comm]

section ClearBits

variable {w n : UInt64} (hn : n.toNat ≤ 52)

include hn

/-- The word with its last bits cleared. -/
theorem toNat_clearBits : ((w >>> n) <<< n).toBitVec.toNat =
    w.toNat / 2 ^ 52 * 2 ^ 52 + w.toNat % 2 ^ 52 / 2 ^ n.toNat * 2 ^ n.toNat := by
  have hlt : w.toNat / 2 ^ n.toNat * 2 ^ n.toNat < 2 ^ 64 :=
    lt_of_le_of_lt (Nat.div_mul_le_self _ _) w.toNat_lt
  rw [UInt64.toNat_toBitVec, UInt64.toNat_shiftLeft, UInt64.toNat_shiftRight,
    Nat.mod_eq_of_lt (show n.toNat < 64 by omega), Nat.shiftRight_eq_div_pow, Nat.shiftLeft_eq,
    Nat.mod_eq_of_lt hlt, div_mul_two_pow w.toNat hn]

/-- Clearing bits of the fraction leaves the exponent field. -/
theorem exponentBits_clearBits :
    exponentBits ((w >>> n) <<< n).toBitVec = exponentBits w.toBitVec := by
  have hlow := Nat.div_mul_le_self (w.toNat % 2 ^ 52) (2 ^ n.toNat)
  rw [exponentBits, exponentBits, toNat_clearBits hn]
  change _ = w.toNat / 2 ^ 52 % 2 ^ 11
  omega

/-- Clearing bits of the fraction rounds it down. -/
theorem fractionBits_clearBits : fractionBits ((w >>> n) <<< n).toBitVec =
    fractionBits w.toBitVec / 2 ^ n.toNat * 2 ^ n.toNat := by
  have hlow := Nat.div_mul_le_self (w.toNat % 2 ^ 52) (2 ^ n.toNat)
  rw [fractionBits, toNat_clearBits hn]
  change _ = w.toNat % 2 ^ 52 / 2 ^ n.toNat * 2 ^ n.toNat
  omega

/-- Clearing bits of the fraction leaves the sign. -/
theorem signBit_clearBits : signBit ((w >>> n) <<< n).toBitVec = signBit w.toBitVec := by
  have hlow := Nat.div_mul_le_self (w.toNat % 2 ^ 52) (2 ^ n.toNat)
  have hiff : ((w >>> n) <<< n).toBitVec.toNat < 2 ^ 63 ↔ w.toBitVec.toNat < 2 ^ 63 := by
    rw [toNat_clearBits hn]
    change _ ↔ w.toNat < 2 ^ 63
    omega
  simp only [signBit, hiff]

/-- Clearing bits of the fraction rounds the mantissa down: its leading bit is not cleared. -/
theorem mantissaOf_clearBits (h : exponentBits w.toBitVec ≠ 0) :
    mantissaOf ((w >>> n) <<< n).toBitVec =
      mantissaOf w.toBitVec / 2 ^ n.toNat * 2 ^ n.toNat := by
  have hpow : 2 ^ 52 = 2 ^ (52 - n.toNat) * 2 ^ n.toNat := by
    rw [← pow_add, Nat.sub_add_cancel hn]
  have hdiv : mantissaOf w.toBitVec / 2 ^ n.toNat =
      fractionBits w.toBitVec / 2 ^ n.toNat + 2 ^ (52 - n.toNat) := by
    rw [mantissaOf, if_neg h, add_comm, hpow]
    exact Nat.add_mul_div_right _ _ (by positivity)
  rw [hdiv, add_mul, ← hpow, mantissaOf, exponentBits_clearBits hn, if_neg h,
    fractionBits_clearBits hn, add_comm]

/-- A word whose fraction is cleared stands for a whole number. -/
theorem hasValue_clearBits (hexp : exponentBits w.toBitVec = 1075 - n.toNat) :
    HasValue (Float.ofBits ((w >>> n) <<< n))
      (signFactor (signBit w.toBitVec) * (mantissaOf w.toBitVec / 2 ^ n.toNat : ℕ)) := by
  have hfield := exponentBits_clearBits (w := w) hn
  have hexponent : exponentOf ((w >>> n) <<< n).toBitVec = -n.toNat := by
    unfold exponentOf
    omega
  have h := hasValue_ofBits (w := (w >>> n) <<< n) (by omega)
  rw [signBit_clearBits hn, magnitude, mantissaOf_clearBits hn (by omega), hexponent, zpow_neg,
    zpow_natCast, Nat.cast_mul, Nat.cast_pow, Nat.cast_ofNat,
    mul_inv_cancel_right₀ (by positivity)] at h
  exact h

end ClearBits

/-- A number with an exponent field below 1023 is below 1 in magnitude. -/
theorem floor_magnitude_of_small {b : BitVec 64} (h : exponentBits b < 1023) :
    ⌊magnitude b⌋ = (0 : ℕ) := by
  have hpos : (0 : ℚ) < 2 ^ exponentOf b := by positivity
  have hexponent : exponentOf b ≤ -53 := by
    unfold exponentOf
    omega
  rw [Int.floor_eq_iff]
  refine ⟨by exact_mod_cast magnitude_nonneg b, ?_⟩
  calc magnitude b < 2 ^ (53 : ℤ) * 2 ^ exponentOf b :=
        mul_lt_mul_of_pos_right (by exact_mod_cast mantissaOf_lt b) hpos
    _ ≤ 2 ^ (53 : ℤ) * 2 ^ (-53 : ℤ) :=
        mul_le_mul_of_nonneg_left (zpow_le_zpow_right₀ one_le_two hexponent) (by positivity)
    _ = ((0 : ℕ) : ℤ) + 1 := by norm_num

/-- A number with an exponent field below 1075 has a fraction of as many bits as are missing. -/
theorem floor_magnitude_of_middle {b : BitVec 64} {k : ℕ} (hk : k ≤ 52)
    (h : exponentBits b = 1075 - k) : ⌊magnitude b⌋ = (mantissaOf b / 2 ^ k : ℕ) := by
  have hexponent : exponentOf b = -k := by
    unfold exponentOf
    omega
  rw [magnitude, hexponent, zpow_neg, zpow_natCast, ← div_eq_mul_inv, ← Nat.cast_ofNat,
    ← Nat.cast_pow, Rat.floor_natCast_div_natCast, ← Int.natCast_ediv]

/-- A number with an exponent field of 1075 or more has no fraction. -/
theorem exists_magnitude_eq {b : BitVec 64} (h : 1075 ≤ exponentBits b) :
    ∃ n : ℕ, magnitude b = n := by
  obtain ⟨n, hn⟩ : ∃ n : ℕ, exponentOf b = n :=
    Int.eq_ofNat_of_zero_le (by unfold exponentOf; omega)
  refine ⟨mantissaOf b * 2 ^ n, ?_⟩
  rw [magnitude, hn, zpow_natCast]
  push_cast
  rfl

/-- The whole part of a double is the whole part of its number. -/
theorem HasValue.trunc {x : Float} {q : ℚ} (h : HasValue x q) :
    HasValue (trunc x) (wholePart q) := by
  have hfield := toNat_exponentField x
  rw [← h.value_eq, value, wholePart_sign _ (magnitude_nonneg _)]
  simp only [Binary64.trunc, UInt64.lt_iff_toNat_lt, hfield]
  -- All bits are fraction, or some, or none.
  split_ifs with hsmall hmiddle
  · rw [floor_magnitude_of_small hsmall, cast_apply, Nat.cast_zero, mul_zero]
    exact hasValue_signOnly x.toBits
  · change ¬ exponentBits x.toBits.toBitVec < 1023 at hsmall
    change exponentBits x.toBits.toBitVec < 1075 at hmiddle
    have hbits : (1075 - exponentField x).toNat = 1075 - exponentBits x.toBits.toBitVec := by
      rw [← hfield]
      exact UInt64.toNat_sub_of_le _ _ (UInt64.le_iff_toNat_le.mpr (hfield ▸ hmiddle.le))
    rw [floor_magnitude_of_middle (k := (1075 - exponentField x).toNat) (by omega) (by omega),
      cast_apply]
    exact hasValue_clearBits (by omega) (by omega)
  · change ¬ exponentBits x.toBits.toBitVec < 1075 at hmiddle
    obtain ⟨n, hn⟩ := exists_magnitude_eq (not_lt.mp hmiddle)
    have hvalue := hasValue_value h.isFinite
    rw [value, hn] at hvalue
    rwa [hn, Int.floor_natCast, cast_apply]

/-! ## The test for whole numbers -/

/-- A double is a multiple of the finest grid. -/
theorem HasValue.exists_eq {x : Float} {q : ℚ} (h : HasValue x q) :
    ∃ k : ℤ, q = k * 2 ^ (-1074 : ℤ) := by
  unfold HasValue at h
  generalize x.toModel.unpack = u at h
  cases h with
  | zero => exact ⟨0, by simp⟩
  | finite s m e hpos hlt he =>
    obtain ⟨k, hk⟩ := exists_mul_two_zpow (s.apply m) he
    refine ⟨k, ?_⟩
    rw [← hk, cast_apply, mul_assoc]

/-- The difference of two doubles is 0 only if they stand for the same number. -/
theorem HasValue.sub_beq_zero_iff {x y : Float} {p q : ℚ} (hx : HasValue x p) (hy : HasValue y q)
    (h : |p - q| ≤ 2 ^ (65 : ℤ)) : x - y == Float.ofNat 0 ↔ p = q := by
  have hzero := hasValue_ofNat_of_le (n := 0) (by norm_num)
  rw [Nat.cast_zero] at hzero
  rw [(hx.sub hy (abs_nearest_lt_of_le h)).beq_iff hzero]
  -- The difference is on the finest grid, so it is too large to be rounded to 0 if it is not 0.
  obtain ⟨k, hk⟩ := hx.exists_eq
  obtain ⟨l, hl⟩ := hy.exists_eq
  have hsub : p - q = (k - l : ℤ) * 2 ^ (-1074 : ℤ) := by
    rw [hk, hl, ← sub_mul, Int.cast_sub]
  constructor
  · intro hnearest
    rw [hsub] at hnearest
    rw [hk, hl, sub_eq_zero.mp (eq_zero_of_nearest hnearest)]
  · intro heq
    rw [heq, sub_self, nearest_zero]

/-- The test for whole numbers is exact. -/
theorem HasValue.isWhole_iff {x : Float} {q : ℚ} (h : HasValue x q) :
    Arithmetic.isWhole x ↔ q = wholePart q := by
  have hnear : |q - wholePart q| ≤ 2 ^ (65 : ℤ) :=
    (abs_sub_wholePart_lt q).le.trans (by norm_num)
  exact h.sub_beq_zero_iff h.trunc hnear

end DiceOdds.Binary64
