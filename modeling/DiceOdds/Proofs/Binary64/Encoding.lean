import DiceOdds.Proofs.Binary64.Rounding

/-!
# Doubles as words

A double is a word of 64 bits: a sign, an exponent of 11 bits and a fraction of 52 bits. The
exponent 0 stands for the finest grid, on which the leading bit of the mantissa is 0, and the
largest exponent for infinities and undefined numbers. A number that fits is found again in the
word it is packed into.
-/

namespace DiceOdds.Binary64

open Float.Model UnpackedFloat

/-! ## The fields of a word -/

/-- The exponent field of a word. -/
def exponentBits (b : BitVec 64) : ℕ := b.toNat / 2 ^ 52 % 2 ^ 11

/-- The fraction field of a word. -/
def fractionBits (b : BitVec 64) : ℕ := b.toNat % 2 ^ 52

/-- A fraction has 52 bits. -/
theorem fractionBits_lt (b : BitVec 64) : fractionBits b < 2 ^ 52 := Nat.mod_lt _ (by norm_num)

/-- The sign of a word. -/
def signBit (b : BitVec 64) : Sign := if b.toNat < 2 ^ 63 then .positive else .negative

/-- The core library reads the exponent field. -/
theorem toNat_unpackExponent (b : BitVec 64) :
    (@unpackExponent Format.binary64 b).toNat = exponentBits b := by
  simp [unpackExponent, exponentBits, BitVec.extractLsb, Nat.shiftRight_eq_div_pow]

/-- The core library reads the fraction field. -/
theorem toNat_unpackMantissa (b : BitVec 64) :
    (@unpackMantissa Format.binary64 b).toNat = fractionBits b := by
  simp [unpackMantissa, fractionBits, BitVec.extractLsb]

/-- The core library reads the sign. -/
theorem ofBitVec_unpackSign (b : BitVec 64) :
    Sign.ofBitVec (@unpackSign Format.binary64 b) = signBit b := by
  have hsign : (@unpackSign Format.binary64 b).toNat = b.toNat / 2 ^ 63 := by
    simp only [unpackSign, BitVec.toNat_cast, BitVec.extractLsb, BitVec.extractLsb'_toNat,
      Nat.shiftRight_eq_div_pow]
    have := b.isLt
    omega
  have hzero : @unpackSign Format.binary64 b = 0#1 ↔ b.toNat < 2 ^ 63 := by
    rw [← BitVec.toNat_inj, hsign, BitVec.toNat_zero]
    omega
  simp only [Sign.ofBitVec, hzero, signBit]

/-- The mantissa of a word that stands for a number: its leading bit is not in the word. -/
def mantissaOf (b : BitVec 64) : ℕ := (if exponentBits b = 0 then 0 else 2 ^ 52) + fractionBits b

/-- The exponent of a word that stands for a number. -/
def exponentOf (b : BitVec 64) : ℤ := max (exponentBits b) 1 - 1075

/-- The number that a word stands for, but for its sign. -/
def magnitude (b : BitVec 64) : ℚ := mantissaOf b * 2 ^ exponentOf b

/-- A magnitude is not negative. -/
theorem magnitude_nonneg (b : BitVec 64) : 0 ≤ magnitude b := by
  unfold magnitude
  positivity

/-- Equal parts make equal numbers. -/
theorem finite_congr (s : Sign) {m m' : ℕ} {e e' : ℤ} (hm : m = m') (he : e = e')
    (hpos : 0 < m) (hpos' : 0 < m') :
    UnpackedFloat.finite s m e hpos = .finite s m' e' hpos' := by
  subst hm he
  rfl

/-- A word whose exponent field is not the largest stands for a number. -/
theorem unpack_eq {b : BitVec 64} (h : exponentBits b ≠ 2047) :
    UnpackedFloat.unpack Format.binary64 b =
      if hm : mantissaOf b = 0 then .zero (signBit b)
      else .finite (signBit b) (mantissaOf b) (exponentOf b) (Nat.pos_of_ne_zero hm) := by
  have hlargest : @unpackExponent Format.binary64 b ≠ -1#_ := by
    rw [Ne, ← BitVec.toNat_inj, toNat_unpackExponent]
    exact h
  have hbias : (Format.binary64.exponentBias : ℤ) = 1023 := by decide
  have hexp : @unpackExponent Format.binary64 b = 0#_ ↔ exponentBits b = 0 := by
    rw [← BitVec.toNat_inj, toNat_unpackExponent]
    rfl
  have hfrac : @unpackMantissa Format.binary64 b = 0#_ ↔ fractionBits b = 0 := by
    rw [← BitVec.toNat_inj, toNat_unpackMantissa]
    rfl
  rw [UnpackedFloat.unpack]
  simp only [if_neg hlargest, ofBitVec_unpackSign, toNat_unpackExponent, hbias]
  obtain hzero | hpos := eq_or_ne (exponentBits b) 0
  · -- On the finest grid the exponent is that of the field 1.
    rw [if_pos (hexp.mpr hzero)]
    have hm : mantissaOf b = fractionBits b := by simp [mantissaOf, hzero]
    have he : exponentOf b = -1074 := by simp [exponentOf, hzero]
    by_cases hf : fractionBits b = 0
    · rw [dif_pos (hfrac.mpr hf), dif_pos (hm.trans hf)]
    · rw [dif_neg (mt hfrac.mp hf), dif_neg (by rwa [hm])]
      apply finite_congr
      · rw [hm, toNat_unpackMantissa]
      · rw [he, hzero]
        norm_num
  · rw [if_neg (mt hexp.mp hpos)]
    have hm : mantissaOf b = 2 ^ 52 + fractionBits b := by simp [mantissaOf, hpos]
    have he : exponentOf b = exponentBits b - 1075 := by
      unfold exponentOf
      omega
    rw [dif_neg (by rw [hm]; positivity)]
    apply finite_congr
    · -- The leading bit is above all bits of the fraction, so putting it there adds it.
      have hor := Nat.two_pow_add_eq_or_of_lt (fractionBits_lt b) 1
      rw [hm, BitVec.toNat_append, toNat_unpackMantissa]
      exact hor.symm
    · rw [he]
      norm_num

/-- A mantissa has at most 53 bits. -/
theorem mantissaOf_lt (b : BitVec 64) : mantissaOf b < 2 ^ 53 := by
  have := fractionBits_lt b
  unfold mantissaOf
  split_ifs <;> omega

/-- A mantissa has fewer than 53 bits on the finest grid only. -/
theorem mantissaOf_normal (b : BitVec 64) : 2 ^ 52 ≤ mantissaOf b ∨ exponentOf b = -1074 := by
  by_cases hzero : exponentBits b = 0
  · exact Or.inr (by simp [exponentOf, hzero])
  · exact Or.inl (by simp [mantissaOf, hzero])

/-- A word that stands for a number has it written as doubles write it. -/
theorem encodes_unpack {b : BitVec 64} (h : exponentBits b ≠ 2047) :
    Encodes (UnpackedFloat.unpack Format.binary64 b)
      (signFactor (signBit b) * magnitude b) := by
  rw [unpack_eq h, magnitude]
  split_ifs with hm
  · rw [hm, Nat.cast_zero, zero_mul, mul_zero]
    exact .zero (signBit b)
  · have hmin : -1074 ≤ exponentOf b := by
      unfold exponentOf
      omega
    exact .finite _ _ _ _ (mantissaOf_lt b) hmin (mantissaOf_normal b)

/-- A word stands for a number if and only if its exponent field is not the largest. -/
theorem isFinite_unpack (b : BitVec 64) :
    (UnpackedFloat.unpack Format.binary64 b).isFinite ↔ exponentBits b ≠ 2047 := by
  constructor
  · intro hfinite hlargest
    have : @unpackExponent Format.binary64 b = -1#_ := by
      rw [← BitVec.toNat_inj, toNat_unpackExponent]
      exact hlargest
    rw [UnpackedFloat.unpack] at hfinite
    simp only [if_pos this] at hfinite
    split_ifs at hfinite <;> exact Bool.noConfusion hfinite
  · intro h
    rw [unpack_eq h]
    split_ifs <;> rfl

/-- A number that a double writes and that is below `2 ^ 1024` has an exponent that fits. -/
theorem exponent_le_of_abs_lt (s : Sign) {m : ℕ} {e : ℤ} (hnormal : 2 ^ 52 ≤ m ∨ e = -1074)
    (h : |signFactor s * (m * 2 ^ e : ℚ)| < 2 ^ (1024 : ℤ)) : e ≤ 971 := by
  rw [abs_signFactor_mul s (mul_nonneg (Nat.cast_nonneg m) (zpow_nonneg zero_le_two e))] at h
  -- With a larger exponent the grid is not the finest, so the mantissa has its leading bit.
  by_contra hgt
  have hm : (2 : ℚ) ^ (52 : ℤ) ≤ m := by exact_mod_cast hnormal.resolve_right (by omega)
  have he : (2 : ℚ) ^ (972 : ℤ) ≤ 2 ^ e := zpow_le_zpow_right₀ one_le_two (by omega)
  have : (2 : ℚ) ^ (1024 : ℤ) ≤ m * 2 ^ e := by
    calc (2 : ℚ) ^ (1024 : ℤ) = 2 ^ (52 : ℤ) * 2 ^ (972 : ℤ) := by
          rw [← zpow_add₀ two_ne_zero]
          norm_num
      _ ≤ m * 2 ^ e := mul_le_mul hm he (zpow_nonneg zero_le_two _) (Nat.cast_nonneg m)
  exact absurd h this.not_gt

/-- The largest number that a double stands for. -/
def maxFinite : ℚ := (2 ^ 53 - 1) * 2 ^ (971 : ℤ)

/-- The largest number is below `2 ^ 1024`. -/
theorem maxFinite_lt : maxFinite < 2 ^ (1024 : ℤ) := by
  have hsplit : (2 : ℚ) ^ (1024 : ℤ) = 2 ^ (53 : ℤ) * 2 ^ (971 : ℤ) := by
    rw [← zpow_add₀ two_ne_zero]
    norm_num
  rw [maxFinite, hsplit]
  exact mul_lt_mul_of_pos_right (by norm_num) (zpow_pos two_pos _)

/-- A word stands for no number larger than the largest. -/
theorem abs_word_le {b : BitVec 64} (h : exponentBits b ≠ 2047) :
    |signFactor (signBit b) * magnitude b| ≤ maxFinite := by
  rw [abs_signFactor_mul _ (magnitude_nonneg b)]
  have hm : (mantissaOf b : ℚ) ≤ 2 ^ 53 - 1 := by
    have : (mantissaOf b : ℚ) + 1 ≤ 2 ^ 53 := by exact_mod_cast mantissaOf_lt b
    linarith
  have he : exponentOf b ≤ 971 := by
    have : exponentBits b < 2 ^ 11 := Nat.mod_lt _ (by norm_num)
    unfold exponentOf
    omega
  rw [magnitude, maxFinite]
  exact mul_le_mul hm (zpow_le_zpow_right₀ one_le_two he) (by positivity) (by norm_num)

/-! ## Packing -/

/-- The exponent field of a packed word. -/
theorem exponentBits_packComponents (s : Sign) (e : BitVec 11) (f : BitVec 52) :
    exponentBits (packComponents Format.binary64 s e f) = e.toNat := by
  rw [← toNat_unpackExponent]
  exact congrArg BitVec.toNat unpackExponent_packComponents

/-- The fraction field of a packed word. -/
theorem fractionBits_packComponents (s : Sign) (e : BitVec 11) (f : BitVec 52) :
    fractionBits (packComponents Format.binary64 s e f) = f.toNat := by
  rw [← toNat_unpackMantissa]
  exact congrArg BitVec.toNat unpackMantissa_packComponents

/-- The sign of a packed word. -/
theorem signBit_packComponents (s : Sign) (e : BitVec 11) (f : BitVec 52) :
    signBit (packComponents Format.binary64 s e f) = s := by
  rw [← ofBitVec_unpackSign, unpackSign_packComponents, Sign.ofBitVec_toBitVec]

/-- A word that is put together stands for the number with its parts. -/
theorem unpack_packComponents (s : Sign) {be : BitVec 11} (bf : BitVec 52) (h : be.toNat ≠ 2047)
    {m : ℕ} {e : ℤ} (hm : (if be.toNat = 0 then 0 else 2 ^ 52) + bf.toNat = m)
    (he : max (be.toNat : ℤ) 1 - 1075 = e) (hpos : 0 < m) :
    UnpackedFloat.unpack Format.binary64 (packComponents Format.binary64 s be bf) =
      .finite s m e hpos := by
  have hm' : mantissaOf (packComponents Format.binary64 s be bf) = m := by
    rw [mantissaOf, exponentBits_packComponents, fractionBits_packComponents, hm]
  have he' : exponentOf (packComponents Format.binary64 s be bf) = e := by
    rw [exponentOf, exponentBits_packComponents]
    omega
  rw [unpack_eq (by rwa [exponentBits_packComponents]), dif_neg (by omega),
    signBit_packComponents]
  exact finite_congr s hm' he' _ _

/-- A zero is found again. -/
theorem unpack_pack_zero (s : Sign) :
    UnpackedFloat.unpack Format.binary64 (UnpackedFloat.pack Format.binary64 (.zero s)) =
      .zero s :=
  unpack_packedZero

/-- A number whose exponent fits is found again. -/
theorem unpack_pack_finite (s : Sign) {m : ℕ} {e : ℤ} (hpos : 0 < m) (hlt : m < 2 ^ 53)
    (he : -1074 ≤ e) (hnormal : 2 ^ 52 ≤ m ∨ e = -1074) (hfit : e ≤ 971) :
    UnpackedFloat.unpack Format.binary64
      (UnpackedFloat.pack Format.binary64 (.finite s m e hpos)) = .finite s m e hpos := by
  have hbias : (Format.binary64.exponentBias : ℤ) = 1023 := by decide
  have hbits : Format.binary64.mantissaBits = 53 := rfl
  have hbiased : (e + Format.binary64.exponentBias +
      Format.binary64.mantissaBitsWithoutImplicit).toNat = (e + 1075).toNat := by
    rw [hbias]
    congr 1
    push_cast
    ring
  have hsmall : ¬ 2 ^ Format.binary64.exponentBits ≤ (e + 1075).toNat + 1 := by
    change ¬ 2 ^ 11 ≤ (e + 1075).toNat + 1
    omega
  simp only [UnpackedFloat.pack, hbiased, if_neg hsmall, hbits]
  -- Only a mantissa with its leading bit gets an exponent field, and leaves that bit out.
  by_cases hlead : 2 ^ 52 ≤ m
  · have hlog : m.log2 + 1 = 53 := by
      have := (Nat.le_log2 hpos.ne').mpr hlead
      have := (Nat.log2_lt hpos.ne').mpr hlt
      omega
    rw [if_pos hlog]
    apply unpack_packComponents s
    · rw [BitVec.toNat_ofNat]
      omega
    · rw [BitVec.toNat_ofNat, BitVec.toNat_ofNat, if_neg]
      · omega
      · omega
    · rw [BitVec.toNat_ofNat]
      omega
  · have hlog : ¬ m.log2 + 1 = 53 := by
      have := (Nat.log2_lt hpos.ne').mpr (show m < 2 ^ 52 by omega)
      omega
    rw [if_neg hlog]
    apply unpack_packComponents s
    · norm_num
    · rw [if_pos (by rfl), BitVec.toNat_ofNat]
      omega
    · rw [hnormal.resolve_left hlead]
      rfl

/-- A number that is not too large is found again. -/
theorem Encodes.unpack_pack {u : UnpackedFloat} {x : ℚ} (h : Encodes u x)
    (hx : |x| < 2 ^ (1024 : ℤ)) :
    UnpackedFloat.unpack Format.binary64 (UnpackedFloat.pack Format.binary64 u) = u := by
  cases h with
  | zero s => exact unpack_pack_zero s
  | finite s m e hpos hlt he hnormal =>
    have hfit := exponent_le_of_abs_lt s hnormal hx
    exact unpack_pack_finite s hpos hlt he hnormal hfit

end DiceOdds.Binary64
