import DiceOdds.Proofs.Binary64.Division
import DiceOdds.Proofs.Binary64.Sign

/-!
# Decimals as doubles

A row of digits with a point in it becomes the double that is nearest to the decimal it writes, or
the infinity if that is too large, and its sign bit is clear. A short row is divided by a power of
ten that is itself a double, and a long one is divided exactly before it is rounded.
-/

namespace DiceOdds.Binary64

open Float.Model UnpackedFloat

/-- A number that is less than half of the smallest one is rounded to 0. -/
theorem nearest_eq_zero {x : ℚ} (h : |x| < 2 ^ (-1075 : ℤ)) : nearest x = 0 := by
  obtain rfl | hx := eq_or_ne x 0
  · exact nearest_zero
  have hgrid : gridExponent x = -1074 := by
    refine gridExponent_eq le_rfl (h.trans ?_) (.inl rfl) hx
    exact zpow_lt_zpow_right₀ one_lt_two (by norm_num)
  have hround : roundHalfEven (x / 2 ^ (-1074 : ℤ)) = 0 := by
    apply IsNearest.roundHalfEven_eq
    have hpos : (0 : ℚ) < 2 ^ (-1074 : ℤ) := zpow_pos two_pos _
    rw [IsNearest, Int.cast_zero, sub_zero, abs_div, abs_of_pos hpos, div_lt_iff₀ hpos]
    refine .inl (h.trans_eq ?_)
    rw [show (-1075 : ℤ) = -1 + -1074 by norm_num, zpow_add₀ two_ne_zero]
    norm_num
  rw [nearest, hgrid, hround, Int.cast_zero, zero_mul]

/-- A decimal with many more places than digits is rounded to 0. -/
theorem nearest_div_eq_zero {m p : ℕ} (hm : 0 < m) (h : 2048 + m.log2 < p) :
    nearest (m / 10 ^ p) = 0 := by
  apply nearest_eq_zero
  have hlog : (m : ℚ) < 2 ^ (m.log2 + 1) := by exact_mod_cast Nat.lt_log2_self
  have hten : (2 : ℚ) ^ (m.log2 + 1) * 2 ^ 1075 ≤ 10 ^ p := by
    calc (2 : ℚ) ^ (m.log2 + 1) * 2 ^ 1075 = 2 ^ (m.log2 + 1 + 1075) := (pow_add ..).symm
      _ ≤ 2 ^ (3 * p) := pow_le_pow_right₀ one_le_two (by omega)
      _ = 8 ^ p := by rw [pow_mul]; norm_num
      _ ≤ 10 ^ p := pow_le_pow_left₀ (by norm_num) (by norm_num) p
  rw [abs_of_nonneg (by positivity), div_lt_iff₀ (by positivity)]
  calc (m : ℚ) < 2 ^ (m.log2 + 1) := hlog
    _ = 2 ^ (-1075 : ℤ) * (2 ^ (m.log2 + 1) * 2 ^ 1075) := by
      rw [mul_comm, mul_assoc, ← zpow_natCast (2 : ℚ) 1075, ← zpow_add₀ two_ne_zero]
      norm_num
    _ ≤ 2 ^ (-1075 : ℤ) * 10 ^ p := by gcongr

/-- A number that is not negative is normalized with a clear sign bit. -/
theorem sign?_normalize {k : ℤ} (h : 0 ≤ k) (e : ℤ) :
    sign? (normalize Format.binary64 k e .positive) = some .positive := by
  obtain rfl | hpos := h.eq_or_lt
  · rfl
  · have hcompare : compare k 0 = .gt := compare_gt_iff_gt.mpr hpos
    rw [UnpackedFloat.normalize, hcompare]
    exact sign?_roundWithAccuracy .positive _ _ _

/-- The powers of ten that are divided by are exact. -/
theorem hasValue_powerOfTen (p : Fin 23) :
    HasValue Float.exactlyRepresentablePowersOfTen[(p : ℕ)] (10 ^ (p : ℕ)) := by
  have hvalue : ∀ p : Fin 23, (Float.exactlyRepresentablePowersOfTen[(p : ℕ)]).isFinite ∧
      value Float.exactlyRepresentablePowersOfTen[(p : ℕ)] = 10 ^ (p : ℕ) := by
    decide +kernel
  obtain ⟨hfinite, hvalue⟩ := hvalue p
  rw [← hvalue]
  exact hasValue_value hfinite

/-- A short row of digits is divided by a power of ten, both of which are exact. -/
theorem exists_encodes_div_powerOfTen {m p : ℕ} (hm : m < 2 ^ 53) (hp : p < 23) :
    ∃ u, Encodes u (nearest (m / 10 ^ p)) ∧ sign? u = some .positive ∧
      m.toUInt64.toFloat / Float.exactlyRepresentablePowersOfTen[p] = .ofModel (.pack u) := by
  have hword : m.toUInt64.toNat = m := UInt64.toNat_ofNat_of_lt' (by
    norm_num [UInt64.size]
    omega)
  have hdigits : HasValue m.toUInt64.toFloat m := by
    have h := hasValue_toFloat m.toUInt64
    rwa [hword, (representable_natCast hm.le).nearest_eq] at h
  have hsign : sign? m.toUInt64.toFloat.toModel.unpack = some .positive :=
    (sign?_unpack_pack _).trans (sign?_normalize (Int.natCast_nonneg _) 0)
  have hten := hasValue_powerOfTen ⟨p, hp⟩
  refine ⟨UnpackedFloat.div Format.binary64 m.toUInt64.toFloat.toModel.unpack
    (Float.exactlyRepresentablePowersOfTen[p]).toModel.unpack,
    Encodes.div hdigits hten (by positivity), ?_, rfl⟩
  unfold HasValue at hten
  generalize (Float.exactlyRepresentablePowersOfTen[p]).toModel.unpack = v at hten
  generalize hq : (10 : ℚ) ^ p = q at hten
  have hpos : 0 < q := hq ▸ by positivity
  cases hten with
  | zero s => exact absurd hpos (lt_irrefl 0)
  | finite s n f hn =>
    -- A power of ten is positive, so that the quotient has the sign of the digits.
    cases s with
    | negative =>
      rw [signFactor, neg_one_mul, neg_pos] at hpos
      exact absurd hpos (not_lt.mpr (by positivity))
    | positive => exact sign?_div hdigits.isFinite hsign

/-- A long row of digits is divided exactly, unless it is clear that the quotient vanishes. -/
theorem encodes_ofScientific_neg (m p : ℕ) :
    Encodes (UnpackedFloat.ofScientific Format.binary64 m (-p)) (nearest (m / 10 ^ p)) ∧
      sign? (UnpackedFloat.ofScientific Format.binary64 m (-p)) = some .positive := by
  obtain rfl | hm := m.eq_zero_or_pos
  · rw [Nat.cast_zero, zero_div, nearest_zero]
    exact ⟨.zero .positive, rfl⟩
  obtain rfl | hp := p.eq_zero_or_pos
  · have h := encodes_ofScientific m
    rw [ofScientific_eq hm] at h
    rw [Nat.cast_zero, neg_zero, pow_zero, div_one, ofScientific_eq hm]
    exact ⟨h, sign?_roundWithAccuracy .positive _ _ _⟩
  have hlarge : ¬ (-p : ℤ) > 2 ^ Format.binary64.exponentBits := by
    change ¬ (-p : ℤ) > 2 ^ 11
    omega
  rw [UnpackedFloat.ofScientific, dif_neg hm.ne', if_neg hlarge]
  split_ifs with hsmall hnonneg
  · change (-p : ℤ) < -(2 ^ 11 + m.log2) at hsmall
    rw [nearest_div_eq_zero hm (by omega)]
    exact ⟨.zero .positive, rfl⟩
  · omega
  · have h := encodes_div_finite .positive .positive hm (n := 10 ^ p) (by positivity) 0 0
    rw [signFactor, one_mul, one_mul, zpow_zero, mul_one, mul_one, Nat.cast_pow,
      Nat.cast_ofNat] at h
    have hplaces : (- -(p : ℤ)).toNat = p := by omega
    simp only [hplaces]
    exact ⟨h, sign?_roundWithAccuracy _ _ _ _⟩

/-- Digits with `p` places become the number nearest to the decimal, with a clear sign bit. -/
theorem exists_encodes_ofScientific (m p : ℕ) :
    ∃ u, Encodes u (nearest (m / 10 ^ p)) ∧ sign? u = some .positive ∧
      Float.ofScientific m true p = .ofModel (.pack u) := by
  unfold Float.ofScientific
  by_cases hsmall : m < 2 ^ 53 ∧ p ≤ 22
  · rw [dif_pos hsmall]
    exact exists_encodes_div_powerOfTen hsmall.1 (Nat.lt_succ_of_le hsmall.2)
  · rw [dif_neg hsmall]
    obtain ⟨h, hsign⟩ := encodes_ofScientific_neg m p
    refine ⟨_, h, hsign, ?_⟩
    show Float.ofModel (.pack (UnpackedFloat.ofScientific Format.binary64 m (Int.negOfNat p))) = _
    rw [Int.negOfNat_eq]
    rfl

/-- Digits with a point have a clear sign bit. -/
theorem isUnsigned_ofScientific (m p : ℕ) : IsUnsigned (Float.ofScientific m true p) := by
  obtain ⟨u, -, hsign, heq⟩ := exists_encodes_ofScientific m p
  rw [isUnsigned_iff, heq]
  exact (sign?_unpack_pack u).trans hsign

/-- Digits with a point stand for the number nearest to the decimal, if that is not too large. -/
theorem hasValue_ofScientific {m p : ℕ} (h : nearest (m / 10 ^ p) < 2 ^ (1024 : ℤ)) :
    HasValue (Float.ofScientific m true p) (nearest (m / 10 ^ p)) := by
  obtain ⟨u, hu, -, heq⟩ := exists_encodes_ofScientific m p
  have hnonneg : (0 : ℚ) ≤ m / 10 ^ p :=
    div_nonneg (Nat.cast_nonneg m) (pow_nonneg (Nat.cast_nonneg 10) p)
  rw [heq]
  exact hasValue_pack hu ((abs_of_nonneg (nearest_nonneg hnonneg)).trans_lt h)

/-- Digits with a point stand for no number if the decimal is too large. -/
theorem not_isFinite_ofScientific {m p : ℕ} (h : 2 ^ (1024 : ℤ) ≤ nearest (m / 10 ^ p)) :
    ¬ (Float.ofScientific m true p).isFinite := by
  obtain ⟨u, hu, -, heq⟩ := exists_encodes_ofScientific m p
  rw [heq]
  intro hfinite
  exact h.not_gt ((le_abs_self _).trans_lt (hu.abs_lt_of_isFinite_pack hfinite))

/-- A number is what every decimal that is rounded to it is read as. -/
theorem ofScientific_eq_of_nearest {x : Float} {q : ℚ} (hx : IsUnsigned x) (hq : HasValue x q)
    {m p : ℕ} (h : nearest (m / 10 ^ p) = q) : Float.ofScientific m true p = x := by
  refine (isUnsigned_ofScientific m p).eq_of_hasValue hx ?_ hq
  rw [← h]
  apply hasValue_ofScientific
  rw [h]
  exact (le_abs_self q).trans_lt (hq.abs_le.trans_lt maxFinite_lt)

end DiceOdds.Binary64
