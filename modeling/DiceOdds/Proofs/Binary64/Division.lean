import DiceOdds.Proofs.Binary64.Value

/-!
# Quotients

A quotient of two mantissas is a whole part and what is known of its remainder: whether there is
one, and how it compares with half of the divisor. That is as much as rounding asks for, so a
quotient of doubles is the number nearest to the exact quotient.
-/

namespace DiceOdds.Binary64

open Float.Model UnpackedFloat

/-! ## Quotients of mantissas -/

/-- The whole part of a quotient, with what is known of the remainder, is what remains of it. -/
theorem truncates_quotient (m : ℕ) {n : ℕ} (hn : 0 < n) :
    Truncates (ExtendedMantissa.ofMantissaAndAccuracy (m / n) (accuracyOfFraction (m % n) n))
      (m / n : ℚ) := by
  have hn' : (0 : ℚ) < n := by exact_mod_cast hn
  have hsplit : (m / n : ℚ) = (m / n : ℕ) + (m % n : ℕ) / n := by
    rw [div_eq_iff hn'.ne', add_mul, div_mul_cancel₀ _ hn'.ne']
    exact_mod_cast (Nat.div_add_mod' m n).symm
  have hmod : ((m % n : ℕ) : ℚ) / n < 1 := by
    rw [div_lt_one hn']
    exact_mod_cast Nat.mod_lt m hn
  rw [hsplit]
  generalize m / n = k at *
  generalize m % n = r at *
  have hhalf : (r : ℚ) / n < 1 / 2 ↔ 2 * r < n := by
    rw [div_lt_div_iff₀ hn' two_pos, one_mul, mul_comm]
    exact_mod_cast Iff.rfl
  have hhalf' : 1 / 2 < (r : ℚ) / n ↔ n < 2 * r := by
    rw [div_lt_div_iff₀ two_pos hn', one_mul, mul_comm]
    exact_mod_cast Iff.rfl
  obtain rfl | hr := r.eq_zero_or_pos
  · simpa [accuracyOfFraction] using truncates_exact k
  have hr' : (0 : ℚ) < r / n := by positivity
  rw [accuracyOfFraction, if_neg hr.ne']
  -- The remainder is below half of the divisor, or half of it, or above.
  obtain hlt | heq | hgt := lt_trichotomy (2 * r) n
  · rw [compare_lt_iff_lt.mpr hlt]
    exact ⟨r / n, hr'.le, hhalf.mpr hlt, by simp [ExtendedMantissa.ofMantissaAndAccuracy, hr'.ne'],
      by simp [ExtendedMantissa.ofMantissaAndAccuracy]⟩
  · have hmid : (r : ℚ) / n = 1 / 2 :=
      le_antisymm (not_lt.mp (mt hhalf'.mp (by omega))) (not_lt.mp (mt hhalf.mp (by omega)))
    rw [compare_eq_iff_eq.mpr heq, hmid]
    exact ⟨0, le_rfl, by norm_num, by simp [ExtendedMantissa.ofMantissaAndAccuracy],
      by simp [ExtendedMantissa.ofMantissaAndAccuracy]⟩
  · have hpast := hhalf'.mpr hgt
    rw [compare_gt_iff_gt.mpr hgt]
    refine ⟨r / n - 1 / 2, by linarith, by linarith, ?_, ?_⟩
    · simp only [ExtendedMantissa.ofMantissaAndAccuracy, true_iff]
      linarith
    · simp [ExtendedMantissa.ofMantissaAndAccuracy]

/-- A positive number that is at least as large as a quotient of leading bits has no finer grid
than that quotient has. -/
theorem targetExponent_sub_le {m n : ℕ} (hm : 0 < m) (hn : 0 < n) (e f : ℤ) :
    Format.binary64.targetExponent (totalExponent m e - totalExponent n f) ≤
      gridExponent (m * 2 ^ e / (n * 2 ^ f)) := by
  have hm' : ((2 : ℚ) ^ m.log2) ≤ m := by exact_mod_cast Nat.log2_self_le hm.ne'
  have hn' : (n : ℚ) ≤ 2 ^ (n.log2 + 1) := by exact_mod_cast Nat.lt_log2_self.le
  have hpos : (0 : ℚ) < m * 2 ^ e / (n * 2 ^ f) := by
    have : (0 : ℚ) < m := by exact_mod_cast hm
    have : (0 : ℚ) < n := by exact_mod_cast hn
    positivity
  -- The dividend has its leading bit, and the divisor is below the next power of two.
  have hlower : (2 : ℚ) ^ (m.log2 + e - (n.log2 + 1 + f)) ≤ m * 2 ^ e / (n * 2 ^ f) := by
    have hnpos : (0 : ℚ) < n := by exact_mod_cast hn
    rw [zpow_sub₀ two_ne_zero, zpow_add₀ two_ne_zero, zpow_add₀ two_ne_zero (_ + 1 : ℤ),
      zpow_natCast]
    have hcast : (2 : ℚ) ^ ((n.log2 : ℤ) + 1) = 2 ^ (n.log2 + 1) := by
      rw [← zpow_natCast]
      push_cast
      rfl
    rw [hcast]
    gcongr
  have hlog : m.log2 + e - (n.log2 + 1 + f) ≤ Int.log 2 |m * 2 ^ e / (n * 2 ^ f : ℚ)| := by
    rw [abs_of_pos hpos]
    exact (Int.zpow_le_iff_le_log Nat.one_lt_two hpos).mp (by exact_mod_cast hlower)
  have hmin : Format.binary64.minExponent = -1074 := by decide
  have hbits : Format.binary64.mantissaBits = 53 := rfl
  rw [Format.targetExponent, totalExponent, totalExponent, hmin, hbits, gridExponent]
  push_cast
  omega

/-- Where a mantissa vanishes, the core library aims at the finest grid. -/
theorem targetExponent_eq_of_lt_one {y : ℚ} (hy : 0 < y) (hlt : y < 1) {e : ℤ}
    (he : e ≤ gridExponent (y * 2 ^ e)) :
    Format.binary64.targetExponent (totalExponent 0 e) = gridExponent (y * 2 ^ e) := by
  have hpos : (0 : ℚ) < 2 ^ e := by positivity
  have hlog : Int.log 2 |y * 2 ^ e| < e := by
    rw [abs_of_pos (mul_pos hy hpos)]
    apply (Int.lt_zpow_iff_log_lt Nat.one_lt_two (mul_pos hy hpos)).mp
    push_cast
    calc y * 2 ^ e < 1 * 2 ^ e := mul_lt_mul_of_pos_right hlt hpos
      _ = 2 ^ e := one_mul _
  rw [targetExponent_eq, Nat.log2_zero]
  unfold gridExponent at he ⊢
  push_cast
  omega

/-! ## Division -/

/-- The sign of a quotient has the quotient of the factors. -/
theorem signFactor_div (s s' : Sign) : signFactor (s / s') = signFactor s / signFactor s' := by
  cases s with
  | negative =>
    cases s' with
    | negative => exact (div_self (neg_ne_zero.mpr one_ne_zero)).symm
    | positive => exact (div_one (-1)).symm
  | positive =>
    cases s' with
    | negative => exact (by norm_num : (-1 : ℚ) = 1 / -1)
    | positive => exact (div_one 1).symm

/-- A quotient of mantissas is rounded to the nearest number, however many bits they have. -/
theorem encodes_div_finite (s s' : Sign) {m n : ℕ} (hm : 0 < m) (hn : 0 < n) (e f : ℤ) :
    Encodes (UnpackedFloat.div Format.binary64 (.finite s m e hm) (.finite s' n f hn))
      (nearest (signFactor s * (m * 2 ^ e) / (signFactor s' * (n * 2 ^ f)))) := by
  have hn' : (0 : ℚ) < n := by exact_mod_cast hn
  have hm' : (0 : ℚ) < m := by exact_mod_cast hm
  have hgrid := targetExponent_sub_le hm hn e f
  simp only [UnpackedFloat.div, divCore]
  generalize Format.binary64.targetExponent (totalExponent m e - totalExponent n f) = g at *
  obtain ⟨k, hk⟩ := Int.eq_ofNat_of_zero_le (sub_nonneg.mpr (min_le_left (e - f) g))
  have hmin := min_le_right (e - f) g
  generalize min (e - f) g = t at *
  rw [hk, Int.toNat_natCast, Nat.shiftLeft_eq]
  -- The shifted dividend gives the exact quotient on the grid that is aimed at.
  have hquotient : ((m * 2 ^ k : ℕ) / n : ℚ) * 2 ^ t = m * 2 ^ e / (n * 2 ^ f) := by
    have hpow : (2 : ℚ) ^ e = 2 ^ k * 2 ^ t * 2 ^ f := by
      rw [← zpow_natCast, ← zpow_add₀ two_ne_zero, ← zpow_add₀ two_ne_zero]
      congr 1
      omega
    rw [hpow]
    push_cast
    field_simp
  have hvalue : signFactor s * (m * 2 ^ e) / (signFactor s' * (n * 2 ^ f)) =
      signFactor (s / s') * (((m * 2 ^ k : ℕ) / n : ℚ) * 2 ^ t) := by
    rw [signFactor_div, hquotient, mul_div_mul_comm]
  rw [hvalue, nearest_signFactor_mul]
  rw [← hquotient] at hgrid
  have hpos : (0 : ℚ) < (m * 2 ^ k : ℕ) / n := by
    push_cast
    positivity
  have hle := hmin.trans hgrid
  have hfloor : ⌊((m * 2 ^ k : ℕ) / n : ℚ)⌋ = (m * 2 ^ k / n : ℕ) := by
    rw [Rat.floor_natCast_div_natCast, ← Int.natCast_ediv]
  apply encodes_roundWithAccuracy _ hpos (truncates_quotient _ hn) _ hle
  obtain hzero | hne := (m * 2 ^ k / n).eq_zero_or_pos
  · rw [hzero]
    refine targetExponent_eq_of_lt_one hpos ?_ hle
    rw [hzero, Int.floor_eq_iff] at hfloor
    simpa using hfloor.2
  · exact targetExponent_eq_gridExponent hne hfloor t

/-- A quotient is rounded to the nearest number. -/
theorem Encodes.div {u v : UnpackedFloat} {x y : ℚ} (hu : Encodes u x) (hv : Encodes v y)
    (hy : y ≠ 0) : Encodes (UnpackedFloat.div Format.binary64 u v) (nearest (x / y)) := by
  cases hv with
  | zero s' => exact absurd rfl hy
  | finite s' n f hn =>
    cases hu with
    | zero s =>
      rw [zero_div, nearest_zero]
      exact .zero (s / s')
    | finite s m e hm => exact encodes_div_finite s s' hm hn e f

/-- A quotient that does not overflow is the number nearest to the exact quotient. -/
theorem HasValue.div {x y : Float} {p q : ℚ} (hx : HasValue x p) (hy : HasValue y q) (hq : q ≠ 0)
    (h : |nearest (p / q)| < 2 ^ (1024 : ℤ)) : HasValue (x / y) (nearest (p / q)) :=
  hasValue_pack (Encodes.div hx hy hq) h

end DiceOdds.Binary64
