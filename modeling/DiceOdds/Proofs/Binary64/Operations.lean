import DiceOdds.Proofs.Binary64.Rounding

/-!
# Sums, differences, products and comparisons

Every operation on numbers that doubles write gives the nearest number to the exact result, and a
comparison has the exact outcome. Overflow is not seen here: the results may have exponents that
are too large for a double.
-/

namespace DiceOdds.Binary64

open Float.Model UnpackedFloat

/-! ## Sums and differences -/

/-- A number that a double writes is left as it is by rounding. -/
theorem Encodes.nearest_eq {u : UnpackedFloat} {x : ℚ} (h : Encodes u x) : nearest x = x := by
  apply Representable.nearest_eq
  cases h with
  | zero => exact ⟨0, 0, by norm_num, by norm_num, by simp⟩
  | finite s m e hpos hlt he =>
    cases s with
    | negative =>
      refine ⟨-m, e, ?_, he, by rw [signFactor]; push_cast; ring⟩
      rw [abs_neg, Nat.abs_cast]
      exact_mod_cast hlt.le
    | positive =>
      refine ⟨m, e, ?_, he, by rw [signFactor]; push_cast; ring⟩
      rw [Nat.abs_cast]
      exact_mod_cast hlt.le

/-- A signed mantissa is a mantissa times a factor. -/
theorem cast_apply (s : Sign) (m : ℕ) : ((s.apply m : ℤ) : ℚ) = signFactor s * m := by
  cases s with
  | negative => simp [Sign.apply, signFactor]
  | positive => simp [Sign.apply, signFactor]

/-- The opposite sign has the opposite factor. -/
theorem signFactor_neg (s : Sign) : signFactor (-s) = -signFactor s := by
  cases s with
  | negative => exact (neg_neg 1).symm
  | positive => rfl

/-- A signed mantissa on a smaller grid is the same number. -/
theorem apply_decreaseExponent (s : Sign) (m : ℕ) {e t : ℤ} (h : t ≤ e) :
    ((s.apply (decreaseExponent m e t).1 : ℤ) : ℚ) * 2 ^ t = signFactor s * (m * 2 ^ e) := by
  rw [cast_apply, ← decreaseExponent_value m e t, decreaseExponent_snd_eq m h, mul_assoc]

/-- A sum is rounded to the nearest number. -/
theorem Encodes.add {u v : UnpackedFloat} {x y : ℚ} (hu : Encodes u x) (hv : Encodes v y) :
    Encodes (UnpackedFloat.add Format.binary64 u v) (nearest (x + y)) := by
  cases hu with
  | zero s =>
    rw [zero_add, hv.nearest_eq]
    cases hv with
    | zero s' =>
      simp only [UnpackedFloat.add]
      split_ifs
      · exact .zero s
      · exact .zero .positive
    | finite s' m e hpos hlt he hnormal => exact .finite s' m e hpos hlt he hnormal
  | finite s m e hpos hlt he hnormal =>
    have hu : Encodes (.finite s m e hpos) _ := .finite s m e hpos hlt he hnormal
    cases hv with
    | zero s' =>
      rw [add_zero, hu.nearest_eq]
      exact hu
    | finite s' m' e' hpos' =>
      -- Both mantissas are put on the smaller grid, where they are added exactly.
      simp only [UnpackedFloat.add]
      rw [← apply_decreaseExponent s m (min_le_left e e'),
        ← apply_decreaseExponent s' m' (min_le_right e e'), ← add_mul, ← Int.cast_add]
      exact encodes_normalize _ _ _

/-- A number that is negated is written with the opposite sign. -/
theorem Encodes.neg {u : UnpackedFloat} {x : ℚ} (h : Encodes u x) :
    Encodes (UnpackedFloat.neg u) (-x) := by
  cases h with
  | zero s =>
    rw [neg_zero]
    exact .zero (-s)
  | finite s m e hpos hlt he hnormal =>
    rw [← neg_mul, ← signFactor_neg]
    exact .finite (-s) m e hpos hlt he hnormal

/-- The core library takes differences as it takes sums. -/
theorem sub_eq_add_opposite (u v : UnpackedFloat) :
    UnpackedFloat.sub Format.binary64 u v =
      UnpackedFloat.add Format.binary64 u (UnpackedFloat.neg v) := by
  have happly (s : Sign) (n : ℤ) : (-s).apply n = -s.apply n := by
    cases s with
    | negative => exact (neg_neg n).symm
    | positive => rfl
  cases u <;> cases v <;>
    simp [UnpackedFloat.sub, UnpackedFloat.add, UnpackedFloat.neg, happly, ← sub_eq_add_neg]

/-- A difference is rounded to the nearest number. -/
theorem Encodes.sub {u v : UnpackedFloat} {x y : ℚ} (hu : Encodes u x) (hv : Encodes v y) :
    Encodes (UnpackedFloat.sub Format.binary64 u v) (nearest (x - y)) := by
  rw [sub_eq_add_opposite, sub_eq_add_neg]
  exact hu.add hv.neg

/-! ## Products -/

/-- The sign of a product has the product of the factors. -/
theorem signFactor_mul (s s' : Sign) : signFactor (s * s') = signFactor s * signFactor s' := by
  cases s with
  | negative =>
    cases s' with
    | negative => exact (by norm_num : (1 : ℚ) = -1 * -1)
    | positive => exact (mul_one (-1)).symm
  | positive =>
    cases s' with
    | negative => exact (one_mul (-1)).symm
    | positive => exact (one_mul 1).symm

/-- The sign of a number is not rounded. -/
theorem nearest_signFactor_mul (s : Sign) (x : ℚ) :
    nearest (signFactor s * x) = signFactor s * nearest x := by
  cases s with
  | negative => rw [signFactor, neg_one_mul, nearest_neg, neg_one_mul]
  | positive => rw [signFactor, one_mul, one_mul]

/-- The exponent of a product is not too large for its mantissa. -/
theorem add_le_targetExponent {m m' : ℕ} {e e' : ℤ} (hpos : 0 < m) (hpos' : 0 < m')
    (hnormal : 2 ^ 52 ≤ m ∨ e = -1074) (hnormal' : 2 ^ 52 ≤ m' ∨ e' = -1074) :
    e + e' ≤ Format.binary64.targetExponent (totalExponent (m * m') (e + e')) := by
  rw [targetExponent_eq]
  have hlog : 52 ≤ (m * m').log2 ∨ e = -1074 ∧ e' = -1074 := by
    have hne : m * m' ≠ 0 := (Nat.mul_pos hpos hpos').ne'
    obtain h | h := hnormal
    · exact Or.inl ((Nat.le_log2 hne).mpr (h.trans (Nat.le_mul_of_pos_right m hpos')))
    obtain h' | h' := hnormal'
    · exact Or.inl ((Nat.le_log2 hne).mpr (h'.trans (Nat.le_mul_of_pos_left m' hpos)))
    · exact Or.inr ⟨h, h'⟩
  omega

/-- A product is rounded to the nearest number. -/
theorem Encodes.mul {u v : UnpackedFloat} {x y : ℚ} (hu : Encodes u x) (hv : Encodes v y) :
    Encodes (UnpackedFloat.mul Format.binary64 u v) (nearest (x * y)) := by
  cases hu with
  | zero s =>
    rw [zero_mul, nearest_zero]
    cases hv with
    | zero s' => exact .zero (s * s')
    | finite s' m' e' => exact .zero (s * s')
  | finite s m e hpos hlt he hnormal =>
    cases hv with
    | zero s' =>
      rw [mul_zero, nearest_zero]
      exact .zero (s * s')
    | finite s' m' e' hpos' hlt' he' hnormal' =>
      -- The product of the mantissas is exact, so it only has to be rounded.
      have hle := add_le_targetExponent hpos hpos' hnormal hnormal'
      have htarget := targetExponent_eq_gridExponent (Nat.mul_pos hpos hpos')
        (Int.floor_natCast (m * m')) (e + e')
      have hvalue : signFactor s * (m * 2 ^ e) * (signFactor s' * (m' * 2 ^ e')) =
          signFactor (s * s') * (((m * m' : ℕ) : ℚ) * 2 ^ (e + e')) := by
        rw [signFactor_mul, zpow_add₀ two_ne_zero]
        push_cast
        ring
      rw [hvalue, nearest_signFactor_mul]
      apply encodes_roundWithAccuracy (s * s') _ (truncates_exact (m * m')) htarget
      · rwa [← htarget]
      · exact_mod_cast Nat.mul_pos hpos hpos'

/-! ## Comparison -/

/-- Of two positive numbers the one on the coarser grid is larger. -/
theorem mul_two_zpow_lt {m m' : ℕ} {e e' : ℤ} (hlt : m < 2 ^ 53) (he : -1074 ≤ e)
    (hnormal' : 2 ^ 52 ≤ m' ∨ e' = -1074) (h : e < e') : (m : ℚ) * 2 ^ e < m' * 2 ^ e' := by
  have hpos : (0 : ℚ) < 2 ^ e := by positivity
  have hm : (m : ℚ) < 2 ^ (53 : ℕ) := by exact_mod_cast hlt
  have hm' : (2 : ℚ) ^ (52 : ℕ) ≤ m' := by
    exact_mod_cast hnormal'.resolve_right (by omega)
  calc (m : ℚ) * 2 ^ e < 2 ^ (53 : ℕ) * 2 ^ e := mul_lt_mul_of_pos_right hm hpos
    _ = 2 ^ (52 : ℕ) * 2 ^ (e + 1) := by
      rw [zpow_add₀ two_ne_zero]
      ring
    _ ≤ 2 ^ (52 : ℕ) * 2 ^ e' := by
      have : (2 : ℚ) ^ (e + 1) ≤ 2 ^ e' := zpow_le_zpow_right₀ one_le_two (by omega)
      exact mul_le_mul_of_nonneg_left this (by positivity)
    _ ≤ m' * 2 ^ e' := mul_le_mul_of_nonneg_right hm' (by positivity)

/-- Positive numbers compare by their exponents first and by their mantissas second. -/
theorem compare_then_compare {m m' : ℕ} {e e' : ℤ} (hlt : m < 2 ^ 53) (he : -1074 ≤ e)
    (hnormal : 2 ^ 52 ≤ m ∨ e = -1074) (hlt' : m' < 2 ^ 53) (he' : -1074 ≤ e')
    (hnormal' : 2 ^ 52 ≤ m' ∨ e' = -1074) :
    (compare e e').then (compare m m') = compare ((m : ℚ) * 2 ^ e) (m' * 2 ^ e') := by
  -- The exponents decide unless they are equal, and then both mantissas count the same steps.
  obtain h | rfl | h := lt_trichotomy e e'
  · rw [compare_lt_iff_lt.mpr h, compare_lt_iff_lt.mpr (mul_two_zpow_lt hlt he hnormal' h)]
    rfl
  · have hpos : (0 : ℚ) < 2 ^ e := by positivity
    rw [compare_eq_iff_eq.mpr rfl]
    obtain h | rfl | h := lt_trichotomy m m'
    · rw [compare_lt_iff_lt.mpr h, compare_lt_iff_lt.mpr]
      · rfl
      · exact mul_lt_mul_of_pos_right (by exact_mod_cast h) hpos
    · rw [compare_eq_iff_eq.mpr rfl, compare_eq_iff_eq.mpr rfl]
      rfl
    · rw [compare_gt_iff_gt.mpr h, compare_gt_iff_gt.mpr]
      · rfl
      · exact mul_lt_mul_of_pos_right (by exact_mod_cast h) hpos
  · rw [compare_gt_iff_gt.mpr h, compare_gt_iff_gt.mpr (mul_two_zpow_lt hlt' he' hnormal h)]
    rfl

/-- Negated numbers compare the other way round. -/
theorem swap_compare (x y : ℚ) : (compare x y).swap = compare (-x) (-y) := by
  obtain h | rfl | h := lt_trichotomy x y
  · rw [compare_lt_iff_lt.mpr h, compare_gt_iff_gt.mpr (neg_lt_neg h)]
    rfl
  · rw [compare_eq_iff_eq.mpr rfl, compare_eq_iff_eq.mpr rfl]
    rfl
  · rw [compare_gt_iff_gt.mpr h, compare_lt_iff_lt.mpr (neg_lt_neg h)]
    rfl

/-- A comparison of doubles is one of numbers. -/
theorem Encodes.compare_eq {u v : UnpackedFloat} {x y : ℚ} (hu : Encodes u x)
    (hv : Encodes v y) : u.compare v = some (compare x y) := by
  have hpos {m : ℕ} (hm : 0 < m) (e : ℤ) : (0 : ℚ) < m * 2 ^ e :=
    mul_pos (by exact_mod_cast hm) (by positivity)
  cases hu with
  | zero s =>
    cases hv with
    | zero s' => exact congrArg some (compare_eq_iff_eq.mpr rfl).symm
    | finite s' m' e' hm' =>
      have := hpos hm' e'
      cases s' with
      | negative =>
        rw [signFactor, neg_one_mul]
        exact congrArg some (compare_gt_iff_gt.mpr (by linarith)).symm
      | positive =>
        rw [signFactor, one_mul]
        exact congrArg some (compare_lt_iff_lt.mpr this).symm
  | finite s m e hm hlt he hnormal =>
    have hx := hpos hm e
    cases hv with
    | zero s' =>
      cases s with
      | negative =>
        rw [signFactor, neg_one_mul]
        exact congrArg some (compare_lt_iff_lt.mpr (by linarith)).symm
      | positive =>
        rw [signFactor, one_mul]
        exact congrArg some (compare_gt_iff_gt.mpr hx).symm
    | finite s' m' e' hm' hlt' he' hnormal' =>
      -- Numbers of one sign compare by their magnitudes, the other way round if it is negative.
      have hy := hpos hm' e'
      have hthen := compare_then_compare hlt he hnormal hlt' he' hnormal'
      cases s with
      | negative =>
        cases s' with
        | negative =>
          simp only [UnpackedFloat.compare, hthen, swap_compare, signFactor, neg_one_mul]
        | positive =>
          rw [signFactor, signFactor, neg_one_mul, one_mul]
          exact congrArg some (compare_lt_iff_lt.mpr (by linarith)).symm
      | positive =>
        cases s' with
        | negative =>
          rw [signFactor, signFactor, neg_one_mul, one_mul]
          exact congrArg some (compare_gt_iff_gt.mpr (by linarith)).symm
        | positive => simp only [UnpackedFloat.compare, hthen, signFactor, one_mul]

end DiceOdds.Binary64
