import Mathlib
import DiceOdds.Proofs.Binary64.Nearest

/-!
# Rounding a mantissa

The core library gives every operation on doubles as a computation with a sign, a mantissa and an
exponent. Here that computation is compared with `nearest`: the bits that a mantissa loses when
it is shifted leave a round bit and a sticky bit behind, and these tell how to round. What comes
out of an operation is always the one way of writing a number that a double has for it.
-/

namespace DiceOdds.Binary64

open Float.Model UnpackedFloat

/-! ## Mantissas with residual bits -/

/-- Whether `em` is what remains of `y` when all bits after the round bit are only known to be
all zero or not. -/
def Truncates (em : ExtendedMantissa) (y : ℚ) : Prop :=
  ∃ t : ℚ, 0 ≤ t ∧ t < 1 / 2 ∧ (em.stickyBit ↔ t ≠ 0) ∧
    y = em.mantissa + (if em.roundBit then 1 / 2 else 0) + t

/-- A mantissa without residual bits is all of a number. -/
theorem truncates_exact (m : ℕ) :
    Truncates (ExtendedMantissa.ofMantissaAndAccuracy m .exact) m :=
  ⟨0, le_rfl, by norm_num, by simp [ExtendedMantissa.ofMantissaAndAccuracy],
    by simp [ExtendedMantissa.ofMantissaAndAccuracy]⟩

/-- A shift by one place halves the number. -/
theorem Truncates.shiftRightOne {em : ExtendedMantissa} {y : ℚ} (h : Truncates em y) :
    Truncates em.shiftRightOne (y / 2) := by
  obtain ⟨t, h0, hlt, hsticky, hy⟩ := h
  obtain ⟨m, r, s⟩ := em
  -- The last bit of the mantissa becomes the round bit, and the round bit joins the sticky bit.
  have hm : (m : ℚ) = 2 * (m / 2 : ℕ) + (m % 2 : ℕ) := by exact_mod_cast (Nat.div_add_mod m 2).symm
  refine ⟨(if r then 1 / 4 else 0) + t / 2, ?_, ?_, ?_, ?_⟩
  · split_ifs <;> linarith
  · split_ifs <;> linarith
  · cases r with
    | false => simpa [ExtendedMantissa.shiftRightOne] using hsticky
    | true =>
      simp only [ExtendedMantissa.shiftRightOne, Bool.true_or, if_true, true_iff]
      linarith
  · rw [hy, hm]
    obtain hmod | hmod := Nat.mod_two_eq_zero_or_one m
    · cases r <;> simp [ExtendedMantissa.shiftRightOne, hmod] <;> ring
    · cases r <;> simp [ExtendedMantissa.shiftRightOne, hmod] <;> ring

/-- A shift divides by a power of two. -/
theorem Truncates.shiftRight {em : ExtendedMantissa} {y : ℚ} (h : Truncates em y) (n : ℕ) :
    Truncates (em >>> n) (y / 2 ^ n) := by
  induction n with
  | zero =>
    rw [pow_zero, div_one]
    exact h
  | succ n ih =>
    rw [pow_succ, ← div_div]
    exact ih.shiftRightOne

/-- The mantissa is the whole part of the number. -/
theorem Truncates.floor_eq {em : ExtendedMantissa} {y : ℚ} (h : Truncates em y) :
    ⌊y⌋ = em.mantissa := by
  obtain ⟨t, h0, hlt, -, hy⟩ := h
  rw [Int.floor_eq_iff, hy]
  push_cast
  split_ifs <;> constructor <;> linarith

/-- The residual bits are enough to round the number. -/
theorem Truncates.roundedMantissa_eq {em : ExtendedMantissa} {y : ℚ} (h : Truncates em y) :
    (em.roundedMantissa : ℤ) = roundHalfEven y := by
  symm
  apply IsNearest.roundHalfEven_eq
  obtain ⟨t, h0, hlt, hsticky, hy⟩ := h
  obtain ⟨m, r, s⟩ := em
  cases r with
  | false =>
    -- Below one half the mantissa stays, whatever the sticky bit says.
    have hround : (⟨m, false, s⟩ : ExtendedMantissa).roundedMantissa = m := by cases s <;> rfl
    have hsub : y - (m : ℤ) = t := by rw [hy]; simp
    rw [hround, IsNearest, hsub, abs_of_nonneg h0]
    exact Or.inl hlt
  | true =>
    cases s with
    | false =>
      -- Exactly between two whole numbers the even one is taken.
      have ht : t = 0 := by simpa using hsticky
      have hround : (⟨m, true, false⟩ : ExtendedMantissa).roundedMantissa = m + m % 2 := rfl
      rw [hround, IsNearest, hy, ht]
      obtain hmod | hmod := Nat.mod_two_eq_zero_or_one m
      · refine Or.inr ⟨?_, ?_⟩
        · simp [hmod, abs_of_pos]
        · exact_mod_cast (Nat.even_iff.mpr hmod).add (by simp [hmod])
      · refine Or.inr ⟨?_, ?_⟩
        · rw [hmod, abs_of_nonpos] <;> push_cast <;> norm_num
        · rw [hmod]
          exact_mod_cast (Nat.odd_iff.mpr hmod).add_one
    | true =>
      -- Above one half the next whole number is the nearest.
      have ht : t ≠ 0 := by simpa using hsticky
      have hpos : 0 < t := lt_of_le_of_ne h0 ht.symm
      have hround : (⟨m, true, true⟩ : ExtendedMantissa).roundedMantissa = m + 1 := rfl
      have hsub : y - ((m + 1 : ℕ) : ℤ) = t - 1 / 2 := by
        rw [hy]
        push_cast
        simp only [if_true]
        ring
      rw [hround, IsNearest, hsub, abs_of_nonpos (by linarith)]
      exact Or.inl (by linarith)

/-! ## Numbers as doubles write them -/

/-- The sign as a factor. -/
def signFactor : Sign → ℚ
  | .negative => -1
  | .positive => 1

/-- The sign leaves the magnitude as it is. -/
theorem abs_signFactor_mul (s : Sign) {y : ℚ} (h : 0 ≤ y) : |signFactor s * y| = y := by
  cases s with
  | negative => rw [signFactor, neg_one_mul, abs_neg, abs_of_nonneg h]
  | positive => rw [signFactor, one_mul, abs_of_nonneg h]

/-- Whether `u` is how a double writes `x`: with a mantissa of 53 bits, or with fewer on the
finest grid. The exponent may still be too large for a double. -/
inductive Encodes : UnpackedFloat → ℚ → Prop
  | zero (s : Sign) : Encodes (.zero s) 0
  | finite (s : Sign) (m : ℕ) (e : ℤ) (hpos : 0 < m) (hlt : m < 2 ^ 53) (he : -1074 ≤ e)
      (hnormal : 2 ^ 52 ≤ m ∨ e = -1074) :
      Encodes (.finite s m e hpos) (signFactor s * (m * 2 ^ e))

/-- What a double writes is neither infinite nor undefined. -/
theorem Encodes.isFinite {u : UnpackedFloat} {x : ℚ} (h : Encodes u x) : u.isFinite := by
  cases h with
  | zero => rfl
  | finite => rfl

/-- What a double writes is one number only. -/
theorem Encodes.unique {u : UnpackedFloat} {x y : ℚ} (hx : Encodes u x) (hy : Encodes u y) :
    x = y := by
  cases hx with
  | zero =>
    cases hy
    rfl
  | finite =>
    cases hy
    rfl

/-- The exponent that the core library aims at. -/
theorem targetExponent_eq (m : ℕ) (e : ℤ) :
    Format.binary64.targetExponent (totalExponent m e) = max (m.log2 + e - 52) (-1074) := by
  have hmin : Format.binary64.minExponent = -1074 := by decide
  have hbits : Format.binary64.mantissaBits = 53 := rfl
  rw [Format.targetExponent, totalExponent, hmin, hbits]
  congr 1
  push_cast
  ring

/-- The core library aims at the grid of the number. -/
theorem targetExponent_eq_gridExponent {m : ℕ} (hm : 0 < m) {y : ℚ} (hfloor : ⌊y⌋ = m) (e : ℤ) :
    Format.binary64.targetExponent (totalExponent m e) = gridExponent (y * 2 ^ e) := by
  obtain ⟨hle, hlt⟩ := Int.floor_eq_iff.mp hfloor
  have hpos : (0 : ℚ) < 2 ^ e := by positivity
  have hy : 0 < y := lt_of_lt_of_le (by exact_mod_cast hm) hle
  -- Powers of two do not tell a number from its whole part, so `m` has the leading bit of `y`.
  have hlog : Int.log 2 |y * 2 ^ e| = m.log2 + e := by
    have hlower : (2 : ℚ) ^ (m.log2 + e : ℤ) ≤ |y * 2 ^ e| := by
      rw [abs_of_pos (mul_pos hy hpos), zpow_add₀ two_ne_zero, zpow_natCast]
      refine mul_le_mul_of_nonneg_right (le_trans ?_ hle) hpos.le
      exact_mod_cast Nat.log2_self_le hm.ne'
    have hupper : |y * 2 ^ e| < (2 : ℚ) ^ (m.log2 + e + 1 : ℤ) := by
      rw [abs_of_pos (mul_pos hy hpos), add_right_comm, zpow_add₀ two_ne_zero]
      refine mul_lt_mul_of_pos_right (lt_of_lt_of_le hlt ?_) hpos
      exact_mod_cast Nat.lt_log2_self
    have habs : 0 < |y * 2 ^ e| := abs_pos.mpr (mul_pos hy hpos).ne'
    have h₁ := (Int.zpow_le_iff_le_log Nat.one_lt_two habs).mp (by exact_mod_cast hlower)
    have h₂ := (Int.lt_zpow_iff_log_lt Nat.one_lt_two habs).mp (by exact_mod_cast hupper)
    omega
  rw [targetExponent_eq, gridExponent, hlog]

/-! ## Rounding -/

/-- A rounded mantissa `k` on the grid `2 ^ e`, shifted once more if rounding gave it a bit too
many. -/
def settle (s : Sign) (k : ℕ) (e : ℤ) : UnpackedFloat :=
  let (em, e) := shiftToTargetExponent Format.binary64 k e .exact
  if h : em.mantissa = 0 then .zero s else .finite s em.mantissa e (Nat.pos_of_ne_zero h)

/-- Nothing is left of a mantissa that is rounded to 0. -/
theorem settle_zero (s : Sign) (e : ℤ) : settle s 0 e = .zero s := by
  have hmantissa (n : ℕ) :
      (ExtendedMantissa.ofMantissaAndAccuracy 0 .exact >>> n).mantissa = 0 := by
    have hfloor := ((truncates_exact 0).shiftRight n).floor_eq
    rw [Nat.cast_zero, zero_div, Int.floor_zero] at hfloor
    exact_mod_cast hfloor.symm
  exact dif_pos (hmantissa _)

/-- A mantissa that does not have a bit too many stays. -/
theorem settle_of_lt (s : Sign) {k : ℕ} (hpos : 0 < k) (hk : k < 2 ^ 53) {e : ℤ}
    (he : -1074 ≤ e) : settle s k e = .finite s k e hpos := by
  have hlog : k.log2 < 53 := (Nat.log2_lt hpos.ne').mpr hk
  have hshift : (Format.binary64.targetExponent (totalExponent k e) - e).toNat = 0 := by
    rw [targetExponent_eq]
    omega
  have hexp : e + (0 : ℕ) = e := by omega
  simp only [settle, shiftToTargetExponent, shiftToExponent, hshift, hexp]
  exact dif_neg hpos.ne'

/-- A mantissa with a bit too many moves to the next grid. -/
theorem settle_two_pow (s : Sign) {e : ℤ} (he : -1074 ≤ e) :
    settle s (2 ^ 53) e = .finite s (2 ^ 52) (e + 1) (by norm_num) := by
  have hshift : (Format.binary64.targetExponent (totalExponent (2 ^ 53) e) - e).toNat = 1 := by
    rw [targetExponent_eq, Nat.log2_two_pow]
    omega
  simp only [settle, shiftToTargetExponent, shiftToExponent, hshift]
  rfl

/-- A rounded mantissa is written as a double writes it. -/
theorem encodes_settle (s : Sign) {k : ℕ} (hk : k ≤ 2 ^ 53) {e : ℤ} (he : -1074 ≤ e)
    (hnormal : k = 0 ∨ 2 ^ 52 ≤ k ∨ e = -1074) :
    Encodes (settle s k e) (signFactor s * (k * 2 ^ e)) := by
  obtain rfl | hpos := k.eq_zero_or_pos
  · rw [settle_zero]
    simpa using Encodes.zero s
  obtain hlt | rfl := hk.lt_or_eq
  · rw [settle_of_lt s hpos hlt he]
    exact .finite s k e hpos hlt he (hnormal.resolve_left hpos.ne')
  · rw [settle_two_pow s he]
    have hvalue : ((2 ^ 53 : ℕ) : ℚ) * 2 ^ e = ((2 ^ 52 : ℕ) : ℚ) * 2 ^ (e + 1) := by
      rw [zpow_add₀ two_ne_zero]
      push_cast
      ring
    rw [hvalue]
    exact .finite s _ _ (by norm_num) (by norm_num) (by omega) (Or.inl le_rfl)

/-- A mantissa that is all of a positive number `y` but for its residual bits is rounded to the
nearest number, if it has as many bits as that takes. -/
theorem encodes_roundWithAccuracy (s : Sign) {m : ℕ} {e : ℤ} {acc : Accuracy} {y : ℚ}
    (hy : 0 < y) (htrunc : Truncates (ExtendedMantissa.ofMantissaAndAccuracy m acc) y)
    (htarget : Format.binary64.targetExponent (totalExponent m e) = gridExponent (y * 2 ^ e))
    (he : e ≤ gridExponent (y * 2 ^ e)) :
    Encodes (roundWithAccuracy Format.binary64 s m e acc)
      (signFactor s * nearest (y * 2 ^ e)) := by
  obtain ⟨n, hn⟩ := Int.eq_ofNat_of_zero_le (sub_nonneg.mpr he)
  have hx : 0 < y * 2 ^ e := mul_pos hy (by positivity)
  have hmin := neg_le_gridExponent (y * 2 ^ e)
  generalize hq : gridExponent (y * 2 ^ e) = q at *
  have hscale : y / 2 ^ n = y * 2 ^ e / 2 ^ q := by
    rw [show q = e + n by omega, zpow_add₀ two_ne_zero, zpow_natCast]
    field_simp
  -- The first shift leaves the number on its grid, with the bits that rounding needs.
  have hshift : shiftToTargetExponent Format.binary64 m e acc =
      (ExtendedMantissa.ofMantissaAndAccuracy m acc >>> n, q) := by
    rw [shiftToTargetExponent, htarget, shiftToExponent, hn, Int.toNat_natCast]
    congr 1
    omega
  have hround := (htrunc.shiftRight n).roundedMantissa_eq
  rw [hscale] at hround
  generalize hk : (ExtendedMantissa.ofMantissaAndAccuracy m acc >>> n).roundedMantissa = k
    at hround
  -- The second shift settles a carry of the rounding, which is the only thing left to do.
  have hsettle : roundWithAccuracy Format.binary64 s m e acc = settle s k q := by
    rw [roundWithAccuracy, hshift]
    simp only [hk]
    rfl
  have hnearest : nearest (y * 2 ^ e) = k * 2 ^ q := by
    rw [nearest, hq, ← hround, Int.cast_natCast]
  rw [hsettle, hnearest]
  apply encodes_settle s _ hmin
  · by_cases hfine : q = -1074
    · exact Or.inr (Or.inr hfine)
    · have hle := le_roundHalfEven_grid hx (hq ▸ hfine)
      rw [hq, ← hround] at hle
      exact Or.inr (Or.inl (by exact_mod_cast hle))
  · have hle := abs_roundHalfEven_grid_le (y * 2 ^ e)
    rw [hq, ← hround, Nat.abs_cast] at hle
    exact_mod_cast hle

/-- A smaller exponent leaves the number as it is. -/
theorem decreaseExponent_value (m : ℕ) (e t : ℤ) :
    ((decreaseExponent m e t).1 : ℚ) * 2 ^ (decreaseExponent m e t).2 = m * 2 ^ e := by
  simp only [decreaseExponent, Nat.shiftLeft_eq]
  push_cast
  rw [mul_assoc, ← zpow_natCast, ← zpow_add₀ two_ne_zero]
  congr 2
  omega

/-- The exponent is made as small as asked for. -/
theorem decreaseExponent_snd_le (m : ℕ) (e t : ℤ) : (decreaseExponent m e t).2 ≤ t := by
  simp only [decreaseExponent]
  omega

/-- An exponent that is large enough is made as small as asked for and not smaller. -/
theorem decreaseExponent_snd_eq (m : ℕ) {e t : ℤ} (h : t ≤ e) : (decreaseExponent m e t).2 = t := by
  simp only [decreaseExponent]
  omega

/-- A smaller exponent does not lose a mantissa. -/
theorem decreaseExponent_fst_pos {m : ℕ} (hm : 0 < m) (e t : ℤ) :
    0 < (decreaseExponent m e t).1 := by
  rw [decreaseExponent, Nat.shiftLeft_eq]
  positivity

/-- Any mantissa and exponent are rounded to the nearest number. -/
theorem encodes_round (s : Sign) {m : ℕ} (hm : 0 < m) (e : ℤ) :
    Encodes (UnpackedFloat.round Format.binary64 s m e) (signFactor s * nearest (m * 2 ^ e)) := by
  -- The exponent is made small enough first, so that a shift to the grid goes to the right.
  have htarget := targetExponent_eq_gridExponent hm (y := m) (Int.floor_natCast m) e
  generalize ht : Format.binary64.targetExponent (totalExponent m e) = t at htarget
  have hvalue := decreaseExponent_value m e t
  have hpos := decreaseExponent_fst_pos hm e t
  have hle := decreaseExponent_snd_le m e t
  rw [UnpackedFloat.round, ht]
  generalize decreaseExponent m e t = p at *
  obtain ⟨m', e'⟩ := p
  simp only at hvalue hpos hle ⊢
  rw [← hvalue] at htarget ⊢
  apply encodes_roundWithAccuracy s (by exact_mod_cast hpos) (truncates_exact m')
  · exact targetExponent_eq_gridExponent hpos (Int.floor_natCast m') e'
  · rwa [← htarget]

/-- A signed mantissa is rounded to the nearest number. -/
theorem encodes_normalize (k e : ℤ) (s : Sign) :
    Encodes (UnpackedFloat.normalize Format.binary64 k e s) (nearest (k * 2 ^ e)) := by
  obtain hneg | rfl | hpos := lt_trichotomy k 0
  · have hcompare : compare k 0 = .lt := compare_lt_iff_lt.mpr hneg
    have hcast : (((-k).toNat : ℕ) : ℚ) = -k := by
      have : (((-k).toNat : ℕ) : ℤ) = -k := Int.toNat_of_nonneg (by omega)
      exact_mod_cast congrArg (Int.cast : ℤ → ℚ) this
    have h := encodes_round .negative (m := (-k).toNat) (by omega) e
    rw [hcast, neg_mul, nearest_neg, signFactor, neg_one_mul, neg_neg] at h
    rwa [UnpackedFloat.normalize, hcompare]
  · simpa [UnpackedFloat.normalize] using Encodes.zero s
  · have hcompare : compare k 0 = .gt := compare_gt_iff_gt.mpr hpos
    have hcast : ((k.toNat : ℕ) : ℚ) = k := by
      have : ((k.toNat : ℕ) : ℤ) = k := Int.toNat_of_nonneg (by omega)
      exact_mod_cast congrArg (Int.cast : ℤ → ℚ) this
    have h := encodes_round .positive (m := k.toNat) (by omega) e
    rw [hcast, signFactor, one_mul] at h
    rwa [UnpackedFloat.normalize, hcompare]

end DiceOdds.Binary64
