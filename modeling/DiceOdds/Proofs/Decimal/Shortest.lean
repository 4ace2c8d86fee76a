import DiceOdds.Decimal.Shortest
import DiceOdds.Proofs.Binary64.Scientific

/-!
# Shortest decimals are read back

`Binary.reads` compares a decimal with the midpoints to the neighbours of a double. What lies
between them is rounded to the double (`Binary.nearest_eq_of_reads`), so that the shortest decimal
of a double is read as the double. Hence shortest decimals are in the order of the doubles that they
are written for (`Decimal.value_shortest_le_iff`).
-/

namespace DiceOdds

open Binary64

/-! ## Doubles as mantissas and exponents -/

namespace Binary

/-- The number itself. -/
def value (b : Binary) : ℚ := b.mantissa * 2 ^ b.exponent

/-- Whether `b` is how a double writes its magnitude, with its distance to the next smaller one. -/
structure IsDouble (b : Binary) : Prop where
  /-- The mantissa has at most 53 bits. -/
  mantissa_lt : b.mantissa < 2 ^ 53
  /-- No grid is finer than the finest one. -/
  le_exponent : -1074 ≤ b.exponent
  /-- The mantissa has fewer than 53 bits on the finest grid only. -/
  normal : 2 ^ 52 ≤ b.mantissa ∨ b.exponent = -1074
  /-- Below a power of two the numbers are on a finer grid, if there is one. -/
  narrowBelow_iff : b.narrowBelow = true ↔ b.mantissa = 2 ^ 52 ∧ -1074 < b.exponent

/-- The parts of a double are those of its word. -/
theorem ofFloat_eq (x : Float) :
    (ofFloat x).mantissa = mantissaOf x.toBits.toBitVec ∧
      (ofFloat x).exponent = exponentOf x.toBits.toBitVec ∧
      ((ofFloat x).narrowBelow = true ↔
        fractionBits x.toBits.toBitVec = 0 ∧ 1 < exponentBits x.toBits.toBitVec) := by
  have hfield : ((x.toBits >>> 52) &&& 0x7ff).toNat = exponentBits x.toBits.toBitVec :=
    toNat_exponentField x
  have hfraction : (x.toBits &&& 0xfffffffffffff).toNat = fractionBits x.toBits.toBitVec := by
    have hmask : ((0xfffffffffffff : UInt64).toNat) = 2 ^ 52 - 1 := rfl
    rw [UInt64.toNat_and, hmask, Nat.and_two_pow_sub_one_eq_mod]
    rfl
  rw [ofFloat, hfield, hfraction]
  by_cases hzero : exponentBits x.toBits.toBitVec = 0
  · rw [if_pos hzero, mantissaOf, exponentOf, if_pos hzero, hzero, zero_add]
    exact ⟨rfl, rfl, by simp⟩
  · rw [if_neg hzero, mantissaOf, exponentOf, if_neg hzero]
    refine ⟨rfl, ?_, by simp⟩
    rw [max_eq_left (by omega)]

/-- A double is written as doubles are. -/
theorem isDouble_ofFloat (x : Float) : (ofFloat x).IsDouble := by
  obtain ⟨hmantissa, hexponent, hnarrow⟩ := ofFloat_eq x
  have hfraction := fractionBits_lt x.toBits.toBitVec
  refine ⟨?_, ?_, ?_, ?_⟩
  · rw [hmantissa]
    exact mantissaOf_lt _
  · rw [hexponent, exponentOf]
    omega
  · rw [hmantissa, hexponent]
    exact mantissaOf_normal _
  · -- Only the leading bit is set exactly if there is one and the fraction is 0.
    rw [hnarrow, hmantissa, hexponent, mantissaOf, exponentOf]
    split_ifs with hzero <;> omega

/-- A finite double with a clear sign bit stands for its mantissa and exponent. -/
theorem hasValue_ofFloat {x : Float} (hx : IsUnsigned x) (hfinite : x.isFinite) :
    HasValue x (ofFloat x).value := by
  obtain ⟨hmantissa, hexponent, -⟩ := ofFloat_eq x
  have h := hasValue_value hfinite
  rw [Binary64.value, (isNegative_eq_false_iff x).mp hx.2, signFactor, one_mul, magnitude] at h
  rwa [value, hmantissa, hexponent]

/-! ## What is between the midpoints -/

/-- The two scales differ from the powers by a common factor. -/
theorem exists_scale (exponent2 exponent10 : ℤ) : ∃ c : ℚ, 0 < c ∧
    (decimalScale exponent2 exponent10 : ℚ) = 10 ^ exponent10 * c ∧
      (binaryScale exponent2 exponent10 : ℚ) = 2 ^ exponent2 * c := by
  have hsplit {a : ℚ} (ha : a ≠ 0) (e : ℤ) : a ^ e.toNat = a ^ e * a ^ (-e).toNat := by
    rw [← zpow_natCast, ← zpow_natCast a (-e).toNat, ← zpow_add₀ ha]
    congr 1
    omega
  refine ⟨2 ^ (-exponent2).toNat * 10 ^ (-exponent10).toNat, by positivity, ?_, ?_⟩
  · rw [decimalScale, Nat.pow_eq, Nat.pow_eq]
    push_cast
    rw [hsplit (by norm_num : (10 : ℚ) ≠ 0)]
    ring
  · rw [binaryScale, Nat.pow_eq, Nat.pow_eq]
    push_cast
    rw [hsplit two_ne_zero]
    ring

/-- On the common scale a multiple of a power of two is compared with a decimal. -/
theorem binaryScale_le_iff (k digits : ℕ) (exponent2 exponent10 : ℤ) :
    k * binaryScale exponent2 exponent10 ≤ digits * decimalScale exponent2 exponent10 ↔
      (k * 2 ^ exponent2 : ℚ) ≤ digits * 10 ^ exponent10 := by
  obtain ⟨c, hc, hdecimal, hbinary⟩ := exists_scale exponent2 exponent10
  rw [← Nat.cast_le (α := ℚ), Nat.cast_mul, Nat.cast_mul, hdecimal, hbinary, ← mul_assoc,
    ← mul_assoc, mul_le_mul_iff_left₀ hc]

/-- On the common scale a decimal is compared with a multiple of a power of two. -/
theorem decimalScale_le_iff (k digits : ℕ) (exponent2 exponent10 : ℤ) :
    digits * decimalScale exponent2 exponent10 ≤ k * binaryScale exponent2 exponent10 ↔
      (digits * 10 ^ exponent10 : ℚ) ≤ k * 2 ^ exponent2 := by
  obtain ⟨c, hc, hdecimal, hbinary⟩ := exists_scale exponent2 exponent10
  rw [← Nat.cast_le (α := ℚ), Nat.cast_mul, Nat.cast_mul, hdecimal, hbinary, ← mul_assoc,
    ← mul_assoc, mul_le_mul_iff_left₀ hc]

variable {b : Binary} {digits : ℕ} {exponent10 : ℤ}

/-- A decimal that is read lies within half a unit of the mantissa, or within a quarter below it
where the next smaller number is nearer; and not on a midpoint, if the mantissa is odd. -/
theorem bounds_of_reads {steps : ℚ} (hsteps : digits * 10 ^ exponent10 = steps * 2 ^ b.exponent)
    (h : b.reads digits exponent10 = true) :
    (b.mantissa - (if b.narrowBelow then 1 / 4 else 1 / 2) ≤ steps ∧ steps ≤ b.mantissa + 1 / 2) ∧
      (¬ Even b.mantissa → b.mantissa - (if b.narrowBelow then 1 / 4 else 1 / 2) < steps ∧
        steps < b.mantissa + 1 / 2) := by
  have hpos : (0 : ℚ) < 2 ^ b.exponent := by positivity
  have hquarter : (2 : ℚ) ^ (b.exponent - 2) = 1 / 4 * 2 ^ b.exponent := by
    rw [zpow_sub₀ two_ne_zero]
    ring
  -- In quarters of a unit the midpoints are whole numbers.
  have hlow (k : ℕ) : k * binaryScale (b.exponent - 2) exponent10 ≤
      digits * decimalScale (b.exponent - 2) exponent10 ↔ (k : ℚ) / 4 ≤ steps := by
    rw [binaryScale_le_iff, hsteps, hquarter, ← mul_assoc, mul_le_mul_iff_left₀ hpos, mul_one_div]
  have hhigh (k : ℕ) : digits * decimalScale (b.exponent - 2) exponent10 ≤
      k * binaryScale (b.exponent - 2) exponent10 ↔ steps ≤ (k : ℚ) / 4 := by
    rw [decimalScale_le_iff, hsteps, hquarter, ← mul_assoc, mul_le_mul_iff_left₀ hpos, mul_one_div]
  have hbelow : (b.mantissa - (if b.narrowBelow then 1 / 4 else 1 / 2) : ℚ) ≤
      ((4 * b.mantissa - if b.narrowBelow then 1 else 2 : ℕ) : ℚ) / 4 := by
    rw [le_div_iff₀ (by norm_num)]
    have hsub (k : ℕ) : (4 * b.mantissa : ℚ) ≤ (4 * b.mantissa - k : ℕ) + k := by
      exact_mod_cast (by omega : 4 * b.mantissa ≤ 4 * b.mantissa - k + k)
    split_ifs
    · have := hsub 1
      push_cast at this
      linarith
    · have := hsub 2
      push_cast at this
      linarith
  have habove : ((4 * b.mantissa + 2 : ℕ) : ℚ) / 4 = b.mantissa + 1 / 2 := by
    push_cast
    ring
  simp only [reads] at h
  by_cases heven : b.mantissa % 2 = 0
  · rw [if_pos heven, Bool.and_eq_true, decide_eq_true_iff, decide_eq_true_iff, hlow, hhigh,
      habove] at h
    exact ⟨⟨hbelow.trans h.1, h.2⟩, fun hodd => absurd (Nat.even_iff.mpr heven) hodd⟩
  · rw [if_neg heven, Bool.and_eq_true, decide_eq_true_iff, decide_eq_true_iff, ← not_le, ← not_le,
      hlow, hhigh, not_le, not_le, habove] at h
    have hstrict := And.intro (hbelow.trans_lt h.1) h.2
    exact ⟨⟨hstrict.1.le, hstrict.2.le⟩, fun _ => hstrict⟩

/-- A number on the grid `2 ^ grid` is rounded to the multiple that is nearest to it there. -/
theorem nearest_eq_of_isNearest {x : ℚ} {grid k : ℤ} (hx : x ≠ 0) (hgrid : -1074 ≤ grid)
    (hlt : |x| < 2 ^ (grid + 53)) (hle : grid = -1074 ∨ 2 ^ (grid + 52) ≤ |x|)
    (h : IsNearest (x / 2 ^ grid) k) : nearest x = k * 2 ^ grid := by
  rw [nearest, gridExponent_eq hgrid hlt hle hx, h.roundHalfEven_eq]

/-- On the grid of a double its mantissa is nearest to all that is within half a unit of it; an odd
one is not nearest to a midpoint. -/
theorem nearest_eq_of_same_grid (hb : b.IsDouble) {steps : ℚ} (hpos : 0 < steps)
    (hgrid : b.exponent = -1074 ∨ 2 ^ 52 ≤ steps) (habs : |steps - b.mantissa| ≤ 1 / 2)
    (hodd : ¬ Even b.mantissa → |steps - b.mantissa| < 1 / 2) :
    nearest (steps * 2 ^ b.exponent) = b.value := by
  have hunit : (0 : ℚ) < 2 ^ b.exponent := by positivity
  have hx : 0 < steps * 2 ^ b.exponent := mul_pos hpos hunit
  have hm : (b.mantissa : ℚ) + 1 ≤ 2 ^ 53 := by exact_mod_cast hb.mantissa_lt
  have hnear : IsNearest (steps * 2 ^ b.exponent / 2 ^ b.exponent) b.mantissa := by
    rw [mul_div_cancel_right₀ _ hunit.ne', IsNearest, Int.cast_natCast]
    by_cases heven : Even b.mantissa
    · exact habs.lt_or_eq.imp_right fun heq => ⟨heq, by exact_mod_cast heven⟩
    · exact .inl (hodd heven)
  have hround := nearest_eq_of_isNearest hx.ne' hb.le_exponent ?_ ?_ hnear
  · exact_mod_cast hround
  · rw [abs_of_pos hx, zpow_add₀ two_ne_zero, mul_comm]
    refine mul_lt_mul_of_pos_left ?_ hunit
    have hupper := (abs_le.mp habs).2
    exact_mod_cast (by linarith : steps < 2 ^ 53)
  · refine hgrid.imp_right fun hle => ?_
    rw [abs_of_pos hx, zpow_add₀ two_ne_zero, mul_comm]
    exact mul_le_mul_of_nonneg_right (by exact_mod_cast hle) hunit.le

/-- Below a power of two the grid is finer, and on it the power is nearest to all that is within a
quarter of a unit of it. -/
theorem nearest_eq_of_finer_grid (hpower : b.mantissa = 2 ^ 52) (hfine : -1074 < b.exponent)
    {steps : ℚ} (hlt : steps < 2 ^ 52) (hlow : 2 ^ 52 - 1 / 4 ≤ steps) :
    nearest (steps * 2 ^ b.exponent) = b.value := by
  have hunit : (0 : ℚ) < 2 ^ b.exponent := by positivity
  have hx : 0 < steps * 2 ^ b.exponent := mul_pos (by linarith) hunit
  have hhalf : (2 : ℚ) ^ b.exponent = 2 * 2 ^ (b.exponent - 1) := by
    rw [zpow_sub_one₀ two_ne_zero]
    ring
  have hhalf_pos : (0 : ℚ) < 2 ^ (b.exponent - 1) := by positivity
  have hnear : IsNearest (steps * 2 ^ b.exponent / 2 ^ (b.exponent - 1)) (2 ^ 53) := by
    rw [hhalf, ← mul_assoc, mul_div_cancel_right₀ _ hhalf_pos.ne', IsNearest]
    have habs : |steps * 2 - (2 ^ 53 : ℤ)| ≤ 1 / 2 := by
      push_cast
      exact abs_le.mpr ⟨by linarith, by linarith⟩
    exact habs.lt_or_eq.imp_right fun heq => ⟨heq, by decide⟩
  have hround := nearest_eq_of_isNearest hx.ne' (by omega) ?_ ?_ hnear
  · rw [hround, value, hpower, hhalf]
    push_cast
    ring
  · rw [abs_of_pos hx, show b.exponent - 1 + 53 = b.exponent + 52 by ring, zpow_add₀ two_ne_zero,
      mul_comm]
    exact mul_lt_mul_of_pos_left (by exact_mod_cast hlt) hunit
  · rw [abs_of_pos hx, show b.exponent - 1 + 52 = b.exponent + 51 by ring, zpow_add₀ two_ne_zero,
      mul_comm]
    refine .inr (mul_le_mul_of_nonneg_right ?_ hunit.le)
    exact_mod_cast (by linarith : (2 : ℚ) ^ 51 ≤ steps)

/-- A decimal that is read is rounded to the number. -/
theorem nearest_eq_of_reads (hb : b.IsDouble) (h : b.reads digits exponent10 = true) :
    nearest (digits * 10 ^ exponent10) = b.value := by
  have hunit : (0 : ℚ) < 2 ^ b.exponent := by positivity
  obtain ⟨steps, hsteps⟩ : ∃ steps : ℚ, (digits * 10 ^ exponent10 : ℚ) = steps * 2 ^ b.exponent :=
    ⟨_, (div_mul_cancel₀ _ hunit.ne').symm⟩
  have hnonneg : 0 ≤ steps := by
    have : (0 : ℚ) ≤ steps * 2 ^ b.exponent := hsteps ▸ by positivity
    exact nonneg_of_mul_nonneg_left this hunit
  obtain ⟨⟨hlow, hhigh⟩, hodd⟩ := bounds_of_reads hsteps h
  have hbelow : (if b.narrowBelow then 1 / 4 else 1 / 2 : ℚ) ≤ 1 / 2 := by
    split_ifs <;> norm_num
  rw [hsteps]
  obtain rfl | hpos := hnonneg.eq_or_lt
  · -- Only 0 is within half a unit of 0.
    have hzero : b.mantissa < 1 := by
      have : (b.mantissa : ℚ) < 1 := by linarith
      exact_mod_cast this
    rw [value, Nat.lt_one_iff.mp hzero, Nat.cast_zero, zero_mul, nearest_zero]
  by_cases hgrid : b.exponent = -1074 ∨ 2 ^ 52 ≤ steps
  · refine nearest_eq_of_same_grid hb hpos hgrid (abs_le.mpr ⟨by linarith, by linarith⟩) ?_
    intro hmantissa
    obtain ⟨hlow', hhigh'⟩ := hodd hmantissa
    exact abs_lt.mpr ⟨by linarith, by linarith⟩
  · -- A decimal on a finer grid than the double is below a power of two.
    obtain ⟨hfine, hlt⟩ := not_or.mp hgrid
    rw [not_le] at hlt
    have hle := hb.le_exponent
    have hlead := hb.normal.resolve_right hfine
    have hnarrow : b.narrowBelow = true := by
      by_contra hwide
      rw [if_neg hwide] at hlow
      have hne : b.mantissa ≠ 2 ^ 52 := fun heq => hwide (hb.narrowBelow_iff.mpr ⟨heq, by omega⟩)
      have : (2 : ℚ) ^ 52 + 1 ≤ b.mantissa := by
        exact_mod_cast (by omega : 2 ^ 52 + 1 ≤ b.mantissa)
      linarith
    obtain ⟨hpower, hfine'⟩ := hb.narrowBelow_iff.mp hnarrow
    rw [if_pos hnarrow, hpower] at hlow
    exact nearest_eq_of_finer_grid hpower hfine' hlt (by exact_mod_cast hlow)

end Binary

/-! ## Shortest decimals -/

namespace Decimal

/-- The number itself. -/
def value (d : Decimal) : ℚ := d.digits * 10 ^ d.exponent

/-- The shortest decimal of a double is rounded to it. -/
theorem nearest_value_shortest (x : Float) :
    nearest (shortest (.ofFloat x)).value = (Binary.ofFloat x).value :=
  Binary.nearest_eq_of_reads (Binary.isDouble_ofFloat x) (reads_shortest _)

/-- Shortest decimals are in the order of the doubles that they are written for. -/
theorem value_shortest_le_iff {x y : Float} (hx : IsUnsigned x) (hy : IsUnsigned y)
    (hxf : x.isFinite) (hyf : y.isFinite) :
    (shortest (.ofFloat x)).value ≤ (shortest (.ofFloat y)).value ↔ x ≤ y := by
  have hxv := Binary.hasValue_ofFloat hx hxf
  have hyv := Binary.hasValue_ofFloat hy hyf
  rw [hxv.le_iff hyv, ← nearest_value_shortest x, ← nearest_value_shortest y]
  refine ⟨nearest_mono, fun h => ?_⟩
  by_contra hlt
  -- In the other order the numbers were the same, and so the doubles and their decimals.
  have heq := h.antisymm (nearest_mono (not_le.mp hlt).le)
  rw [nearest_value_shortest, nearest_value_shortest] at heq
  obtain rfl := hx.eq_of_hasValue hy hxv (heq ▸ hyv)
  exact hlt le_rfl

end Decimal

end DiceOdds
