import Mathlib.Algebra.Order.Field.Power
import Mathlib.Algebra.Ring.Int.Parity
import Mathlib.Data.Int.Log
import Mathlib.Data.Rat.Floor
import Mathlib.Tactic.Linarith
import Mathlib.Tactic.Positivity
import Mathlib.Tactic.Ring

/-!
# Rounding to the nearest number of 53 bits

What a rounded operation does to the exact result, stated over the rational numbers alone. A
number is written as a whole multiple of `2 ^ q`, where `q` is chosen so that the multiple has 53
bits, or is -1074 if the number is too small for that; of two multiples that are equally near, the
even one is taken. The exponent has no upper end here: overflow is a matter of the encoding.
-/

namespace DiceOdds.Binary64

/-! ## Whole numbers -/

/-- The whole number nearest to `y`; of two that are equally near, the even one. -/
def roundHalfEven (y : ℚ) : ℤ :=
  if y - ⌊y⌋ < 1 / 2 ∨ y - ⌊y⌋ = 1 / 2 ∧ Even ⌊y⌋ then ⌊y⌋ else ⌊y⌋ + 1

/-- Whether no whole number is nearer to `y` than `n`, and `n` is even if another is as near. -/
def IsNearest (y : ℚ) (n : ℤ) : Prop :=
  |y - n| < 1 / 2 ∨ |y - n| = 1 / 2 ∧ Even n

/-- A nearest whole number is at most one half away. -/
theorem IsNearest.abs_sub_le {y : ℚ} {n : ℤ} (h : IsNearest y n) : |y - n| ≤ 1 / 2 := by
  obtain h | ⟨h, -⟩ := h
  · exact h.le
  · exact h.le

/-- A nearest whole number that is one half away is even. -/
theorem IsNearest.even {y : ℚ} {n : ℤ} (h : IsNearest y n) (habs : |y - n| = 1 / 2) :
    Even n := by
  obtain h | ⟨-, h⟩ := h
  · exact absurd habs h.ne
  · exact h

/-- Rounding finds a nearest whole number. -/
theorem isNearest_roundHalfEven (y : ℚ) : IsNearest y (roundHalfEven y) := by
  have hle := Int.floor_le y
  have hlt := Int.lt_floor_add_one y
  unfold roundHalfEven
  split_ifs with h
  · rw [IsNearest, abs_of_nonneg (by linarith)]
    exact h
  · rw [not_or, not_and, not_lt] at h
    obtain ⟨hge, hodd⟩ := h
    have habs : |y - (⌊y⌋ + 1 : ℤ)| = 1 - (y - ⌊y⌋) := by
      push_cast
      rw [abs_of_nonpos (by linarith)]
      ring
    rw [IsNearest, habs]
    obtain hgt | heq := hge.lt_or_eq
    · exact Or.inl (by linarith)
    · exact Or.inr ⟨by linarith, (Int.not_even_iff_odd.mp (hodd heq.symm)).add_one⟩

/-- Neighbours are not both nearest: they would be one half away, and one of them is odd. -/
theorem IsNearest.not_add_one {y : ℚ} {n : ℤ} (h : IsNearest y n) : ¬ IsNearest y (n + 1) := by
  intro h'
  have hle := abs_le.mp h.abs_sub_le
  have hge := abs_le.mp h'.abs_sub_le
  push_cast at hge
  have hn : Even n := by
    apply h.even
    rw [show y - n = 1 / 2 by linarith]
    norm_num
  have hn' : Even (n + 1) := by
    apply h'.even
    push_cast
    rw [show y - (n + 1) = -(1 / 2) by linarith]
    norm_num
  exact Int.even_add_one.mp hn' hn

/-- There is only one nearest whole number. -/
theorem IsNearest.unique {y : ℚ} {m n : ℤ} (hm : IsNearest y m) (hn : IsNearest y n) : m = n := by
  -- Both are within one half of `y`, so they are at most 1 apart.
  have hm' := abs_le.mp hm.abs_sub_le
  have hn' := abs_le.mp hn.abs_sub_le
  have hle : m ≤ n + 1 := by
    have : (m : ℚ) ≤ (n + 1 : ℤ) := by push_cast; linarith
    exact_mod_cast this
  have hge : n ≤ m + 1 := by
    have : (n : ℚ) ≤ (m + 1 : ℤ) := by push_cast; linarith
    exact_mod_cast this
  obtain h | h | h : m = n ∨ m = n + 1 ∨ n = m + 1 := by omega
  · exact h
  · exact absurd (h ▸ hm) hn.not_add_one
  · exact absurd (h ▸ hn) hm.not_add_one

/-- Rounding is known by its result being nearest. -/
theorem IsNearest.roundHalfEven_eq {y : ℚ} {n : ℤ} (h : IsNearest y n) : roundHalfEven y = n :=
  (isNearest_roundHalfEven y).unique h

/-- A whole number is left as it is. -/
@[simp] theorem roundHalfEven_intCast (n : ℤ) : roundHalfEven n = n := by
  apply IsNearest.roundHalfEven_eq
  exact Or.inl (by norm_num)

/-- Rounding treats both signs alike. -/
theorem roundHalfEven_neg (y : ℚ) : roundHalfEven (-y) = -roundHalfEven y := by
  apply IsNearest.roundHalfEven_eq
  have habs : |-y - (-roundHalfEven y : ℤ)| = |y - roundHalfEven y| := by
    push_cast
    rw [← abs_neg]
    congr 1
    ring
  rw [IsNearest, habs, even_neg]
  exact isNearest_roundHalfEven y

/-- Rounding keeps the order. -/
theorem roundHalfEven_mono {y z : ℚ} (h : y ≤ z) : roundHalfEven y ≤ roundHalfEven z := by
  obtain hlt | rfl := h.lt_or_eq
  · -- The results lie within one half of `y` and `z`, so they are out of order by less than 1.
    have hy := abs_le.mp (isNearest_roundHalfEven y).abs_sub_le
    have hz := abs_le.mp (isNearest_roundHalfEven z).abs_sub_le
    have : (roundHalfEven y : ℚ) < (roundHalfEven z + 1 : ℤ) := by
      push_cast
      linarith
    exact Int.lt_add_one_iff.mp (by exact_mod_cast this)
  · exact le_rfl

/-! ## The grid of a number -/

/-- The exponent of the grid that a number is rounded to. -/
def gridExponent (x : ℚ) : ℤ := max (Int.log 2 |x| - 52) (-1074)

/-- The grid of a number is that of its magnitude. -/
@[simp] theorem gridExponent_neg (x : ℚ) : gridExponent (-x) = gridExponent x := by
  simp [gridExponent]

/-- No grid is finer than the finest one. -/
theorem neg_le_gridExponent (x : ℚ) : -1074 ≤ gridExponent x := le_max_right _ _

/-- A number has no more than 53 bits above its grid. -/
theorem abs_lt_two_zpow (x : ℚ) : |x| < 2 ^ (gridExponent x + 53) := by
  calc |x| < 2 ^ (Int.log 2 |x| + 1) := Int.lt_zpow_succ_log_self Nat.one_lt_two |x|
    _ ≤ 2 ^ (gridExponent x + 53) := by
      apply zpow_le_zpow_right₀ one_le_two
      have := le_max_left (Int.log 2 |x| - 52) (-1074)
      unfold gridExponent
      omega

/-- A number whose grid is not the finest has no fewer than 53 bits above it. -/
theorem two_zpow_le_abs {x : ℚ} (hx : x ≠ 0) (h : gridExponent x ≠ -1074) :
    2 ^ (gridExponent x + 52) ≤ |x| := by
  have hlog : gridExponent x + 52 = Int.log 2 |x| := by
    unfold gridExponent at h ⊢
    omega
  rw [hlog]
  exact Int.zpow_log_le_self Nat.one_lt_two (abs_pos.mpr hx)

/-- A number between two powers of two lies on the grid of the lower one. -/
theorem gridExponent_eq {x : ℚ} {q : ℤ} (hq : -1074 ≤ q) (hlt : |x| < 2 ^ (q + 53))
    (hle : q = -1074 ∨ 2 ^ (q + 52) ≤ |x|) (hx : x ≠ 0) : gridExponent x = q := by
  have hupper : Int.log 2 |x| < q + 53 :=
    (Int.lt_zpow_iff_log_lt Nat.one_lt_two (abs_pos.mpr hx)).mp hlt
  obtain rfl | hle := hle
  · unfold gridExponent
    omega
  · have hlower : q + 52 ≤ Int.log 2 |x| :=
      (Int.zpow_le_iff_le_log Nat.one_lt_two (abs_pos.mpr hx)).mp hle
    unfold gridExponent
    omega

/-! ## Rounding -/

/-- The number of 53 bits that is nearest to `x`. -/
def nearest (x : ℚ) : ℚ :=
  roundHalfEven (x / 2 ^ gridExponent x) * 2 ^ gridExponent x

/-- Rounding treats both signs alike. -/
@[simp] theorem nearest_neg (x : ℚ) : nearest (-x) = -nearest x := by
  unfold nearest
  rw [gridExponent_neg, neg_div, roundHalfEven_neg]
  push_cast
  ring

/-- Zero is left as it is. -/
@[simp] theorem nearest_zero : nearest 0 = 0 := by
  rw [nearest, zero_div, ← Int.cast_zero, roundHalfEven_intCast, Int.cast_zero, zero_mul]

/-- A number on its own grid is left as it is. -/
theorem nearest_of_grid {x : ℚ} {k : ℤ} (h : x = k * 2 ^ gridExponent x) : nearest x = x := by
  have hpow : (2 : ℚ) ^ gridExponent x ≠ 0 := by positivity
  have hk : x / 2 ^ gridExponent x = k := by
    rw [div_eq_iff hpow]
    exact h
  unfold nearest
  rw [hk, roundHalfEven_intCast]
  exact h.symm

/-- A multiple of a power of two is a multiple of every lower one. -/
theorem exists_mul_two_zpow (k : ℤ) {e q : ℤ} (h : q ≤ e) :
    ∃ m : ℤ, (k : ℚ) * 2 ^ e = m * 2 ^ q := by
  obtain ⟨d, hd⟩ := Int.eq_ofNat_of_zero_le (sub_nonneg.mpr h)
  refine ⟨k * 2 ^ d, ?_⟩
  push_cast
  rw [mul_assoc, ← zpow_natCast, ← zpow_add₀ two_ne_zero, ← hd, sub_add_cancel]

/-- Whether `x` is a whole number of at most 53 bits, times a power of two that is not too small:
what a double can hold but for the upper end of its range. -/
def Representable (x : ℚ) : Prop :=
  ∃ k e : ℤ, |k| ≤ 2 ^ 53 ∧ -1074 ≤ e ∧ x = k * 2 ^ e

/-- A natural number of at most 53 bits can be held. -/
theorem representable_natCast {n : ℕ} (h : n ≤ 2 ^ 53) : Representable n := by
  refine ⟨n, 0, ?_, by norm_num, by simp⟩
  rw [Nat.abs_cast]
  exact_mod_cast h

/-- The number 1 can be held. -/
theorem representable_one : Representable 1 := by
  simpa using representable_natCast (n := 1) (by norm_num)

/-- Only a number that needs a bit more than 53 lies on a coarser grid than the one it is given
on. -/
theorem abs_eq_of_lt_gridExponent {k e : ℤ} (hk : |k| ≤ 2 ^ 53) (hk0 : k ≠ 0) (he : -1074 ≤ e)
    (hlt : e < gridExponent (k * 2 ^ e)) : |k| = 2 ^ 53 ∧ gridExponent (k * 2 ^ e) ≤ e + 1 := by
  have hpos : (0 : ℚ) < 2 ^ e := by positivity
  have hx : (k : ℚ) * 2 ^ e ≠ 0 := mul_ne_zero (by exact_mod_cast hk0) hpos.ne'
  have hlower : (2 : ℚ) ^ (gridExponent (k * 2 ^ e) + 52) ≤ |(k : ℚ)| * 2 ^ e := by
    calc (2 : ℚ) ^ (gridExponent (k * 2 ^ e) + 52) ≤ |(k : ℚ) * 2 ^ e| :=
          two_zpow_le_abs hx (by omega)
      _ = |(k : ℚ)| * 2 ^ e := by rw [abs_mul, abs_of_pos hpos]
  have hupper : |(k : ℚ)| * 2 ^ e ≤ 2 ^ (e + 53) := by
    have : |(k : ℚ)| ≤ 2 ^ (53 : ℕ) := by exact_mod_cast hk
    rw [zpow_add₀ two_ne_zero, mul_comm]
    exact mul_le_mul_of_nonneg_left this hpos.le
  have hgrid : gridExponent (k * 2 ^ e) + 52 ≤ e + 53 :=
    (zpow_le_zpow_iff_right₀ one_lt_two).mp (hlower.trans hupper)
  refine ⟨le_antisymm hk ?_, by omega⟩
  have : (2 : ℚ) ^ (53 : ℕ) * 2 ^ e ≤ |(k : ℚ)| * 2 ^ e := by
    rw [← zpow_natCast, ← zpow_add₀ two_ne_zero, add_comm]
    exact (zpow_le_zpow_right₀ one_le_two (by omega)).trans hlower
  exact_mod_cast le_of_mul_le_mul_right this hpos

/-- What can be held is left as it is. -/
theorem Representable.nearest_eq {x : ℚ} (h : Representable x) : nearest x = x := by
  obtain ⟨k, e, hk, he, rfl⟩ := h
  obtain rfl | hk0 := eq_or_ne k 0
  · simp
  obtain hle | hlt := le_or_gt (gridExponent (k * 2 ^ e)) e
  · -- The grid of the number is no coarser than the one it is given on.
    obtain ⟨m, hm⟩ := exists_mul_two_zpow k hle
    exact nearest_of_grid hm
  · -- The mantissa is a power of two, so half of it is on the next grid.
    obtain ⟨hk53, hgrid⟩ := abs_eq_of_lt_gridExponent hk hk0 he hlt
    obtain ⟨s, hs⟩ : ∃ s : ℤ, k = s * 2 := by
      obtain h | h := eq_or_eq_neg_of_abs_eq hk53
      · exact ⟨2 ^ 52, by omega⟩
      · exact ⟨-2 ^ 52, by omega⟩
    have hdouble : (k : ℚ) * 2 ^ e = s * 2 ^ (e + 1) := by
      rw [hs, zpow_add₀ two_ne_zero]
      push_cast
      ring
    obtain ⟨m, hm⟩ := exists_mul_two_zpow s hgrid
    exact nearest_of_grid (hdouble.trans hm)

/-- On its grid a number is a multiple of at most 53 bits. -/
theorem abs_roundHalfEven_grid_le (x : ℚ) : |roundHalfEven (x / 2 ^ gridExponent x)| ≤ 2 ^ 53 := by
  have hpos : (0 : ℚ) < 2 ^ gridExponent x := by positivity
  have hlt := abs_lt.mp (abs_lt_two_zpow x)
  rw [zpow_add₀ two_ne_zero, mul_comm] at hlt
  have hupper : x / 2 ^ gridExponent x ≤ ((2 ^ 53 : ℤ) : ℚ) := by
    rw [div_le_iff₀ hpos]
    exact_mod_cast hlt.2.le
  have hlower : ((-2 ^ 53 : ℤ) : ℚ) ≤ x / 2 ^ gridExponent x := by
    rw [le_div_iff₀ hpos]
    push_cast
    rw [neg_mul]
    exact_mod_cast hlt.1.le
  rw [abs_le]
  constructor
  · calc (-2 ^ 53 : ℤ) = roundHalfEven (-2 ^ 53 : ℤ) := (roundHalfEven_intCast _).symm
      _ ≤ roundHalfEven (x / 2 ^ gridExponent x) := roundHalfEven_mono hlower
  · calc roundHalfEven (x / 2 ^ gridExponent x) ≤ roundHalfEven (2 ^ 53 : ℤ) :=
        roundHalfEven_mono hupper
      _ = 2 ^ 53 := roundHalfEven_intCast _

/-- On any grid but the finest a number is a multiple of at least 53 bits. -/
theorem le_roundHalfEven_grid {x : ℚ} (hx : 0 < x) (h : gridExponent x ≠ -1074) :
    2 ^ 52 ≤ roundHalfEven (x / 2 ^ gridExponent x) := by
  have hpos : (0 : ℚ) < 2 ^ gridExponent x := by positivity
  have hle : ((2 ^ 52 : ℤ) : ℚ) ≤ x / 2 ^ gridExponent x := by
    have := two_zpow_le_abs hx.ne' h
    rw [abs_of_pos hx, zpow_add₀ two_ne_zero, mul_comm] at this
    rw [le_div_iff₀ hpos]
    exact_mod_cast this
  calc (2 ^ 52 : ℤ) = roundHalfEven (2 ^ 52 : ℤ) := (roundHalfEven_intCast _).symm
    _ ≤ roundHalfEven (x / 2 ^ gridExponent x) := roundHalfEven_mono hle

/-- A number less than half a step above one of exactly 53 bits is rounded down to it. -/
theorem nearest_add_of_lt_half {k e : ℤ} (hlead : 2 ^ 52 ≤ k) (hlt : k < 2 ^ 53)
    (he : -1074 ≤ e) {d : ℚ} (hd : 0 ≤ d) (hhalf : d < 2 ^ (e - 1)) :
    nearest (k * 2 ^ e + d) = k * 2 ^ e := by
  have hpos : (0 : ℚ) < 2 ^ e := by positivity
  have hstep : d < 1 / 2 * 2 ^ e := by
    rwa [zpow_sub_one₀ two_ne_zero, mul_comm, inv_eq_one_div] at hhalf
  have hk : (2 : ℚ) ^ 52 ≤ k := by exact_mod_cast hlead
  have hk' : (k : ℚ) + 1 ≤ 2 ^ 53 := by exact_mod_cast hlt
  have hx : 0 < k * 2 ^ e + d := by positivity
  -- The leading bit of `k` is bit 52, and what is added does not carry into another.
  have hgrid : gridExponent (k * 2 ^ e + d) = e := by
    apply gridExponent_eq he _ (Or.inr _) hx.ne'
    · rw [abs_of_pos hx, zpow_add₀ two_ne_zero]
      calc k * 2 ^ e + d < (k + 1) * 2 ^ e := by linarith
        _ ≤ 2 ^ (53 : ℤ) * 2 ^ e := mul_le_mul_of_nonneg_right (by exact_mod_cast hk') hpos.le
        _ = 2 ^ e * 2 ^ (53 : ℤ) := mul_comm _ _
    · rw [abs_of_pos hx, zpow_add₀ two_ne_zero]
      calc (2 : ℚ) ^ e * 2 ^ (52 : ℤ) = 2 ^ (52 : ℤ) * 2 ^ e := mul_comm _ _
        _ ≤ k * 2 ^ e := mul_le_mul_of_nonneg_right (by exact_mod_cast hk) hpos.le
        _ ≤ k * 2 ^ e + d := by linarith
  have hround : roundHalfEven ((k * 2 ^ e + d) / 2 ^ e) = k := by
    apply IsNearest.roundHalfEven_eq
    have hsub : (k * 2 ^ e + d) / 2 ^ e - k = d / 2 ^ e := by
      rw [add_div, mul_div_cancel_right₀ _ hpos.ne']
      ring
    rw [IsNearest, hsub, abs_of_nonneg (by positivity), div_lt_iff₀ hpos]
    exact Or.inl hstep
  rw [nearest, hgrid, hround]

/-! ## Rounding keeps the order -/

/-- A number of the grid that is not above `x` is not above what `x` is rounded to. -/
theorem le_nearest_of_grid {x : ℚ} {k : ℤ} (h : k * 2 ^ gridExponent x ≤ x) :
    k * 2 ^ gridExponent x ≤ nearest x := by
  have hpos : (0 : ℚ) < 2 ^ gridExponent x := by positivity
  have hk : k ≤ roundHalfEven (x / 2 ^ gridExponent x) := by
    calc k = roundHalfEven k := (roundHalfEven_intCast k).symm
      _ ≤ roundHalfEven (x / 2 ^ gridExponent x) :=
        roundHalfEven_mono ((le_div_iff₀ hpos).mpr h)
  exact mul_le_mul_of_nonneg_right (by exact_mod_cast hk) hpos.le

/-- A number of the grid that is not below `x` is not below what `x` is rounded to. -/
theorem nearest_le_of_grid {x : ℚ} {k : ℤ} (h : x ≤ k * 2 ^ gridExponent x) :
    nearest x ≤ k * 2 ^ gridExponent x := by
  -- This is the lemma before, mirrored at 0.
  have hneg := le_nearest_of_grid (x := -x) (k := -k) (by
    rw [gridExponent_neg]
    push_cast
    linarith)
  rw [gridExponent_neg, nearest_neg] at hneg
  push_cast at hneg
  linarith

/-- A number that is not negative is not rounded below 0. -/
theorem nearest_nonneg {x : ℚ} (h : 0 ≤ x) : 0 ≤ nearest x := by
  simpa using le_nearest_of_grid (x := x) (k := 0) (by simpa using h)

/-- A larger positive number has no finer grid. -/
theorem gridExponent_mono {x y : ℚ} (hx : 0 < x) (h : x ≤ y) :
    gridExponent x ≤ gridExponent y := by
  have hlog : Int.log 2 |x| ≤ Int.log 2 |y| := by
    apply Int.log_mono_right (abs_pos.mpr hx.ne')
    rwa [abs_of_pos hx, abs_of_pos (hx.trans_le h)]
  unfold gridExponent
  omega

/-- Rounding keeps the order of positive numbers. -/
theorem nearest_mono_of_pos {x y : ℚ} (hx : 0 < x) (h : x ≤ y) : nearest x ≤ nearest y := by
  obtain hlt | heq := (gridExponent_mono hx h).lt_or_eq
  · -- A power of two that is on both grids stands between the two numbers.
    have hpower : x ≤ 2 ^ (gridExponent y + 52) := by
      calc x = |x| := (abs_of_pos hx).symm
        _ ≤ 2 ^ (gridExponent x + 53) := (abs_lt_two_zpow x).le
        _ ≤ 2 ^ (gridExponent y + 52) := zpow_le_zpow_right₀ one_le_two (by omega)
    have hy : 2 ^ (gridExponent y + 52) ≤ y := by
      have hcoarse : gridExponent y ≠ -1074 := by
        have := neg_le_gridExponent x
        omega
      calc (2 : ℚ) ^ (gridExponent y + 52) ≤ |y| :=
            two_zpow_le_abs (hx.trans_le h).ne' hcoarse
        _ = y := abs_of_pos (hx.trans_le h)
    obtain ⟨m, hm⟩ := exists_mul_two_zpow 1 (show gridExponent x ≤ gridExponent y + 52 by omega)
    obtain ⟨n, hn⟩ := exists_mul_two_zpow 1 (show gridExponent y ≤ gridExponent y + 52 by omega)
    rw [Int.cast_one, one_mul] at hm hn
    calc nearest x ≤ m * 2 ^ gridExponent x := nearest_le_of_grid (hm ▸ hpower)
      _ = n * 2 ^ gridExponent y := hm.symm.trans hn
      _ ≤ nearest y := le_nearest_of_grid (hn ▸ hy)
  · have hpos : (0 : ℚ) < 2 ^ gridExponent y := by positivity
    have hround : roundHalfEven (x / 2 ^ gridExponent y) ≤
        roundHalfEven (y / 2 ^ gridExponent y) :=
      roundHalfEven_mono (div_le_div_of_nonneg_right h hpos.le)
    unfold nearest
    rw [heq]
    exact mul_le_mul_of_nonneg_right (by exact_mod_cast hround) hpos.le

/-- Rounding keeps the order. -/
theorem nearest_mono {x y : ℚ} (h : x ≤ y) : nearest x ≤ nearest y := by
  obtain hx | hx := lt_or_ge 0 x
  · exact nearest_mono_of_pos hx h
  -- Two negative numbers are mirrored, and any others have 0 between them.
  obtain hy | hy := lt_or_ge y 0
  · have hneg := nearest_mono_of_pos (neg_pos.mpr hy) (neg_le_neg h)
    rw [nearest_neg, nearest_neg] at hneg
    exact neg_le_neg_iff.mp hneg
  · calc nearest x = -nearest (-x) := by rw [nearest_neg, neg_neg]
      _ ≤ 0 := neg_nonpos.mpr (nearest_nonneg (neg_nonneg.mpr hx))
      _ ≤ nearest y := nearest_nonneg hy

/-- A number from 1 up is not rounded below 1. -/
theorem one_le_nearest {x : ℚ} (h : 1 ≤ x) : 1 ≤ nearest x := by
  rw [← representable_one.nearest_eq]
  exact nearest_mono h

/-- A positive multiple of the finest grid is not rounded to 0. -/
theorem nearest_pos {k : ℤ} (hk : 0 < k) : 0 < nearest (k * 2 ^ (-1074 : ℤ)) := by
  have hpos : (0 : ℚ) < 2 ^ (-1074 : ℤ) := zpow_pos two_pos _
  have hleast : Representable (2 ^ (-1074 : ℤ)) := ⟨1, -1074, by norm_num, le_rfl, by simp⟩
  have hle : (2 : ℚ) ^ (-1074 : ℤ) ≤ k * 2 ^ (-1074 : ℤ) :=
    le_mul_of_one_le_left hpos.le (by exact_mod_cast hk)
  calc (0 : ℚ) < 2 ^ (-1074 : ℤ) := hpos
    _ = nearest (2 ^ (-1074 : ℤ)) := hleast.nearest_eq.symm
    _ ≤ nearest (k * 2 ^ (-1074 : ℤ)) := nearest_mono hle

/-- Of the multiples of the finest grid only 0 is rounded to 0. -/
theorem eq_zero_of_nearest {k : ℤ} (h : nearest (k * 2 ^ (-1074 : ℤ)) = 0) : k = 0 := by
  obtain hneg | hzero | hpos := lt_trichotomy k 0
  · have := nearest_pos (neg_pos.mpr hneg)
    rw [Int.cast_neg, neg_mul, nearest_neg, h, neg_zero] at this
    exact absurd this (lt_irrefl 0)
  · exact hzero
  · exact absurd h (nearest_pos hpos).ne'

/-- Rounding moves a number by at most half a step of its grid. -/
theorem abs_sub_nearest_le (x : ℚ) : |x - nearest x| ≤ 1 / 2 * 2 ^ gridExponent x := by
  have hpos : (0 : ℚ) < 2 ^ gridExponent x := by positivity
  have hhalf := (isNearest_roundHalfEven (x / 2 ^ gridExponent x)).abs_sub_le
  have hscale : x - nearest x =
      (x / 2 ^ gridExponent x - roundHalfEven (x / 2 ^ gridExponent x)) * 2 ^ gridExponent x := by
    rw [sub_mul, div_mul_cancel₀ _ hpos.ne']
    rfl
  rw [hscale, abs_mul, abs_of_pos hpos]
  exact mul_le_mul_of_nonneg_right hhalf hpos.le

/-- A number below `2 ^ 53` is moved by at most one half. -/
theorem abs_sub_nearest_le_half {x : ℚ} (h : |x| < 2 ^ 53) : |x - nearest x| ≤ 1 / 2 := by
  obtain rfl | hx := eq_or_ne x 0
  · norm_num
  have hlog : Int.log 2 |x| < 53 :=
    (Int.lt_zpow_iff_log_lt Nat.one_lt_two (abs_pos.mpr hx)).mp (by exact_mod_cast h)
  have hgrid : gridExponent x ≤ 0 := by
    unfold gridExponent
    omega
  calc |x - nearest x| ≤ 1 / 2 * 2 ^ gridExponent x := abs_sub_nearest_le x
    _ ≤ 1 / 2 * 2 ^ (0 : ℤ) := by
      gcongr
      exact one_le_two
    _ = 1 / 2 := by norm_num

/-- Rounding does not leave an interval around 0 whose ends can be held. -/
theorem abs_nearest_le {x y : ℚ} (hy : Representable y) (h : |x| ≤ y) : |nearest x| ≤ y := by
  obtain ⟨hlower, hupper⟩ := abs_le.mp h
  rw [abs_le]
  constructor
  · calc -y = nearest (-y) := by rw [nearest_neg, hy.nearest_eq]
      _ ≤ nearest x := nearest_mono hlower
  · calc nearest x ≤ nearest y := nearest_mono hupper
      _ = y := hy.nearest_eq

end DiceOdds.Binary64
