import Mathlib.Algebra.Order.Archimedean.Basic
import DiceOdds.Proofs.Binary64.Division

/-!
# Sums of doubles that are not negative

A rounded sum of numbers that are not negative is no smaller than any of them, because rounding
keeps the order and leaves a double as it is. Nor does it ever exceed `2 ^ 54` times a power of two
that bounds the numbers: at that height the next number is lost in rounding. So sums neither vanish
nor overflow, however long they are (`exists_hasValue_foldl`), and one of the numbers is not too
small a part of their sum (`Balanced.exists_share`).
-/

namespace DiceOdds.Binary64

open Arithmetic

/-- Whether `x` stands for a number from `lo` to `hi`. -/
def Between (lo hi : ℚ) (x : Float) : Prop := ∃ q, HasValue x q ∧ lo ≤ q ∧ q ≤ hi

/-- Rounding does not leave bounds that are doubles. -/
theorem nearest_mem {q lo hi : ℚ} (hlo : Representable lo) (hhi : Representable hi) (hq : lo ≤ q)
    (hq' : q ≤ hi) : lo ≤ nearest q ∧ nearest q ≤ hi := by
  rw [← hlo.nearest_eq, ← hhi.nearest_eq]
  exact ⟨nearest_mono hq, nearest_mono hq'⟩

/-- A power of two can be held. -/
theorem representable_two_zpow {j : ℤ} (hj : -1074 ≤ j) : Representable (2 ^ j) :=
  ⟨1, j, by norm_num, hj, by simp⟩

/-- Rounding leaves a power of two as it is. -/
theorem nearest_two_pow (n : ℕ) : nearest (2 ^ n) = 2 ^ n := by
  have hrep : Representable (2 ^ (n : ℤ)) := representable_two_zpow (by omega)
  rw [zpow_natCast] at hrep
  exact hrep.nearest_eq

/-- A number that is not negative does not overflow if it is no larger than some double. -/
theorem abs_nearest_lt_of_representable {q hi : ℚ} (hq : 0 ≤ q) (hle : q ≤ hi)
    (hhi : Representable hi) (hfit : hi < 2 ^ (1024 : ℤ)) : |nearest q| < 2 ^ (1024 : ℤ) := by
  rw [abs_of_nonneg (nearest_nonneg hq)]
  exact ((nearest_mono hle).trans_eq hhi.nearest_eq).trans_lt hfit

/-- A product of numbers up to 1 is at least the product of their lower bounds. -/
theorem Between.mul {x y : Float} {p q : ℚ} (hx : Between p 1 x) (hy : Between q 1 y) (hp : 0 ≤ p)
    (hq : 0 ≤ q) (hpq : Representable (p * q)) : Between (p * q) 1 (x * y) := by
  obtain ⟨u, hu, hpu, hu1⟩ := hx
  obtain ⟨v, hv, hqv, hv1⟩ := hy
  have hlo : p * q ≤ u * v := mul_le_mul hpu hqv hq (hp.trans hpu)
  have hhi : u * v ≤ 1 := mul_le_one₀ hu1 (hq.trans hqv) hv1
  have hfit : |nearest (u * v)| < 2 ^ (1024 : ℤ) :=
    abs_nearest_lt_of_representable ((mul_nonneg hp hq).trans hlo) hhi representable_one
      (one_lt_zpow₀ one_lt_two (by norm_num))
  obtain ⟨hlo', hhi'⟩ := nearest_mem hpq representable_one hlo hhi
  exact ⟨_, hu.mul hv hfit, hlo', hhi'⟩

/-- A product of numbers from 1 up that are not large is not large. -/
theorem Between.mul_of_one_le {x y : Float} {p q : ℚ} (hp : p ≤ 2 ^ 66) (hq : q ≤ 2 ^ 66)
    (hx : Between 1 p x) (hy : Between 1 q y) :
    ∃ r, HasValue (x * y) r ∧ 1 ≤ r ∧ r ≤ nearest (p * q) := by
  obtain ⟨u, hu, hu1, hup⟩ := hx
  obtain ⟨v, hv, hv1, hvq⟩ := hy
  have hone : 1 ≤ u * v := one_le_mul_of_one_le_of_one_le hu1 hv1
  have hle : u * v ≤ p * q := mul_le_mul hup hvq (zero_le_one.trans hv1) (by linarith)
  have hlarge : p * q ≤ 2 ^ (132 : ℤ) := by
    calc p * q ≤ 2 ^ 66 * 2 ^ 66 := mul_le_mul hp hq (by linarith) (by positivity)
      _ = 2 ^ (132 : ℤ) := by norm_num
  have hrep : Representable (2 ^ (132 : ℤ)) := representable_two_zpow (by norm_num)
  have hfit : |nearest (u * v)| < 2 ^ (1024 : ℤ) :=
    abs_nearest_lt_of_representable (zero_le_one.trans hone) (hle.trans hlarge) hrep
      (zpow_lt_zpow_right₀ one_lt_two (by norm_num))
  exact ⟨_, hu.mul hv hfit, (nearest_mem representable_one hrep hone (hle.trans hlarge)).1,
    nearest_mono hle⟩

/-! ## Sums -/

/-- A rounded sum is no smaller than its summands. -/
theorem HasValue.add_of_nonneg {x y : Float} {p q hi : ℚ} (hx : HasValue x p) (hy : HasValue y q)
    (hp : 0 ≤ p) (hq : 0 ≤ q) (hle : nearest (p + q) ≤ hi) (hfit : hi < 2 ^ (1024 : ℤ)) :
    ∃ s, HasValue (x + y) s ∧ p ≤ s ∧ q ≤ s ∧ s ≤ hi := by
  have hsum : |nearest (p + q)| < 2 ^ (1024 : ℤ) := by
    rw [abs_of_nonneg (nearest_nonneg (add_nonneg hp hq))]
    exact hle.trans_lt hfit
  refine ⟨_, hx.add hy hsum, ?_, ?_, hle⟩
  · calc p = nearest p := hx.nearest_eq.symm
      _ ≤ nearest (p + q) := nearest_mono (by linarith)
  · calc q = nearest q := hy.nearest_eq.symm
      _ ≤ nearest (p + q) := nearest_mono (by linarith)

/-- A number up to `2 ^ j` does not take a sum above `2 ^ (j + 54)`: it is less than half a step
there. -/
theorem nearest_add_le {p q : ℚ} {j : ℤ} (hj : -1074 ≤ j) (hp : p ≤ 2 ^ (j + 54))
    (hq : q ≤ 2 ^ j) : nearest (p + q) ≤ 2 ^ (j + 54) := by
  have hpower : (2 : ℚ) ^ (j + 54) = ((2 ^ 52 : ℤ) : ℚ) * 2 ^ (j + 2) := by
    rw [show j + 54 = 52 + (j + 2) by ring, zpow_add₀ two_ne_zero]
    norm_num
  have hhalf : (2 : ℚ) ^ j < 2 ^ (j + 2 - 1) := zpow_lt_zpow_right₀ one_lt_two (by omega)
  calc nearest (p + q) ≤ nearest (2 ^ (j + 54) + 2 ^ j) := nearest_mono (add_le_add hp hq)
    _ = 2 ^ (j + 54) := by
      rw [hpower]
      exact nearest_add_of_lt_half (by norm_num) (by norm_num) (by omega) (by positivity) hhalf

/-- A rounded sum is no smaller than any of its summands, and no larger than `2 ^ 54` times a power
of two that bounds each. -/
theorem exists_hasValue_foldl {j : ℤ} (hj : -1074 ≤ j) (hj' : j ≤ 54) (l : List Float)
    (hl : ∀ x ∈ l, Between 0 (2 ^ j) x) {acc : Float} {p : ℚ} (hacc : HasValue acc p)
    (hp : 0 ≤ p) (hle : p ≤ 2 ^ (j + 54)) :
    ∃ s, HasValue (l.foldl (· + ·) acc) s ∧ p ≤ s ∧ s ≤ 2 ^ (j + 54) ∧
      ∀ x ∈ l, ∀ q, HasValue x q → q ≤ s := by
  induction l generalizing acc p with
  | nil => exact ⟨p, hacc, le_rfl, hle, fun x hx => (List.not_mem_nil hx).elim⟩
  | cons x l ih =>
    obtain ⟨q, hx, hq, hqj⟩ := hl x List.mem_cons_self
    have hfit : (2 : ℚ) ^ (j + 54) < 2 ^ (1024 : ℤ) := zpow_lt_zpow_right₀ one_lt_two (by omega)
    obtain ⟨u, hu, hpu, hqu, hule⟩ :=
      hacc.add_of_nonneg hx hp hq (nearest_add_le hj hle hqj) hfit
    obtain ⟨s, hs, hus, hsle, hbound⟩ :=
      ih (fun y hy => hl y (List.mem_cons_of_mem x hy)) hu (hp.trans hpu) hule
    refine ⟨s, hs, hpu.trans hus, hsle, fun y hy v hv => ?_⟩
    obtain rfl | hy := List.mem_cons.mp hy
    · rw [← hv.value_eq, hx.value_eq]
      exact hqu.trans hus
    · exact hbound y hy v hv

/-- The number that sums start from stands for 0. -/
theorem hasValue_emptySum : HasValue (emptySum : Float) 0 := by
  have hvalue : value (emptySum : Float) = 0 := by decide +kernel
  rw [← hvalue]
  exact hasValue_value (by decide +kernel)

/-- A rounded sum of weights is no smaller than any of them, and no larger than `2 ^ 54` times a
power of two that bounds each. -/
theorem exists_hasValue_sum {weights : Array Float} {j : ℤ} (hj : -1074 ≤ j) (hj' : j ≤ 54)
    (hweights : ∀ w ∈ weights, Between 0 (2 ^ j) w) :
    ∃ t, HasValue (sum weights) t ∧ t ≤ 2 ^ (j + 54) ∧
      ∀ w ∈ weights, ∀ q, HasValue w q → q ≤ t := by
  have hsum : sum weights = weights.toList.foldl (· + ·) emptySum := by
    rw [Array.foldl_toList]
    rfl
  obtain ⟨t, ht, -, hle, hbound⟩ := exists_hasValue_foldl hj hj' weights.toList
    (fun w hw => hweights w (Array.mem_toList_iff.mp hw)) hasValue_emptySum le_rfl (by positivity)
  exact ⟨t, hsum ▸ ht, hle, fun w hw => hbound w (Array.mem_toList_iff.mpr hw)⟩

/-! ## Shares -/

/-- Whether no weight is negative or above `2 ^ 54`, and one is at least `2 ^ -110`. -/
structure Balanced (weights : Array Float) : Prop where
  /-- No weight is negative or large. -/
  between : ∀ w ∈ weights, Between 0 (2 ^ (54 : ℤ)) w
  /-- Some weight is not small. -/
  exists_heavy : ∃ w ∈ weights, Between (2 ^ (-110 : ℤ)) (2 ^ (54 : ℤ)) w

namespace Balanced

variable {weights : Array Float} (h : Balanced weights)

include h

/-- Balanced weights have a positive sum. -/
theorem exists_sum : ∃ t, HasValue (sum weights) t ∧ 2 ^ (-110 : ℤ) ≤ t ∧ t ≤ 2 ^ (108 : ℤ) ∧
    ∀ w ∈ weights, ∀ q, HasValue w q → q ≤ t := by
  obtain ⟨t, ht, hle, hbound⟩ := exists_hasValue_sum (j := 54) (by norm_num) le_rfl h.between
  obtain ⟨w, hw, q, hq, hlow, -⟩ := h.exists_heavy
  exact ⟨t, ht, hlow.trans (hbound w hw q hq), hle, hbound⟩

/-- Balanced weights can be normalized. -/
theorem isPositiveFinite_sum : isPositiveFinite (sum weights) = true := by
  obtain ⟨t, ht, hlow, -, -⟩ := h.exists_sum
  have hzero : HasValue (ofNat 0 : Float) ((0 : ℕ) : ℚ) := hasValue_ofNat_of_le (by norm_num)
  have hpos : (0 : ℚ) < t := lt_of_lt_of_le (by positivity) hlow
  rw [isPositiveFinite, Bool.and_eq_true]
  exact ⟨decide_eq_true ((hzero.lt_iff ht).mpr (by simpa using hpos)), ht.isFinite⟩

/-- The share of a balanced weight is at most 1, and at least what its weight makes of the sum. -/
theorem between_share {w : Float} (hw : w ∈ weights) {q t lo : ℚ} (hq : HasValue w q)
    (ht : HasValue (sum weights) t) (hlo : 0 ≤ lo) (hrep : Representable lo) (hle : lo * t ≤ q) :
    Between lo 1 (w / sum weights) := by
  obtain ⟨t', ht', hlow, -, hbound⟩ := h.exists_sum
  obtain rfl : t' = t := ht'.value_eq.symm.trans ht.value_eq
  have htpos : 0 < t' := lt_of_lt_of_le (by positivity) hlow
  have hloq : lo ≤ q / t' := (le_div_iff₀ htpos).mpr hle
  have hle1 : q / t' ≤ 1 := (div_le_one htpos).mpr (hbound w hw q hq)
  have hfit : |nearest (q / t')| < 2 ^ (1024 : ℤ) :=
    abs_nearest_lt_of_representable (hlo.trans hloq) hle1 representable_one
      (one_lt_zpow₀ one_lt_two (by norm_num))
  obtain ⟨hlow', hhigh'⟩ := nearest_mem hrep representable_one hloq hle1
  exact ⟨_, hq.div ht htpos.ne' hfit, hlow', hhigh'⟩

/-- No share is negative or above 1. -/
theorem between_zero_one {w : Float} (hw : w ∈ weights) : Between 0 1 (w / sum weights) := by
  obtain ⟨t, ht, -, -, -⟩ := h.exists_sum
  obtain ⟨q, hq, hnonneg, -⟩ := h.between w hw
  have hzero : Representable 0 := by simpa using representable_natCast (n := 0) (by norm_num)
  exact h.between_share hw hq ht le_rfl hzero (by rwa [zero_mul])

/-- Some share is at least `2 ^ -55`. -/
theorem exists_share : ∃ w ∈ weights, Between (2 ^ (-55 : ℤ)) 1 (w / sum weights) := by
  obtain ⟨t, ht, hlow, hhigh, -⟩ := h.exists_sum
  have htpos : 0 < t := lt_of_lt_of_le (by positivity) hlow
  obtain ⟨m, hm, hm'⟩ := exists_mem_Ioc_zpow htpos (one_lt_two (α := ℚ))
  have hmlow : -110 ≤ m + 1 :=
    (zpow_le_zpow_iff_right₀ (one_lt_two (α := ℚ))).mp (hlow.trans hm')
  have hmhigh : m < 108 := (zpow_lt_zpow_iff_right₀ (one_lt_two (α := ℚ))).mp (hm.trans_le hhigh)
  -- If no weight were above one part in `2 ^ 54` of a power of two below the sum, nor would the sum
  -- be above that power.
  have hlarge : ∃ w ∈ weights, ∃ q, HasValue w q ∧ 2 ^ (m - 54) < q := by
    by_contra hsmall
    have hweights : ∀ w ∈ weights, Between 0 (2 ^ (m - 54)) w := by
      intro w hw
      obtain ⟨q, hq, hnonneg, -⟩ := h.between w hw
      exact ⟨q, hq, hnonneg, not_lt.mp fun hlt => hsmall ⟨w, hw, q, hq, hlt⟩⟩
    obtain ⟨u, hu, hle, -⟩ := exists_hasValue_sum (by omega) (by omega) hweights
    rw [← hu.value_eq, ht.value_eq, sub_add_cancel] at hle
    exact hle.not_gt hm
  obtain ⟨w, hw, q, hq, hlt⟩ := hlarge
  refine ⟨w, hw, h.between_share hw hq ht (by positivity) (representable_two_zpow (by norm_num)) ?_⟩
  calc 2 ^ (-55 : ℤ) * t ≤ 2 ^ (-55 : ℤ) * 2 ^ (m + 1) := by gcongr
    _ = 2 ^ (m - 54) := by
      rw [← zpow_add₀ two_ne_zero]
      congr 1
      omega
    _ ≤ q := hlt.le

end Balanced

end DiceOdds.Binary64
