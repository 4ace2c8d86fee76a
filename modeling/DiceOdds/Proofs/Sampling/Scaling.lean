import DiceOdds.Proofs.Law.Nonneg
import DiceOdds.Proofs.Sampling.Frequency

/-!
# Sampling sees weights up to a factor

A bisection compares sums of weights with half of other such sums, and draws with their quotients.
In exact arithmetic a positive factor on all weights changes neither, so it changes no decision of
a run: the same draws lead to the same slot, and as many of them are taken
(`sampleIndex_map_mul`).
-/

namespace DiceOdds

open Arithmetic

variable {k : ℚ}

namespace RunningSums

variable {s t : RunningSums ℚ}

/-- Whether the sums of one table are those of another times `k`. -/
def Scaled (k : ℚ) (s t : RunningSums ℚ) : Prop := ∀ i, t.before i = k * s.before i

namespace Scaled

variable (h : Scaled k s t)

include h

/-- Sections are as many times heavier as sums are. -/
theorem sectionWeight (start stop : ℕ) :
    t.sectionWeight start stop = k * s.sectionWeight start stop := by
  simp only [RunningSums.sectionWeight, h start, h (stop + 1), mul_sub]

/-- A section of scaled weights is cut in the same place. -/
theorem divider (hk : 0 < k) (start stop : ℕ) (weight : ℚ) :
    t.divider start stop (k * weight) = s.divider start stop weight := by
  have hhalf (i : ℕ) : t.before (i + 1) - t.before start ≤ ofDecimal 5 1 * (k * weight) ↔
      s.before (i + 1) - s.before start ≤ ofDecimal 5 1 * weight := by
    rw [h, h, ← mul_sub, mul_left_comm, mul_le_mul_iff_right₀ hk]
  simp only [RunningSums.divider, hhalf]

/-- The same draws narrow a section of scaled weights to the same slot. -/
theorem narrow (hk : 0 < k) (start stop : ℕ) (weight : ℚ) (r : Roller) :
    t.narrow start stop (k * weight) r = s.narrow start stop weight r := by
  induction start, stop, weight using s.section_induction generalizing r with
  | slot start stop weight hlt => rw [t.narrow_of_not_lt _ hlt, s.narrow_of_not_lt _ hlt]
  | cut start stop weight hlt ih₁ ih₂ =>
    have hfirst : t.firstWeight start stop (k * weight) = k * s.firstWeight start stop weight := by
      simp only [firstWeight, h.divider hk, h.sectionWeight]
    have hsecond : t.secondWeight start stop (k * weight) =
        k * s.secondWeight start stop weight := by
      simp only [secondWeight, h.divider hk, h.sectionWeight]
    have hthreshold : threshold (k * s.firstWeight start stop weight) (k * weight) =
        threshold (s.firstWeight start stop weight) weight := by
      simp only [threshold, mul_div_mul_left _ _ hk.ne']
    rw [t.narrow_of_lt _ hlt, s.narrow_of_lt _ hlt, hfirst, hsecond, h.divider hk, hthreshold,
      ih₁, ih₂]

end Scaled

end RunningSums

/-! ## Tables -/

/-- The running sums of a scaled table are scaled. -/
theorem scaled_ofWeights (weights : Array ℚ) (k : ℚ) :
    RunningSums.Scaled k (.ofWeights weights) (.ofWeights (weights.map (k * ·))) := by
  intro i
  simp only [before_ofWeights_rat, slotWeight_map (mul_zero k), Finset.mul_sum]

/-- A scaled table weighs as many times more. -/
theorem sum_map_mul (weights : Array ℚ) (k : ℚ) :
    Arithmetic.sum (weights.map (k * ·)) = k * Arithmetic.sum weights := by
  simp only [sum_eq_sum_slotWeight, Array.size_map, slotWeight_map (mul_zero k), Finset.mul_sum]

/-- From scaled weights the same draws lead to the same slot, and as many of them are taken. -/
theorem sampleIndex_map_mul (hk : 0 < k) {weights : Array ℚ} (hweights : NonnegWeights weights) :
    sampleIndex (weights.map (k * ·)) = sampleIndex weights := by
  funext r
  have htotal : (RunningSums.ofWeights (weights.map (k * ·))).total =
      k * (RunningSums.ofWeights weights).total := by
    rw [total_ofWeights_rat, total_ofWeights_rat, sum_map_mul]
  by_cases hpos : 0 < (RunningSums.ofWeights weights).total
  · have hdiv : isPositiveFinite (RunningSums.ofWeights weights).total = true := by
      rw [isPositiveFinite_rat]
      exact decide_eq_true hpos
    have hdiv' : isPositiveFinite (RunningSums.ofWeights (weights.map (k * ·))).total = true := by
      rw [isPositiveFinite_rat, htotal]
      exact decide_eq_true (mul_pos hk hpos)
    rw [sampleIndex_of_isPositiveFinite hdiv, sampleIndex_of_isPositiveFinite hdiv']
    simp only [Array.size_map, htotal, (scaled_ofWeights weights k).narrow hk]
  · -- Without negative weights the total that cannot be divided by is 0, which no factor changes.
    have hzero : (RunningSums.ofWeights weights).total = 0 := by
      refine le_antisymm (not_lt.mp hpos) ?_
      rw [total_ofWeights_rat]
      exact hweights.sum_nonneg
    have hdiv : ¬ isPositiveFinite (RunningSums.ofWeights weights).total = true := by
      simp [hzero]
    have hdiv' : ¬ isPositiveFinite (RunningSums.ofWeights (weights.map (k * ·))).total = true := by
      simp [htotal, hzero]
    rw [sampleIndex_of_not_isPositiveFinite hdiv, sampleIndex_of_not_isPositiveFinite hdiv', htotal,
      hzero, mul_zero]

end DiceOdds
