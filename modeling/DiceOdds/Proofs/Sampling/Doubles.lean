import DiceOdds.Proofs.Binary64.Division
import DiceOdds.Proofs.Binary64.Overflow
import DiceOdds.Proofs.Sampling.Weighing

/-!
# Sampling with doubles

Doubles are arithmetic in the sense of `Weighing`: their results are the exact ones rounded to
nearest. So a sampler that runs on doubles never gives a slot without weight, whatever the
rounding did to the running sums.
-/

namespace DiceOdds

open Arithmetic Binary64

/-- A small number does not overflow. -/
theorem Binary64.abs_nearest_lt_of_mem {q b : ℚ} (hlower : 0 ≤ q) (hupper : q ≤ b)
    (hb : b ≤ 2 ^ (65 : ℤ)) : |nearest q| < 2 ^ (1024 : ℤ) :=
  abs_nearest_lt_of_le (by rw [abs_of_nonneg hlower]; exact hupper.trans hb)

/-- Doubles weigh the numbers they stand for, and round to the nearest ones. -/
theorem weighing_binary64 : Weighing HasValue nearest where
  round_mono := fun _ _ => nearest_mono
  round_eq hx := hx.nearest_eq
  eq_of_round_sub := by
    intro x y p q hx hy hzero
    obtain ⟨k, rfl⟩ := hx.exists_eq
    obtain ⟨l, rfl⟩ := hy.exists_eq
    rw [← sub_mul, ← Int.cast_sub] at hzero
    rw [sub_eq_zero.mp (eq_zero_of_nearest hzero)]
  isFinite_iff x := ⟨fun hx => ⟨value x, hasValue_value hx⟩, fun ⟨_, hx⟩ => hx.isFinite⟩
  ofNat hn := hasValue_ofNat_of_le (hn.trans (by norm_num))
  lt_iff hx hy := hx.lt_iff hy
  le_iff hx hy := hx.le_iff hy
  isFinite_of_add hsum := (isFinite_of_isFinite_add hsum).1
  add hx hy hsum := hx.add_of_isFinite hy hsum
  sub := by
    intro x y p q hx hy hq hle
    refine hx.sub hy (abs_nearest_lt ?_)
    have hmax := (le_abs_self p).trans hx.abs_le
    rw [abs_of_nonneg (sub_nonneg.mpr hle)]
    have : (0 : ℚ) < 2 ^ (65 : ℤ) := by positivity
    linarith
  div hx hy hp hle hq :=
    hx.div hy hq.ne' (abs_nearest_lt_of_mem (div_nonneg hp hq.le) ((div_le_one hq).mpr hle)
      (by norm_num))
  share := by
    intro x p hx hp hle
    have hdraws : HasValue (Float.ofNat (2 ^ 32)) ((2 ^ 32 : ℕ) : ℚ) :=
      hasValue_ofNat_of_le (by norm_num)
    rw [Nat.cast_pow, Nat.cast_ofNat] at hdraws
    exact hx.mul hdraws (abs_nearest_lt_of_mem (by positivity)
      (mul_le_mul_of_nonneg_right hle (by positivity)) (by norm_num))

/-- Of every table of finite weights that are not negative, whatever the draws: if the running
total is positive and finite, a slot with a positive weight is drawn, with fewer draws than the
table has slots. Otherwise the table is refused and no draw is taken. -/
theorem sampleIndex_weight_pos (weights : Array Float)
    (hweights : ∀ w ∈ weights, w.isFinite ∧ 0 ≤ w) (r : Roller) :
    let total := (RunningSums.ofWeights weights).total
    (0 < total ∧ total.isFinite →
      ∃ (i : ℕ) (hi : i < weights.size), ∃ n ≤ weights.size - 1,
        sampleIndex weights r = (.ok i, { r with taken := r.taken + n }) ∧ 0 < weights[i]) ∧
    (¬ (0 < total ∧ total.isFinite) →
      sampleIndex weights r = (.error (.zeroWeight total), r)) := by
  have hpos : isPositiveFinite (RunningSums.ofWeights weights).total = true ↔
      0 < (RunningSums.ofWeights weights).total ∧
        (RunningSums.ofWeights weights).total.isFinite := by
    rw [isPositiveFinite, Bool.and_eq_true]
    exact and_congr_left' decide_eq_true_iff
  refine ⟨fun h => ?_, fun h => ?_⟩
  · exact weighing_binary64.sampleIndex_eq_ok hweights (hpos.mpr h) r
  · exact sampleIndex_of_not_isPositiveFinite (mt hpos.mp h) r

/-- Between slots of weight 0, and with a weight that is lost in the sum because it is less than
half a step of the one before it, the largest draws still give a slot that weighs something. -/
theorem sampleIndex_weight_pos_absorbed :
    let weights : Array Float := #[0, 1152921504606846976, 1, 0]
    ∃ (i : ℕ) (hi : i < weights.size), ∃ n ≤ 3,
      sampleIndex weights (Roller.ofStream fun _ => 0xffffffff) =
        (.ok i, ⟨fun _ => 0xffffffff, 0 + n⟩) ∧ 0 < weights[i] :=
  (sampleIndex_weight_pos #[0, 1152921504606846976, 1, 0] (by decide +kernel)
    (Roller.ofStream fun _ => 0xffffffff)).1 (by decide +kernel)

end DiceOdds
