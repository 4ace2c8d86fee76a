import DiceOdds.Evaluation.Operations
import DiceOdds.Proofs.Evaluation.StaticCertainty
import DiceOdds.Proofs.Law.Reduction
import DiceOdds.Proofs.Sampling.Scaling

/-!
# Distributions that differ in the unit of their weights

Weights are relative: two tables of the same outcomes mean the same if the weights of the one are
those of the other times a positive factor. In exact arithmetic no operation of an expression can
tell such distributions apart. What it reads off a table is the same for both, and so are its
draws; and where it hands a table on without normalizing it, the results differ by that factor
again (`Similar.add`, `Similar.roll`, `Similar.mean`).
-/

namespace DiceOdds

open Arithmetic

namespace Distribution

/-- Whether two distributions without negative weights have the same outcomes, and the weights of
the second are those of the first times some positive number. -/
structure Similar (d e : Distribution ℚ) : Prop where
  /-- The constants are the same. -/
  constant_eq : d.constant = e.constant
  /-- No weight is negative. -/
  weights_nonneg : NonnegWeights d.weights
  /-- The weights of the second are a multiple of those of the first. -/
  exists_scale : ∃ k : ℚ, 0 < k ∧ e.weights = d.weights.map (k * ·)

namespace Similar

variable {d d' e e' x : Distribution ℚ}

/-- A distribution without negative weights is similar to itself. -/
theorem refl (h : NonnegWeights d.weights) : d.Similar d := by
  refine ⟨rfl, h, 1, one_pos, ?_⟩
  simp only [one_mul, Array.map_id']

/-- Numbers are similar if they are the same. -/
theorem certain (v : ℚ) : (certain v).Similar (certain v) := refl .empty

section Shape

variable (h : d.Similar d')

include h

/-- Similarity goes both ways. -/
theorem symm : d'.Similar d := by
  obtain ⟨k, hk, hweights⟩ := h.exists_scale
  refine ⟨h.constant_eq.symm, ?_, k⁻¹, inv_pos.mpr hk, ?_⟩
  · intro w hw
    rw [hweights] at hw
    obtain ⟨v, hv, rfl⟩ := Array.mem_map.mp hw
    exact mul_nonneg hk.le (h.weights_nonneg v hv)
  · rw [hweights, Array.map_map]
    simp only [Function.comp_def, inv_mul_cancel_left₀ hk.ne', Array.map_id']

/-- There are as many slots in both. -/
theorem size_eq : d.size = d'.size := by
  obtain ⟨k, -, hweights⟩ := h.exists_scale
  rw [size, size, hweights, Array.size_map]

/-- Both are a number or neither. -/
theorem isCertain_eq : d.isCertain = d'.isCertain := by
  rw [Bool.eq_iff_iff, isCertain_iff, isCertain_iff, h.size_eq]

/-- Both have a table or neither. -/
theorem isUncertain_eq : d.isUncertain = d'.isUncertain := by
  rw [isUncertain, isUncertain, h.isCertain_eq]

/-- Both have the same largest outcome. -/
theorem maxValue_eq : d.maxValue = d'.maxValue := by
  rw [maxValue, maxValue, h.size_eq, h.constant_eq]

/-- Both have the same outcome in a slot. -/
theorem outcome_eq (i : ℕ) : d.outcome i = d'.outcome i := by
  rw [outcome, outcome, h.constant_eq]

/-- Numbers that are similar are the same. -/
theorem eq_of_isCertain (hd : d.isCertain = true) : d = d' := by
  have hd' := h.isCertain_eq.symm.trans hd
  obtain ⟨constant, weights⟩ := d
  obtain ⟨constant', weights'⟩ := d'
  obtain rfl : constant = constant' := h.constant_eq
  obtain rfl : weights = #[] := Array.isEmpty_iff.mp hd
  obtain rfl : weights' = #[] := Array.isEmpty_iff.mp hd'
  rfl

/-- No weight of the second is negative either. -/
theorem weights_nonneg' : NonnegWeights d'.weights := h.symm.weights_nonneg

/-- The normalized tables are the same. -/
theorem shares_eq : d.shares = d'.shares := by
  obtain ⟨k, hk, hweights⟩ := h.exists_scale
  have htotal : d'.totalWeight = k * d.totalWeight := by
    rw [totalWeight, hweights, sum_map_mul, totalWeight]
  rw [shares, shares, htotal, hweights, Array.map_map]
  simp only [Function.comp_def, mul_div_mul_left _ _ hk.ne']

/-- A slot has the same share in both. -/
theorem share_eq (i : ℕ) : d.share i = d'.share i := by
  rw [← slotWeight_shares, ← slotWeight_shares, h.shares_eq]

/-- Both have a total to divide by or neither. -/
theorem totalWeight_eq_zero_iff : d.totalWeight = 0 ↔ d'.totalWeight = 0 := by
  obtain ⟨k, hk, hweights⟩ := h.exists_scale
  have htotal : d'.totalWeight = k * d.totalWeight := by
    rw [totalWeight, hweights, sum_map_mul, totalWeight]
  rw [htotal, mul_eq_zero, or_iff_right hk.ne']

/-! ## What is read off a table -/

/-- Both can be normalized, each by its total, or neither. -/
theorem normalizer : d.normalizer.Agrees (fun t t' => t = d.totalWeight ∧ t' = d'.totalWeight)
    d'.normalizer := by
  rw [normalizer_of_nonneg h.weights_nonneg, normalizer_of_nonneg h.weights_nonneg']
  by_cases hzero : d.totalWeight = 0
  · rw [if_pos hzero, if_pos (h.totalWeight_eq_zero_iff.mp hzero)]
    rfl
  · rw [if_neg hzero, if_neg (mt h.totalWeight_eq_zero_iff.mpr hzero)]
    exact ⟨rfl, rfl⟩

/-- The outcomes have the same probabilities. -/
theorem normalizedOutcomes_eq : d.normalizedOutcomes = d'.normalizedOutcomes := by
  have hmap (d : Distribution ℚ) : (d.outcomes.map fun (v, w) => (v, w / d.totalWeight)) =
      d.shares.mapIdx fun i p => (d.outcome i, p) := by
    refine Array.ext (by simp [outcomes, shares]) fun i _ _ => ?_
    simp [outcomes, shares]
  unfold normalizedOutcomes
  rw [h.isCertain_eq, h.constant_eq]
  split
  · rfl
  · refine Except.Agrees.eq (h.normalizer.bind ?_)
    rintro _ _ ⟨rfl, rfl⟩
    show d.outcomes.map _ = d'.outcomes.map _
    rw [hmap, hmap, h.shares_eq]
    simp only [h.outcome_eq]

/-- A value has the same probability in both. -/
theorem probabilityOf_eq (v : ℚ) : d.probabilityOf v = d'.probabilityOf v := by
  have hslot (i : ℕ) : (d.weightAt i).map (· / d.totalWeight) =
      (d'.weightAt i).map (· / d'.totalWeight) := by
    have hsize := h.size_eq
    unfold weightAt
    obtain hi | hi := lt_or_ge i d.size
    · have hi' : i < d'.size := by omega
      rw [Array.getElem?_eq_getElem hi, Array.getElem?_eq_getElem hi', ← slotWeight_of_lt hi,
        ← slotWeight_of_lt hi']
      exact congrArg Except.ok (h.share_eq i)
    · have hi' : d'.size ≤ i := by omega
      rw [Array.getElem?_eq_none hi, Array.getElem?_eq_none hi', hsize]
      rfl
  cases hd : d.isCertain with
  | true => rw [h.eq_of_isCertain hd]
  | false =>
    rw [probabilityOf_of_isUncertain hd, probabilityOf_of_isUncertain (h.isCertain_eq ▸ hd),
      h.constant_eq, h.maxValue_eq]
    split
    · refine Except.Agrees.eq (h.normalizer.bind ?_)
      rintro _ _ ⟨rfl, rfl⟩
      rw [hslot]
      exact .refl fun _ _ => rfl
    · rfl

/-- Both have the same mean, if they have a table. -/
theorem mean : d.mean.Agrees Similar d'.mean := by
  have hmean (d : Distribution ℚ) : d.weightedSum / d.totalWeight =
      ∑ i ∈ Finset.range d.size, d.outcome i * d.share i := by
    rw [weightedSum_eq_sum, Finset.sum_div]
    exact Finset.sum_congr rfl fun i _ => mul_div_assoc _ _ _
  unfold Distribution.mean
  rw [h.isCertain_eq]
  split
  · exact h
  · refine h.normalizer.bind ?_
    rintro _ _ ⟨rfl, rfl⟩
    rw [hmean, hmean, h.size_eq]
    simp only [h.outcome_eq, h.share_eq]
    exact certain _

/-! ## Draws -/

/-- The same draws give the same outcome of both, and as many of them are taken. -/
theorem sample_eq : d.sample = d'.sample := by
  obtain ⟨k, hk, hweights⟩ := h.exists_scale
  unfold sample
  simp only [h.isCertain_eq, h.constant_eq, h.outcome_eq, hweights,
    sampleIndex_map_mul hk h.weights_nonneg]

/-- Both resolve to the same number. -/
theorem resolve_eq : d.resolve = d'.resolve := by rw [resolve, resolve, h.sample_eq]

/-- Both resolve to the same number of dice. -/
theorem diceCount_eq : d.diceCount = d'.diceCount := by rw [diceCount, diceCount, h.resolve_eq]

/-- Rolls of both are the same, if they have a table. -/
theorem roll : Rolling.Agrees Similar d.roll d'.roll := by
  cases hd : d.isCertain with
  | true =>
    intro r
    rw [roll_of_isCertain hd, roll_of_isCertain (h.isCertain_eq ▸ hd)]
    exact ⟨h, rfl⟩
  | false =>
    have heq : d.roll = d'.roll := by
      unfold Distribution.roll
      rw [← h.isCertain_eq, hd, h.resolve_eq]
      rfl
    rw [heq]
    exact .refl fun r r' x hx => refl (nonneg_of_isCertain (isCertain_roll hx))

/-- Means of both are the same, if they have a table. -/
theorem avg : Rolling.Agrees Similar d.avg d'.avg :=
  Rolling.agrees_ofExcept (h.mean.mapError _)

end Shape

section Operations

variable (hd : d.Similar d') (he : e.Similar e')

include hd he

/-- Both give the same probability to what both resolve to. -/
theorem prob : Rolling.Agrees Similar (d.prob e) (d'.prob e') := by
  have heq : d.prob e = d'.prob e' := by
    unfold Distribution.prob
    simp only [hd.resolve_eq, he.probabilityOf_eq]
  rw [heq]
  exact .refl fun r r' x hx => refl (nonneg_of_isCertain (isCertain_prob hx))

variable [Memory]

/-- Sums of both are similar. -/
theorem add : (d.add e).Agrees Similar (d'.add e') := by
  unfold Distribution.add
  simp only [hd.isUncertain_eq, he.isUncertain_eq, hd.constant_eq, he.constant_eq, hd.size_eq,
    he.size_eq]
  split
  · -- Of two tables the normalized ones are added, and those are the same.
    refine hd.normalizer.bind ?_
    rintro _ _ ⟨rfl, rfl⟩
    refine he.normalizer.bind ?_
    rintro _ _ ⟨rfl, rfl⟩
    split
    · rfl
    · show Similar ⟨_, convolution d.shares e.shares⟩ ⟨_, convolution d'.shares e'.shares⟩
      rw [hd.shares_eq, he.shares_eq]
      exact refl ((nonneg_shares hd.weights_nonneg').convolution (nonneg_shares he.weights_nonneg'))
  · show Similar ⟨_, if _ then _ else _⟩ ⟨_, if _ then _ else _⟩
    by_cases htable : d'.isUncertain = true
    · rw [if_pos htable, if_pos htable]
      exact ⟨rfl, hd.weights_nonneg, hd.exists_scale⟩
    · rw [if_neg htable, if_neg htable]
      exact ⟨rfl, he.weights_nonneg, he.exists_scale⟩

/-- Products of both are the same. -/
theorem times_eq : d.times e = d'.times e' := by
  unfold Distribution.times productBound
  simp only [hd.isCertain_eq, he.isCertain_eq, hd.constant_eq, he.constant_eq, hd.maxValue_eq,
    he.maxValue_eq, hd.normalizedOutcomes_eq, he.normalizedOutcomes_eq]

/-- A product is similar to itself. -/
theorem times : (d.times e).Agrees Similar (d'.times e') := by
  rw [times_eq hd he]
  exact .refl fun x hx => refl (nonneg_times hd.weights_nonneg' he.weights_nonneg' hx)

end Operations

end Similar

end Distribution

end DiceOdds
