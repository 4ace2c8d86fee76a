import DiceOdds.Distribution.Lookup
import DiceOdds.Distribution.Mean
import DiceOdds.Proofs.Law.Table

/-!
# Numbers read off a table

The mean of a table is the mean of its law, and the probability looked up for a value is the one
that the law gives it. Both go by the outcomes of the slots; the lookup finds the slot from the
distance to the constant, which in exact arithmetic is one more than the slot's number.
-/

namespace DiceOdds.Distribution

open Finset Arithmetic

/-- The weighted sum of a table goes over its slots. -/
theorem weightedSum_eq_sum (d : Distribution ℚ) :
    d.weightedSum = ∑ i ∈ range d.size, d.outcome i * slotWeight d.weights i := by
  unfold weightedSum
  rw [sum_eq_sum_slotWeight]
  have hsize : (d.outcomes.map fun (v, w) => v * w).size = d.size := by
    rw [Array.size_map, outcomes, Array.size_mapIdx, size]
  rw [hsize]
  refine sum_congr rfl fun i hi => ?_
  have hi' : i < d.size := mem_range.1 hi
  rw [slotWeight_of_lt (hsize.symm ▸ hi'), slotWeight_of_lt hi', Array.getElem_map]
  simp only [outcomes, Array.getElem_mapIdx]
  rfl

/-- The mean of a distribution is the mean of its law, for certain. -/
theorem mean_eq_ok {d x : Distribution ℚ} (h : d.mean = .ok x) : x = certain d.law.mean := by
  unfold mean at h
  cases hd : d.isCertain with
  | true =>
    rw [hd, if_pos rfl] at h
    obtain rfl : d = x := Except.ok.inj h
    rw [law_of_isCertain hd, Law.mean_point, certain, ← Array.isEmpty_iff.1 hd]
  | false =>
    rw [hd, if_neg (by decide)] at h
    cases hn : d.normalizer with
    | error => rw [hn] at h; cases h
    | ok total =>
      rw [hn] at h
      obtain ⟨-, rfl⟩ := normalizer_eq_ok_iff.1 hn
      rw [← Except.ok.inj h, law_of_isUncertain hd, Law.mean_sum, weightedSum_eq_sum, sum_div]
      unfold share
      simp only [mul_div_assoc]

/-- A value has a slot if its distance to the constant is one more than the slot's number. -/
theorem outcome_eq_iff (d : Distribution ℚ) (i : ℕ) (v : ℚ) :
    d.outcome i = v ↔ v - d.constant = ((i + 1 : ℕ) : ℤ) := by
  rw [outcome_rat]
  push_cast
  constructor
  · intro h
    rw [← h]
    ring
  · intro h
    rw [← h]
    ring

/-- The values that pass the checks of the lookup are the outcomes of the slots. -/
theorem lookup_checks_iff (d : Distribution ℚ) (v : ℚ) :
    0 < v - d.constant ∧ v ≤ d.maxValue ∧ isWhole (v - d.constant) = true ↔
      ∃ i < d.size, d.outcome i = v := by
  have hmax : d.maxValue = (d.size : ℚ) + d.constant := rfl
  rw [isWhole_rat_iff, hmax]
  simp only [outcome_eq_iff]
  constructor
  · rintro ⟨hpos, hle, z, hz⟩
    have hz0 : (0 : ℤ) < z := by exact_mod_cast hz ▸ hpos
    have hzn : z ≤ (d.size : ℤ) := by
      have : (z : ℚ) ≤ d.size := by linarith
      exact_mod_cast this
    refine ⟨(z - 1).toNat, by omega, ?_⟩
    rw [hz, show (((z - 1).toNat + 1 : ℕ) : ℤ) = z by omega]
  · rintro ⟨i, hi, hv⟩
    have hpos : (0 : ℚ) < ((i + 1 : ℕ) : ℤ) := by exact_mod_cast Nat.succ_pos i
    have hle : (((i + 1 : ℕ) : ℤ) : ℚ) ≤ d.size := by exact_mod_cast hi
    exact ⟨hv ▸ hpos, by linarith, _, hv⟩

/-- A slot is found from the distance of its outcome. -/
theorem toWord_outcome [Memory] {d : Distribution ℚ} (hcap : d.size ≤ tableCapacity) {i : ℕ}
    (hi : i < d.size) : toWord (d.outcome i - d.constant) - 1 = i := by
  have hword : tableCapacity ≤ wordMax := tableCapacity_lt_wordMax.le
  rw [(outcome_eq_iff d i _).1 rfl, Int.cast_natCast, toWord_natCast (by omega),
    Nat.add_sub_cancel]

/-- The probability looked up for a value is the one that the law gives it. -/
theorem probabilityOf_eq_ok [Memory] {d : Distribution ℚ} (hcap : d.size ≤ tableCapacity) {v p : ℚ}
    (h : d.probabilityOf v = .ok p) : p = d.law v := by
  cases hd : d.isCertain with
  | true =>
    unfold probabilityOf at h
    rw [hd, if_pos rfl] at h
    rw [← Except.ok.inj h, law_of_isCertain hd, Law.point, Finsupp.single_apply]
    by_cases hv : v = d.constant
    · rw [if_pos hv.symm, hv, if_pos (beq_self_eq_true _)]
      exact Nat.cast_one
    · rw [if_neg (Ne.symm hv), if_neg (by rw [beq_iff_eq]; exact hv)]
      exact Nat.cast_zero
  | false =>
    simp only [probabilityOf_of_isUncertain hd, ofNat_rat, Nat.cast_zero, lookup_checks_iff] at h
    by_cases hv : ∃ i < d.size, d.outcome i = v
    · rw [if_pos hv] at h
      obtain ⟨i, hi, rfl⟩ := hv
      cases hn : d.normalizer with
      | error => rw [hn] at h; cases h
      | ok total =>
        obtain ⟨-, rfl⟩ := normalizer_eq_ok_iff.1 hn
        have hget : d.weightAt i = .ok (slotWeight d.weights i) := by
          rw [slotWeight_of_lt hi, weightAt, Array.getElem?_eq_getElem hi]
        rw [hn, toWord_outcome hcap hi, hget] at h
        rw [← Except.ok.inj h, law_outcome hd hi]
        rfl
    · rw [if_neg hv] at h
      rw [← Except.ok.inj h, law_eq_zero hd fun i hi hout => hv ⟨i, hi, hout⟩]

end DiceOdds.Distribution
