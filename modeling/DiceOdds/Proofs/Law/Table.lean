import Mathlib.Algebra.BigOperators.Intervals
import Mathlib.Algebra.BigOperators.Field
import Mathlib.Algebra.BigOperators.Fin
import DiceOdds.Distribution.Lookup
import DiceOdds.Distribution.Mean
import DiceOdds.Proofs.Combination
import DiceOdds.Proofs.Exact
import DiceOdds.Proofs.Law.Basic

/-!
# The law of a table

Over exact arithmetic a table of weights with a positive total is a law: slot `i` gives the outcome
`constant + i + 1` the share `weight / total`. Adding distributions convolves their laws, the table
of `N` dice is the law of `N` dice, the mean of a table is the mean of its law, and the probability
looked up for a value is the one that the law gives it.

Slot `i` of a sum collects the pairs of slots whose numbers add up to `i - 1`, because both operands
count from one above their constants. That shift is settled once, in `convolutionAt_eq_sum`.
-/

namespace DiceOdds

open Finset Arithmetic

/-- The weight in slot `i`, or 0 past the end of the table. -/
def slotWeight (weights : Array ℚ) (i : ℕ) : ℚ := weights.getD i 0

/-- A slot of a table is read as its weight. -/
theorem slotWeight_of_lt {weights : Array ℚ} {i : ℕ} (h : i < weights.size) :
    slotWeight weights i = weights[i] := by
  rw [slotWeight, Array.getD_eq_getD_getElem?, Array.getElem?_eq_getElem h, Option.getD_some]

/-- There is no weight past the end of a table. -/
theorem slotWeight_of_le {weights : Array ℚ} {i : ℕ} (h : weights.size ≤ i) :
    slotWeight weights i = 0 := by
  rw [slotWeight, Array.getD_eq_getD_getElem?, Array.getElem?_eq_none h, Option.getD_none]

/-- Slots past the end of a table stay without weight when its weights are changed. -/
theorem slotWeight_map {f : ℚ → ℚ} (hf : f 0 = 0) (weights : Array ℚ) (i : ℕ) :
    slotWeight (weights.map f) i = f (slotWeight weights i) := by
  simp only [slotWeight, Array.getD_eq_getD_getElem?, Array.getElem?_map]
  cases weights[i]? with
  | none => exact hf.symm
  | some w => rfl

/-- A sum of weights adds up the slots. -/
theorem sum_eq_sum_slotWeight (weights : Array ℚ) :
    Arithmetic.sum weights = ∑ i ∈ range weights.size, slotWeight weights i := by
  have hlist : ∀ l : List ℚ, l.sum = ∑ i ∈ range l.length, l.getD i 0 := by
    intro l
    induction l with
    | nil => rfl
    | cons x l ih =>
      rw [List.sum_cons, List.length_cons, sum_range_succ', List.getD_cons_zero, add_comm, ih]
      rfl
  rw [sum_rat, hlist, Array.length_toList]
  refine sum_congr rfl fun i _ => ?_
  rw [slotWeight, Array.getD_eq_getD_getElem?, List.getD_eq_getElem?_getD, Array.getElem?_toList]

namespace Distribution

/-! ## Tables with weight -/

/-- What every distribution that is built within memory and from fair dice has: a positive total
weight if it has a table at all, and a table that fits in memory. -/
structure Sound [Memory] (d : Distribution ℚ) : Prop where
  /-- A table weighs something. -/
  weight : d.isCertain = false → 0 < d.totalWeight
  /-- A table fits in memory. -/
  size_le : d.size ≤ tableCapacity

/-- A certain distribution has no table to ask anything of. -/
theorem sound_certain [Memory] (x : ℚ) : (certain x).Sound :=
  ⟨fun h => (by cases h), Nat.zero_le _⟩

/-- The total of a table is what it is normalized by, if that is positive. -/
theorem normalizer_rat (d : Distribution ℚ) :
    d.normalizer =
      if 0 < d.totalWeight then .ok d.totalWeight else .error (.zeroWeight d.totalWeight) := by
  simp only [normalizer, isPositiveFinite_rat, decide_eq_true_eq]

/-- The weights that can be normalized are those with a positive total. -/
theorem normalizer_eq_ok_iff {d : Distribution ℚ} {total : ℚ} :
    d.normalizer = .ok total ↔ 0 < d.totalWeight ∧ total = d.totalWeight := by
  rw [normalizer_rat]
  by_cases h : 0 < d.totalWeight
  · simp [h, eq_comm]
  · simp [h]

/-! ## Law and shares -/

/-- The share of slot `i` in the total weight. -/
def share (d : Distribution ℚ) (i : ℕ) : ℚ := slotWeight d.weights i / d.totalWeight

/-- The law of a distribution: a point mass if it is certain, and otherwise the outcome of every
slot with the share of the slot. -/
noncomputable def law (d : Distribution ℚ) : Law :=
  if d.isCertain then Law.point d.constant
  else ∑ i ∈ range d.size, Finsupp.single (d.outcome i) (d.share i)

/-- The probability that a distribution gives to `v`: 1 at the constant of a certain distribution,
and otherwise the share of the slot whose outcome is `v`, or 0 if there is none. -/
def probabilityAt (d : Distribution ℚ) (v : ℚ) : ℚ :=
  if d.isCertain then if v = d.constant then 1 else 0
  else
    match (List.range d.size).find? fun i => d.outcome i = v with
    | some i => d.share i
    | none => 0

/-- The law of a certain distribution. -/
theorem law_of_isCertain {d : Distribution ℚ} (h : d.isCertain = true) :
    d.law = Law.point d.constant := if_pos h

/-- The law of an uncertain distribution. -/
theorem law_of_isUncertain {d : Distribution ℚ} (h : d.isCertain = false) :
    d.law = ∑ i ∈ range d.size, Finsupp.single (d.outcome i) (d.share i) := by
  rw [law, h]
  rfl

/-- The outcome of slot `i` lies `i + 1` above the constant. -/
theorem outcome_rat (d : Distribution ℚ) (i : ℕ) : d.outcome i = d.constant + (i + 1) := by
  have h : d.outcome i = d.constant + (i : ℚ) + ((1 : ℕ) : ℚ) := rfl
  rw [h, Nat.cast_one, add_assoc]

/-- No two slots stand for the same outcome. -/
theorem outcome_inj (d : Distribution ℚ) {i j : ℕ} : d.outcome i = d.outcome j ↔ i = j := by
  rw [outcome_rat, outcome_rat]
  constructor
  · intro h
    have hij : (i : ℚ) = j := by linarith
    exact_mod_cast hij
  · rintro rfl
    rfl

/-- The total weight adds up the slots. -/
theorem totalWeight_eq_sum (d : Distribution ℚ) :
    d.totalWeight = ∑ i ∈ range d.size, slotWeight d.weights i := sum_eq_sum_slotWeight _

/-- The shares of a table that weighs anything sum to 1. -/
theorem sum_share {d : Distribution ℚ} (h : 0 < d.totalWeight) :
    ∑ i ∈ range d.size, d.share i = 1 := by
  unfold share
  rw [← sum_div, ← totalWeight_eq_sum, div_self h.ne']

/-- The law gives the outcome of a slot the share of the slot. -/
theorem law_outcome {d : Distribution ℚ} (h : d.isCertain = false) {i : ℕ} (hi : i < d.size) :
    d.law (d.outcome i) = d.share i := by
  rw [law_of_isUncertain h, Law.sum_single_apply]
  simp only [outcome_inj]
  rw [sum_ite_eq' (range d.size) i, if_pos (mem_range.2 hi)]

/-- The law gives nothing to a value that is no slot's outcome. -/
theorem law_eq_zero {d : Distribution ℚ} (h : d.isCertain = false) {v : ℚ}
    (hv : ∀ i < d.size, d.outcome i ≠ v) : d.law v = 0 := by
  rw [law_of_isUncertain h, Law.sum_single_apply]
  exact sum_eq_zero fun i hi => if_neg (hv i (mem_range.1 hi))

/-- What a distribution gives to a value is what its law gives to it. -/
theorem probabilityAt_eq_law (d : Distribution ℚ) (v : ℚ) : d.probabilityAt v = d.law v := by
  unfold probabilityAt
  cases hd : d.isCertain with
  | true =>
    rw [if_pos rfl, law_of_isCertain hd, Law.point, Finsupp.single_apply]
    simp only [eq_comm]
  | false =>
    rw [if_neg (by decide)]
    cases hfind : (List.range d.size).find? fun i => d.outcome i = v with
    | some i =>
      have hmem := List.mem_range.1 (List.mem_of_find?_eq_some hfind)
      have hout : d.outcome i = v := by simpa using List.find?_some hfind
      rw [← hout, law_outcome hd hmem]
    | none =>
      have hnone := List.find?_eq_none.1 hfind
      exact (law_eq_zero hd fun i hi => by simpa using hnone i (List.mem_range.2 hi)).symm

/-- The law of a table that weighs anything has total 1. -/
theorem total_law {d : Distribution ℚ} (h : d.isCertain = false → 0 < d.totalWeight) :
    d.law.total = 1 := by
  cases hd : d.isCertain with
  | true =>
    rw [law_of_isCertain hd, Law.total, Law.point, Finsupp.sum_single_index rfl]
  | false => rw [law_of_isUncertain hd, Law.total_sum, sum_share (h hd)]

end Distribution

end DiceOdds
