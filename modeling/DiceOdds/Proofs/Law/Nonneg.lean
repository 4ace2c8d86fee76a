import Mathlib.Algebra.Order.BigOperators.Group.Finset
import DiceOdds.Proofs.Law.Product
import DiceOdds.Proofs.Law.Sum

/-!
# Weights that are not negative

A lawful table has no negative weight, but nothing keeps a table from having one: weights are what
their maker put there. The operations on distributions only add, multiply and divide weights, and
so in exact arithmetic they make no negative weight of others (`nonneg_add`, `nonneg_times`).
-/

namespace DiceOdds

open Finset Arithmetic

/-- Whether no weight of a table is negative. -/
def NonnegWeights (weights : Array ℚ) : Prop := ∀ w ∈ weights, 0 ≤ w

namespace NonnegWeights

variable {weights : Array ℚ}

/-- The weight read at any slot is not negative, past the end of the table either. -/
theorem slotWeight_nonneg (h : NonnegWeights weights) (i : ℕ) : 0 ≤ slotWeight weights i := by
  obtain hi | hi := lt_or_ge i weights.size
  · rw [slotWeight_of_lt hi]
    exact h _ (Array.getElem_mem hi)
  · exact (slotWeight_of_le hi).ge

/-- Neither is the sum of all weights. -/
theorem sum_nonneg (h : NonnegWeights weights) : 0 ≤ Arithmetic.sum weights := by
  rw [sum_eq_sum_slotWeight]
  exact Finset.sum_nonneg fun i _ => h.slotWeight_nonneg i

/-- A table has no negative weight if it has none in any slot. -/
theorem of_slotWeight (h : ∀ i < weights.size, 0 ≤ slotWeight weights i) :
    NonnegWeights weights := by
  intro w hw
  obtain ⟨i, hi, rfl⟩ := Array.mem_iff_getElem.mp hw
  rw [← slotWeight_of_lt hi]
  exact h i hi

/-- There is no weight in an empty table. -/
theorem empty : NonnegWeights #[] := fun _ hw => (Array.not_mem_empty _ hw).elim

/-- A table of equal weights has what each of them has. -/
theorem replicate (n : ℕ) {w : ℚ} (hw : 0 ≤ w) : NonnegWeights (Array.replicate n w) := by
  intro v hv
  rwa [(Array.mem_replicate.mp hv).2]

/-- Adding to a slot leaves no weight negative. -/
theorem modify (h : NonnegWeights weights) (i : ℕ) {w : ℚ} (hw : 0 ≤ w) :
    NonnegWeights (weights.modify i (· + w)) := by
  intro v hv
  obtain ⟨j, hj, rfl⟩ := Array.mem_iff_getElem.mp hv
  rw [Array.size_modify] at hj
  rw [Array.getElem_modify]
  split
  · exact add_nonneg (h _ (Array.getElem_mem hj)) hw
  · exact h _ (Array.getElem_mem hj)

/-- A convolution multiplies and adds. -/
theorem convolution {p q : Array ℚ} (hp : NonnegWeights p) (hq : NonnegWeights q) :
    NonnegWeights (Distribution.convolution p q) := by
  intro w hw
  obtain ⟨k, hk, rfl⟩ := Array.mem_iff_getElem.mp hw
  have hslot : (Distribution.convolution p q)[k] = Distribution.convolutionAt p q k :=
    Array.getElem_ofFn _
  rw [hslot, Distribution.convolutionAt_eq_sum]
  refine Finset.sum_nonneg fun i _ => Finset.sum_nonneg fun j _ => ?_
  split
  · exact mul_nonneg (hp.slotWeight_nonneg i) (hq.slotWeight_nonneg j)
  · exact le_rfl

end NonnegWeights

namespace Distribution

variable {d e x : Distribution ℚ}

/-- A certain distribution has no weights. -/
theorem nonneg_of_isCertain (h : d.isCertain = true) : NonnegWeights d.weights := by
  rw [Array.isEmpty_iff.mp h]
  exact .empty

/-- Weights that are not negative have no negative total. -/
theorem totalWeight_nonneg (hd : NonnegWeights d.weights) : 0 ≤ d.totalWeight := hd.sum_nonneg

/-- The shares of weights that are not negative are not negative. -/
theorem nonneg_shares (hd : NonnegWeights d.weights) : NonnegWeights d.shares := by
  refine .of_slotWeight fun i _ => ?_
  rw [slotWeight_shares]
  exact div_nonneg (hd.slotWeight_nonneg i) (totalWeight_nonneg hd)

/-- The only total that weights which are not negative cannot be divided by is 0. -/
theorem normalizer_of_nonneg (hd : NonnegWeights d.weights) :
    d.normalizer = if d.totalWeight = 0 then .error (.zeroWeight 0) else .ok d.totalWeight := by
  have hnonneg := totalWeight_nonneg hd
  rw [normalizer_rat]
  split_ifs with hpos hzero hzero
  · exact absurd hzero hpos.ne'
  · rfl
  · rw [hzero]
  · exact absurd (lt_of_le_of_ne hnonneg (Ne.symm hzero)) hpos

/-! ## Sums -/

/-- A sum has no negative weight if its operands have none. -/
theorem nonneg_add [Memory] (hd : NonnegWeights d.weights) (he : NonnegWeights e.weights)
    (h : d.add e = .ok x) : NonnegWeights x.weights := by
  obtain ⟨-, -, -, -, -, rfl⟩ | ⟨-, rfl⟩ | ⟨-, -, rfl⟩ := add_eq_ok h
  · exact (nonneg_shares hd).convolution (nonneg_shares he)
  · exact he
  · exact hd

/-! ## Products -/

/-- The outcomes that a product multiplies: the constant of a certain distribution, and otherwise
the outcome of every slot. -/
def HasOutcome (d : Distribution ℚ) (v : ℚ) : Prop :=
  d.isCertain = true ∧ v = d.constant ∨ d.isCertain = false ∧ ∃ i < d.size, v = d.outcome i

/-- The largest outcome: the constant of a certain distribution, and otherwise that of the last
slot. -/
def largestOutcome (d : Distribution ℚ) : ℚ :=
  if d.isCertain then d.constant else d.size + d.constant

/-- No outcome is larger than the largest. -/
theorem isGreatest_largestOutcome (d : Distribution ℚ) :
    IsGreatest {v | d.HasOutcome v} d.largestOutcome := by
  unfold largestOutcome
  cases hd : d.isCertain with
  | true =>
    refine ⟨.inl ⟨hd, rfl⟩, fun v hv => ?_⟩
    obtain ⟨-, rfl⟩ | ⟨hd', -⟩ := hv
    · exact le_rfl
    · exact absurd hd (by rw [hd']; decide)
  | false =>
    have hpos := size_pos_of_isUncertain hd
    constructor
    · refine .inr ⟨hd, d.size - 1, by omega, ?_⟩
      show d.size + d.constant = _
      rw [outcome_rat, Nat.cast_pred hpos]
      ring
    · intro v hv
      obtain ⟨hd', -⟩ | ⟨-, i, hi, rfl⟩ := hv
      · exact absurd hd (by rw [hd']; decide)
      · have hle : (i : ℚ) + 1 ≤ d.size := by exact_mod_cast hi
        show d.outcome i ≤ d.size + d.constant
        rw [outcome_rat]
        linarith

/-- What a table has a slot for at most is the largest outcome. -/
theorem maxValue_rat (d : Distribution ℚ) : d.maxValue = d.largestOutcome := by
  have hmax : d.maxValue = (d.size : ℚ) + d.constant := rfl
  rw [hmax, largestOutcome]
  split
  next hd =>
    rw [size, Array.size_eq_zero_iff.mpr (Array.isEmpty_iff.mp hd), Nat.cast_zero, zero_add]
  next => rfl

/-- The table of a product is made for the largest outcomes. -/
theorem productBound_rat (d e : Distribution ℚ) :
    productBound d e = trunc (d.largestOutcome * e.largestOutcome) := by
  rw [productBound, maxValue_rat, maxValue_rat]

/-- Normalized outcomes have no negative probability. Without any weight there are none. -/
theorem yields_normalizedOutcomes_of_nonneg (hd : NonnegWeights d.weights) :
    d.normalizedOutcomes.Yields (fun entries => ∀ a ∈ entries, d.HasOutcome a.1 ∧ 0 ≤ a.2)
      fun err => d.isCertain = false ∧ d.totalWeight = 0 ∧ err = .zeroWeight 0 := by
  cases hcertain : d.isCertain with
  | true =>
    rw [normalizedOutcomes_of_isCertain hcertain]
    intro a ha
    obtain rfl := Array.mem_singleton.mp ha
    exact ⟨.inl ⟨hcertain, rfl⟩, Nat.cast_nonneg 1⟩
  | false =>
    rw [normalizedOutcomes_of_isUncertain hcertain, normalizer_of_nonneg hd]
    split
    next hzero => exact ⟨rfl, hzero, rfl⟩
    next hzero =>
      intro a ha
      obtain ⟨⟨v, w⟩, hentry, rfl⟩ := Array.mem_map.mp ha
      obtain ⟨i, hi, hentry⟩ := Array.mem_mapIdx.mp hentry
      obtain ⟨rfl, rfl⟩ := Prod.mk.inj hentry
      exact ⟨.inr ⟨hcertain, i, hi, rfl⟩,
        div_nonneg (hd _ (Array.getElem_mem hi)) (totalWeight_nonneg hd)⟩

/-- The table of products has no negative weight, unless two outcomes have a product without a
slot. -/
theorem yields_productTable_of_nonneg (size : ℕ) {left right : Array (ℚ × ℚ)}
    (hleft : ∀ a ∈ left, 0 ≤ a.2) (hright : ∀ b ∈ right, 0 ≤ b.2) :
    (productTable size left right).Yields NonnegWeights fun err => ∃ a ∈ left, ∃ b ∈ right,
      productSlot? size (a.1 * b.1) = none ∧ err = .productOutOfRange (a.1 * b.1) size :=
  productTable_yields size (.replicate size (Nat.cast_nonneg 0))
    fun _ htable a ha b hb i => htable.modify i (mul_nonneg (hleft a ha) (hright b hb))

/-- A product has no negative weight if its operands have none. -/
theorem nonneg_times [Memory] (hd : NonnegWeights d.weights) (he : NonnegWeights e.weights)
    (h : d.times e = .ok x) : NonnegWeights x.weights := by
  obtain ⟨-, -, rfl⟩ | ⟨-, -, rfl⟩ |
      ⟨-, -, -, -, left, right, table, hleft, hright, htable, rfl⟩ := times_eq_ok_cases h
  · exact .empty
  · exact .empty
  have hrightEntries := yields_normalizedOutcomes_of_nonneg he
  have hleftEntries := yields_normalizedOutcomes_of_nonneg hd
  rw [hright] at hrightEntries
  rw [hleft] at hleftEntries
  have hnonneg := yields_productTable_of_nonneg (d.productSize e)
    (fun a ha => (hleftEntries a ha).2) fun b hb => (hrightEntries b hb).2
  rw [htable] at hnonneg
  exact hnonneg

end Distribution

end DiceOdds
