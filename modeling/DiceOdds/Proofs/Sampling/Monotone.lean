import DiceOdds.Proofs.Binary64.Extended
import DiceOdds.Proofs.Rolling
import DiceOdds.Proofs.Sampling.Splits

/-!
# Larger draws give later slots

Of two runs of a bisection on the same table, the one with the larger draws ends at the same slot or
a later one. As long as the runs choose the same parts they see the same section and the same
threshold. Where they part, the larger draw chooses the second part, and from then on each run stays
in its own part (`narrow_fst_mono`). Of the arithmetic this needs only that a draw below a threshold
has the smaller draws below the threshold too; the running sums, the thresholds and where a section
is cut may be as wrong as rounding makes them.

The outcomes of later slots are not smaller, since rounded sums keep the order.
-/

namespace DiceOdds

open Arithmetic

variable {α : Type} [Arithmetic α]

/-! ## Rollers in order -/

/-- Whether every draw that is left of `r` is at most the draw of `r'` in its place. -/
def Roller.Below (r r' : Roller) : Prop :=
  ∀ k, r.stream (r.taken + k) ≤ r'.stream (r'.taken + k)

namespace Roller.Below

variable {r r' : Roller} (h : r.Below r')

include h

/-- The next draws are in order. -/
theorem head_le : r.head ≤ r'.head := h 0

/-- The draws after the next are in order. -/
theorem tail : r.tail.Below r'.tail := fun k => by
  have := h (1 + k)
  rwa [← Nat.add_assoc, ← Nat.add_assoc] at this

end Roller.Below

/-! ## Runs -/

/-- Whether a draw that is below a number has all smaller draws below that number. -/
def OrdersDraws (α : Type) [Arithmetic α] : Prop :=
  ∀ {x y : UInt32} {t : α}, x ≤ y → ofNat y.toNat < t → ofNat x.toNat < t

namespace RunningSums

/-- With larger draws a section is narrowed down to the same slot or a later one. -/
theorem narrow_fst_mono (horders : OrdersDraws α) (s : RunningSums α) (start stop : Nat)
    (weight : α) (hle : start ≤ stop) {r r' : Roller} (h : r.Below r') :
    (s.narrow start stop weight r).1 ≤ (s.narrow start stop weight r').1 := by
  induction start, stop, weight using s.section_induction generalizing r r' with
  | slot start stop weight hlt =>
    rw [s.narrow_of_not_lt weight hlt, s.narrow_of_not_lt weight hlt]
  | cut start stop weight hlt ih₁ ih₂ =>
    have hlo := s.le_divider weight hlt
    have hhi := s.divider_lt weight hlt
    rw [s.narrow_of_lt weight hlt, s.narrow_of_lt weight hlt]
    by_cases hdraw' :
      ofNat r'.head.toNat < threshold (s.firstWeight start stop weight) weight
    · rw [if_pos hdraw', if_pos (horders h.head_le hdraw')]
      exact ih₁ hlo h.tail
    · rw [if_neg hdraw']
      split
      · -- The runs part: one ends before the divider and the other after it.
        have hfirst := s.narrow_mem start (s.divider start stop weight)
          (s.firstWeight start stop weight) hlo r.tail
        have hsecond := s.narrow_mem (s.divider start stop weight + 1) stop
          (s.secondWeight start stop weight) hhi r'.tail
        omega
      · exact ih₂ hhi h.tail

end RunningSums

/-- With larger draws an index is drawn that is the same or a later one. -/
theorem exists_sampleIndex_le (horders : OrdersDraws α) {weights : Array α}
    (hpos : isPositiveFinite (RunningSums.ofWeights weights).total = true) {r r' : Roller}
    (h : r.Below r') :
    ∃ i j, (sampleIndex weights r).1 = .ok i ∧ (sampleIndex weights r').1 = .ok j ∧ i ≤ j := by
  rw [sampleIndex_of_isPositiveFinite hpos, sampleIndex_of_isPositiveFinite hpos]
  exact ⟨_, _, rfl, rfl, RunningSums.narrow_fst_mono horders _ 0 (weights.size - 1) _
    (Nat.zero_le _) h⟩

/-- A sample of a certain distribution is its constant. -/
theorem Distribution.sample_fst_of_isCertain {d : Distribution α} (hd : d.isCertain = true)
    (r : Roller) : (d.sample r).1 = .ok d.constant := by
  unfold sample
  rw [if_pos hd]
  rfl

/-- A sample of a distribution that is not certain is the outcome of the index that is drawn. -/
theorem Distribution.sample_fst_of_not_isCertain {d : Distribution α} (hd : d.isCertain = false)
    (r : Roller) : (d.sample r).1 = (sampleIndex d.weights r).1.map d.outcome := by
  unfold sample
  rw [hd, if_neg Bool.false_ne_true, Rolling.bind_apply]
  rcases sampleIndex d.weights r with ⟨_ | i, s⟩ <;> rfl

/-! ## Doubles -/

open Binary64

/-- Doubles above a draw are above all smaller draws. -/
theorem ordersDraws_binary64 : OrdersDraws Float := by
  intro x y t hle hlt
  have hdraw (z : UInt32) : HasValue (ofNat z.toNat) (z.toNat : ℚ) :=
    hasValue_ofNat_of_le (z.toNat_lt.le.trans (by norm_num))
  exact (hdraw x).lt_of_le_of_lt (hdraw y) (by exact_mod_cast hle) hlt

/-- A count is not rounded to something negative. -/
theorem roundTop_natCast_nonneg (n : ℕ) : 0 ≤ roundTop (n : ℚ) :=
  roundTop_nonneg (WithTop.coe_le_coe.mpr n.cast_nonneg)

/-- The outcome of a slot is the rounded sum of the constant and the number of the slot, and one
more. -/
theorem hasExtendedValue_outcome {d : Distribution Float} {c : ℚ} (hd : HasValue d.constant c)
    (i : ℕ) :
    HasExtendedValue (d.outcome i)
      (roundTop (roundTop (c + roundTop (i : ℚ)) + roundTop ((1 : ℕ) : ℚ))) := by
  have hslot : HasExtendedValue (d.constant + Float.ofNat i) (roundTop (c + roundTop (i : ℚ))) :=
    (HasExtendedValue.value hd).add (hasExtendedValue_ofNat i) (roundTop_natCast_nonneg i)
  exact hslot.add (hasExtendedValue_ofNat 1) (roundTop_natCast_nonneg 1)

/-- Above a finite constant, later slots have no smaller outcomes. -/
theorem outcome_mono {d : Distribution Float} (hd : d.constant.isFinite) {i j : ℕ} (h : i ≤ j) :
    d.outcome i ≤ d.outcome j := by
  have hc := hasValue_value hd
  refine (hasExtendedValue_outcome hc i).le (hasExtendedValue_outcome hc j) ?_
  have hslots : roundTop (i : ℚ) ≤ roundTop (j : ℚ) :=
    roundTop_mono (WithTop.coe_le_coe.mpr (Nat.cast_le.mpr h))
  exact roundTop_mono (add_le_add_left (roundTop_mono (add_le_add_right hslots _)) _)

/-- Larger draws give no smaller results. On draws of which each is at least the one in its place,
the index that is drawn from a table with a positive and finite running total is the same or a later
one, however many draws either run takes, and the sample of a distribution with a finite constant is
no smaller. -/
theorem sampleIndex_mono (r r' : Roller)
    (hdraws : ∀ k, r.stream (r.taken + k) ≤ r'.stream (r'.taken + k)) :
    (∀ weights : Array Float, 0 < (RunningSums.ofWeights weights).total →
      (RunningSums.ofWeights weights).total.isFinite →
      ∃ i j, (sampleIndex weights r).1 = .ok i ∧ (sampleIndex weights r').1 = .ok j ∧ i ≤ j) ∧
    (∀ d : Distribution Float, d.constant.isFinite →
      (d.isCertain ∨ 0 < (RunningSums.ofWeights d.weights).total ∧
        (RunningSums.ofWeights d.weights).total.isFinite) →
      ∃ x y, (d.sample r).1 = .ok x ∧ (d.sample r').1 = .ok y ∧ x ≤ y) := by
  have hindex (weights : Array Float) (hpos : 0 < (RunningSums.ofWeights weights).total)
      (hfinite : (RunningSums.ofWeights weights).total.isFinite) :
      ∃ i j, (sampleIndex weights r).1 = .ok i ∧ (sampleIndex weights r').1 = .ok j ∧ i ≤ j :=
    exists_sampleIndex_le ordersDraws_binary64
      (Bool.and_eq_true_iff.mpr ⟨decide_eq_true hpos, hfinite⟩) hdraws
  refine ⟨hindex, fun d hd htotal => ?_⟩
  by_cases hcertain : d.isCertain
  · have hconstant := hasValue_value hd
    exact ⟨_, _, d.sample_fst_of_isCertain hcertain r, d.sample_fst_of_isCertain hcertain r',
      (hconstant.le_iff hconstant).mpr le_rfl⟩
  · rw [Bool.not_eq_true] at hcertain
    obtain ⟨hpos, hfinite⟩ :=
      htotal.resolve_left fun h => Bool.false_ne_true (hcertain.symm.trans h)
    obtain ⟨i, j, hi, hj, hle⟩ := hindex d.weights hpos hfinite
    refine ⟨_, _, ?_, ?_, outcome_mono hd hle⟩
    · rw [Distribution.sample_fst_of_not_isCertain hcertain, hi]
      rfl
    · rw [Distribution.sample_fst_of_not_isCertain hcertain, hj]
      rfl

/-- Of the weights 1, 1, 1 and 9 at 0.5, the least draws give slot 0 and take three of them, and the
largest give slot 3 and take one. -/
theorem sampleIndex_mono_extreme :
    let d : Distribution Float := ⟨Float.ofBits 0x3fe0000000000000, #[1, 1, 1, 9]⟩
    (sampleIndex d.weights (Roller.stepping 0 0)).2.taken = 3 ∧
    (sampleIndex d.weights (Roller.stepping 0xffffffff 0)).2.taken = 1 ∧
    ∃ x y, (d.sample (Roller.stepping 0 0)).1 = .ok x ∧
      (d.sample (Roller.stepping 0xffffffff 0)).1 = .ok y ∧ x ≤ y :=
  ⟨by decide +kernel, by decide +kernel,
    (sampleIndex_mono (Roller.stepping 0 0) (Roller.stepping 0xffffffff 0) fun k => by
      simp [Roller.stepping, Roller.ofStream]).2 _ (by decide +kernel)
      (.inr (by decide +kernel))⟩

end DiceOdds
