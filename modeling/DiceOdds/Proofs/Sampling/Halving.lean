import DiceOdds.Proofs.Sampling.Recursion

/-!
# How many draws a likely slot takes

A split need not halve the weight of a section: the slot that crosses the middle stays in the first
part, however heavy it is. But a part without its last slot has at most half of the weight of the
section that was split (`leadWeight_firstPart_le`, `leadWeight_secondPart_le`), and the next split
either leaves that last slot alone or takes it off. So two splits in a row halve the weight, and a
slot with more than one part in `2 ^ k` of a table is reached with at most `2 * k` draws.
-/

namespace DiceOdds

open Arithmetic

namespace RunningSums

/-- The weight of a section without its last slot. -/
def leadWeight (s : RunningSums ℚ) (start stop : ℕ) : ℚ := s.before stop - s.before start

/-! ## One split -/

section Split

variable {s : RunningSums ℚ} (hmono : Monotone s.before) {start stop : ℕ} {weight : ℚ}

include hmono

/-- A section weighs no more than a longer one without its last slot. -/
theorem sectionWeight_le_leadWeight {last : ℕ} (h : last < stop) :
    s.sectionWeight start last ≤ s.leadWeight start stop := sub_le_sub_right (hmono h) _

variable (hlt : start < stop) (hweight : weight = s.sectionWeight start stop)

include hlt hweight

/-- The first part of a split has at most half of the weight before its last slot. -/
theorem leadWeight_firstPart_le :
    s.leadWeight start (s.divider start stop weight) ≤ weight / 2 := by
  subst hweight
  have hge : start ≤ s.mid start stop := le_firstFailing _ start (stop + 1)
  have hle : s.mid start stop ≤ stop + 1 := firstFailing_le _ start (stop + 1) (by omega)
  have hcut : s.divider start stop (s.sectionWeight start stop) ≤ s.mid start stop :=
    min_le_left _ _
  obtain hstart | ⟨i, hi⟩ : s.mid start stop = start ∨ ∃ i, s.mid start stop = i + 1 ∧ start ≤ i :=
    hge.eq_or_lt.imp Eq.symm fun h => ⟨s.mid start stop - 1, by omega⟩
  · have hfirst : s.divider start stop (s.sectionWeight start stop) = start :=
      le_antisymm (hcut.trans_eq hstart) (s.le_divider _ hlt)
    rw [hfirst, leadWeight, sub_self]
    exact div_nonneg (sectionWeight_nonneg hmono hlt.le) zero_le_two
  · -- One half is not passed at the slot before the middle.
    calc s.leadWeight start (s.divider start stop (s.sectionWeight start stop))
        ≤ s.sectionWeight start i := sub_le_sub_right (hmono (hi.1 ▸ hcut)) _
      _ ≤ s.sectionWeight start stop / 2 := by
        rw [← not_lt, ← mid_le_iff hmono hi.2 (by omega)]
        omega

/-- The second part of a split is a single slot, or it has less than half of the weight. -/
theorem secondWeight_lt_or :
    s.divider start stop weight + 1 = stop ∨ s.secondWeight start stop weight < weight / 2 := by
  have hsum := s.firstWeight_add_secondWeight start stop weight
  have hdivider : s.divider start stop weight = min (s.mid start stop) (stop - 1) := by
    rw [hweight]
    rfl
  refine or_iff_not_imp_left.mpr fun hmoved => ?_
  have hcut : s.mid start stop = s.divider start stop weight := by omega
  have hfirst : s.sectionWeight start stop / 2 < s.firstWeight start stop weight :=
    (mid_le_iff hmono (s.le_divider weight hlt) (s.divider_lt weight hlt).le).mp hcut.le
  linarith

/-- The second part of a split has at most half of the weight before its last slot. -/
theorem leadWeight_secondPart_le :
    s.leadWeight (s.divider start stop weight + 1) stop ≤ weight / 2 := by
  obtain hmoved | hsecond := secondWeight_lt_or hmono hlt hweight
  · rw [hmoved, leadWeight, sub_self, hweight]
    exact div_nonneg (sectionWeight_nonneg hmono hlt.le) zero_le_two
  · exact (sub_le_sub_right (hmono (Nat.le_succ stop)) _).trans hsecond.le

end Split

/-! ## Whole runs -/

/-- A slot that has more than one part in `2 ^ k` of a section has one in twice as many of half the
section, and `k` is not 0. -/
theorem exists_half_lt {slot weight : ℚ} {k : ℕ} (hle : slot ≤ weight)
    (hlikely : weight < slot * 2 ^ k) : ∃ n, k = n + 1 ∧ weight / 2 < slot * 2 ^ n := by
  cases k with
  | zero =>
    rw [pow_zero, mul_one] at hlikely
    exact absurd hle hlikely.not_ge
  | succ n =>
    rw [pow_succ] at hlikely
    exact ⟨n, rfl, by linarith⟩

/-- On the way to a slot that has more than one part in `2 ^ k` of half a section there are at most
`2 * k + 2` splits, and one less if it has as much of the section without its last slot. -/
theorem length_splitsTo_le_of_half_lt {s : RunningSums ℚ} (hmono : Monotone s.before)
    (i start stop : ℕ) (weight : ℚ) (hweight : weight = s.sectionWeight start stop)
    (hstart : start ≤ i) (hstop : i ≤ stop) (k : ℕ)
    (hlikely : weight / 2 < s.sectionWeight i i * 2 ^ k) :
    (s.splitsTo start stop weight i).length ≤ 2 * k + 2 ∧
      (s.leadWeight start stop < s.sectionWeight i i * 2 ^ k →
        (s.splitsTo start stop weight i).length ≤ 2 * k + 1) := by
  -- The two bounds take turns: a split leaves a part that is light before its last slot, and the
  -- next split then leaves a part that is light.
  induction start, stop, weight using s.section_induction generalizing k with
  | slot start stop weight hlt =>
    rw [splitsTo, dif_neg hlt]
    exact ⟨Nat.zero_le _, fun _ => Nat.zero_le _⟩
  | cut start stop weight hlt ih₁ ih₂ =>
    have hlo := s.le_divider weight hlt
    have hhi := s.divider_lt weight hlt
    rw [splitsTo, dif_pos hlt, List.length_cons]
    by_cases hi : i ≤ s.divider start stop weight
    · have hpart : s.firstWeight start stop weight ≤ weight :=
        (sectionWeight_le hmono le_rfl hhi.le).trans_eq hweight.symm
      have hslot : s.sectionWeight i i ≤ s.firstWeight start stop weight :=
        sectionWeight_le hmono hstart hi
      rw [if_pos hi]
      constructor
      · have := (ih₁ rfl hstart hi k (by linarith)).2
          ((leadWeight_firstPart_le hmono hlt hweight).trans_lt hlikely)
        omega
      · intro hlead
        obtain ⟨n, rfl, hhalf⟩ :=
          exists_half_lt hslot ((sectionWeight_le_leadWeight hmono hhi).trans_lt hlead)
        have := (ih₁ rfl hstart hi n hhalf).1
        omega
    · have hpart : s.secondWeight start stop weight ≤ weight :=
        (sectionWeight_le hmono (by omega) le_rfl).trans_eq hweight.symm
      have hslot : s.sectionWeight i i ≤ s.secondWeight start stop weight :=
        sectionWeight_le hmono (by omega) hstop
      rw [if_neg hi]
      constructor
      · have := (ih₂ rfl (by omega) hstop k (by linarith)).2
          ((leadWeight_secondPart_le hmono hlt hweight).trans_lt hlikely)
        omega
      · intro _
        obtain hmoved | hsecond := secondWeight_lt_or hmono hlt hweight
        · rw [splitsTo, dif_neg (by omega), List.length_nil]
          omega
        · obtain ⟨n, rfl, hhalf⟩ := exists_half_lt hslot (hsecond.trans hlikely)
          have := (ih₂ rfl (by omega) hstop n hhalf).1
          omega

end RunningSums

/-! ## Tables -/

/-- Of a table with a positive weight and no negative ones, a slot that has more than one part in
`2 ^ k` of the whole is drawn with at most `2 * k` draws, whatever they are. -/
theorem sampleIndex_draws_le (weights : Array ℚ) (hweights : ∀ w ∈ weights, 0 ≤ w)
    (hpos : 0 < Arithmetic.sum weights) (i : ℕ) (hi : i < weights.size) (k : ℕ)
    (hlikely : Arithmetic.sum weights < weights[i] * 2 ^ k) (r r' : Roller)
    (hdrawn : sampleIndex weights r = (.ok i, r')) :
    ∃ n ≤ 2 * k, r' = { r with taken := r.taken + n } := by
  have hmono := monotone_before_ofWeights hweights
  have htotal := total_ofWeights_rat weights
  have hwhole := htotal.trans (sectionWeight_ofWeights weights (by omega)).symm
  have hself := sectionWeight_ofWeights_self weights i
  rw [slotWeight_of_lt hi] at hself
  have hle : weights[i] ≤ Arithmetic.sum weights := by
    rw [← hself, ← htotal, hwhole]
    exact RunningSums.sectionWeight_le hmono (Nat.zero_le i) (by omega)
  obtain ⟨n, rfl, hhalf⟩ := RunningSums.exists_half_lt hle hlikely
  have hsplits := (RunningSums.length_splitsTo_le_of_half_lt hmono i 0 (weights.size - 1) _ hwhole
    (Nat.zero_le i) (by omega) n (by rwa [hself, htotal])).1
  have hpositive : isPositiveFinite (RunningSums.ofWeights weights).total = true := by
    rw [htotal, isPositiveFinite_rat]
    exact decide_eq_true hpos
  have hdraws := (RunningSums.ofWeights weights).narrow_snd 0 (weights.size - 1)
    (RunningSums.ofWeights weights).total (Nat.zero_le _) r
  rw [sampleIndex_of_isPositiveFinite hpositive, Prod.mk.injEq, Except.ok.injEq] at hdrawn
  rw [hdrawn.1, hdrawn.2] at hdraws
  exact ⟨_, hsplits, hdraws⟩

/-- Slot 1 of the weights 1, 10 and 1 has more than half of the weight. Where the first split leaves
it in the first part, it takes two draws. -/
theorem sampleIndex_draws_le_two :
    let r := Roller.stepping 0 0xffffffff
    let r' : Roller := { r with taken := 2 }
    sampleIndex (#[1, 10, 1] : Array ℚ) r = (.ok 1, r') ∧
      ∃ n ≤ 2 * 1, r' = { r with taken := r.taken + n } := by
  intro r r'
  have hdrawn : sampleIndex (#[1, 10, 1] : Array ℚ) r = (.ok 1, r') := by cbv
  exact ⟨hdrawn, sampleIndex_draws_le #[1, 10, 1] (by decide) (by decide +kernel) 1 (by decide) 1
    (by decide +kernel) r r' hdrawn⟩

end DiceOdds
