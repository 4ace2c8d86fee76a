import DiceOdds.Proofs.Sampling.Frequency
import DiceOdds.Proofs.Sampling.Weighing

/-!
# Sampling as a recursion over parts of a table

A weighted index can be drawn without running sums and without searches: a part of one slot is the
answer, any other part is cut after the first slot at which more than half of its weight is passed,
and one draw decides with which of the two to go on. `sampleParts` does this, with every weight
added up afresh from the slots of the part at hand.

Over exact arithmetic `sampleIndex` is that procedure (`sampleIndex_eq_sampleParts`). A section of
the table stands for the part that `slice` takes out of it. The weights that `narrow` passes on are
the weights of these parts, and where the running sums do not fall, its bisection ends where the
scan for the middle does, however many slots there have no weight.
-/

namespace DiceOdds

open Arithmetic

/-! ## The procedure -/

/-- The first slot of a part at which the weights from its start exceed half of its weight. -/
def midSlot? (part : List ℚ) : Option ℕ :=
  (List.range part.length).find? fun i => part.sum / 2 < (part.take (i + 1)).sum

/-- The slot after which a part is cut in two: the one in the middle, or the one before it where
that would leave nothing for the second part. -/
def cutSlot? (part : List ℚ) : Option ℕ :=
  (midSlot? part).map fun i => if i + 1 = part.length then i - 1 else i

/-- A part that is not a single slot is cut before its last slot. -/
theorem lt_of_cutSlot?_eq_some {part : List ℚ} (hlength : part.length ≠ 1) {i : ℕ}
    (h : cutSlot? part = some i) : i + 1 < part.length := by
  obtain ⟨j, hj, rfl⟩ := Option.map_eq_some_iff.mp h
  have hlt := List.mem_range.mp (List.mem_of_find?_eq_some hj)
  split <;> omega

/-- Draws a slot of a part that starts at slot `start` of its table. A part without weight has no
middle to be cut at. -/
def sampleParts (start : ℕ) (part : List ℚ) : Rolling (DistributionError ℚ) ℕ :=
  if hlength : part.length = 1 then return start
  else match h : cutSlot? part with
    | none => throw (.zeroWeight part.sum)
    | some i => do
      have := lt_of_cutSlot?_eq_some hlength h
      if ((← Roller.draw).toNat : ℚ) < (part.take (i + 1)).sum / part.sum * 2 ^ 32 then
        sampleParts start (part.take (i + 1))
      else sampleParts (start + i + 1) (part.drop (i + 1))
termination_by part.length

/-- A part of one slot is that slot, and takes no draw. -/
theorem sampleParts_of_length_eq_one (start : ℕ) {part : List ℚ} (h : part.length = 1)
    (r : Roller) : sampleParts start part r = (.ok start, r) := by
  rw [sampleParts, dif_pos h]
  rfl

/-- A part that is cut is drawn from by its first or its second part, as the next draw has it. -/
theorem sampleParts_of_cutSlot?_eq_some (start : ℕ) {part : List ℚ} (hlength : part.length ≠ 1)
    {i : ℕ} (h : cutSlot? part = some i) (r : Roller) :
    sampleParts start part r =
      if (r.head.toNat : ℚ) < (part.take (i + 1)).sum / part.sum * 2 ^ 32 then
        sampleParts start (part.take (i + 1)) r.tail
      else sampleParts (start + i + 1) (part.drop (i + 1)) r.tail := by
  have hrun : sampleParts start part = (do
      if ((← Roller.draw).toNat : ℚ) < (part.take (i + 1)).sum / part.sum * 2 ^ 32 then
        sampleParts start (part.take (i + 1))
      else sampleParts (start + i + 1) (part.drop (i + 1))) := by
    rw [sampleParts, dif_neg hlength]
    split
    · next hnone => cases hnone.symm.trans h
    · next j hsome =>
      cases hsome.symm.trans h
      rfl
  rw [hrun]
  exact apply_ite (fun run : Rolling (DistributionError ℚ) ℕ => run r.tail) _ _ _

/-! ## Sections as parts -/

/-- The slots of a table from `start` to `stop`, both included. -/
def slice (weights : Array ℚ) (start stop : ℕ) : List ℚ :=
  weights.toList.extract start (stop + 1)

variable {weights : Array ℚ} {start stop : ℕ}

/-- A section has as many slots as there are numbers from its start to its stop. -/
theorem length_slice (h : stop < weights.size) :
    (slice weights start stop).length = stop + 1 - start := by
  rw [slice, List.extract_eq_take_drop, List.length_take, List.length_drop, Array.length_toList]
  omega

/-- The first slots of a section are a section. -/
theorem take_slice {last : ℕ} (hstart : start ≤ last) (hstop : last ≤ stop) :
    (slice weights start stop).take (last - start + 1) = slice weights start last := by
  rw [slice, slice, List.extract_eq_take_drop, List.extract_eq_take_drop, List.take_take]
  congr 1
  omega

/-- The slots that are left of a section are a section. -/
theorem drop_slice {first : ℕ} (hstart : start ≤ first) :
    (slice weights start stop).drop (first - start + 1) = slice weights (first + 1) stop := by
  rw [slice, slice, List.extract_eq_take_drop, List.extract_eq_take_drop, List.drop_take,
    List.drop_drop]
  congr 1
  · omega
  · congr 1
    omega

/-- The weights of a section add up to the difference of the running sums at its ends. -/
theorem sum_slice (h : start ≤ stop) :
    (slice weights start stop).sum = (RunningSums.ofWeights weights).sectionWeight start stop := by
  have hsplit := List.sum_take_add_sum_drop (weights.toList.take (stop + 1)) start
  rw [List.take_take, min_eq_left (by omega), List.drop_take] at hsplit
  have hbefore (k : ℕ) :
      (RunningSums.ofWeights weights).before k = (weights.toList.take k).sum := by
    rw [RunningSums.before_ofWeights, List.sum_eq_foldl]
    rfl
  rw [RunningSums.sectionWeight, hbefore, hbefore, ← hsplit, slice, List.extract_eq_take_drop,
    add_sub_cancel_left]

/-- The slot that a bisection takes for the middle of a section. -/
def RunningSums.mid (s : RunningSums ℚ) (start stop : ℕ) : ℕ :=
  firstFailing
    (fun i => s.before (i + 1) - s.before start ≤ ofDecimal 5 1 * s.sectionWeight start stop)
    start (stop + 1)

/-- Where no weight is negative, more than half of a section is passed from its middle on. -/
theorem RunningSums.mid_le_iff {s : RunningSums ℚ} (hmono : Monotone s.before) {i : ℕ}
    (hstart : start ≤ i) (hstop : i ≤ stop) :
    s.mid start stop ≤ i ↔ s.sectionWeight start stop / 2 < s.sectionWeight start i := by
  have hhalf : (ofDecimal 5 1 : ℚ) * s.sectionWeight start stop =
      s.sectionWeight start stop / 2 := by
    rw [ofDecimal_rat]
    ring
  have htest (j : ℕ) : (decide (s.before (j + 1) - s.before start ≤
      ofDecimal 5 1 * s.sectionWeight start stop) = true) ↔
      s.sectionWeight start j ≤ s.sectionWeight start stop / 2 := by
    rw [decide_eq_true_eq, hhalf]
    rfl
  rw [mid]
  constructor
  · intro hle
    have hmid := not_test_firstFailing (Nat.lt_succ_of_le (hle.trans hstop))
    rw [htest, not_le] at hmid
    exact hmid.trans_le (sectionWeight_le hmono le_rfl hle)
  · intro hhalf
    by_contra hlt
    have hpass := test_of_lt_firstFailing (fun j k hjk hk => (htest j).mpr
      ((sectionWeight_le hmono le_rfl hjk).trans ((htest k).mp hk))) hstart (not_le.mp hlt)
    exact hhalf.not_ge ((htest i).mp hpass)

/-- The scan for the middle of a section ends where the bisection does. -/
theorem midSlot?_slice (hweights : ∀ w ∈ weights, 0 ≤ w) (hle : start ≤ stop)
    (hstop : stop < weights.size)
    (hpos : 0 < (RunningSums.ofWeights weights).sectionWeight start stop) :
    midSlot? (slice weights start stop) =
      some ((RunningSums.ofWeights weights).mid start stop - start) := by
  have hmono := monotone_before_ofWeights hweights
  set s := RunningSums.ofWeights weights
  have hge : start ≤ s.mid start stop := le_firstFailing _ start (stop + 1)
  have hlast : s.mid start stop ≤ stop :=
    (RunningSums.mid_le_iff hmono hle le_rfl).mpr (half_lt_self hpos)
  rw [midSlot?, List.find?_range_eq_some, length_slice hstop, sum_slice hle]
  refine ⟨?_, List.mem_range.mpr (by omega), fun j hj => ?_⟩
  · rw [take_slice hge hlast, sum_slice hge, decide_eq_true_eq]
    exact (RunningSums.mid_le_iff hmono hge hlast).mp le_rfl
  · have hpassed : s.mid start stop ≤ start + j ↔
        s.sectionWeight start stop / 2 < s.sectionWeight start (start + j) :=
      RunningSums.mid_le_iff hmono (by omega) (by omega)
    rw [← Nat.add_sub_cancel_left (n := start) (m := j), take_slice (by omega) (by omega),
      sum_slice (by omega), Bool.not_eq_true', decide_eq_false_iff_not, ← hpassed]
    omega

/-- The part that a section stands for is cut at the divider of the section. -/
theorem cutSlot?_slice (hweights : ∀ w ∈ weights, 0 ≤ w) (hlt : start < stop)
    (hstop : stop < weights.size) {weight : ℚ}
    (hweight : weight = (RunningSums.ofWeights weights).sectionWeight start stop)
    (hpos : 0 < weight) :
    cutSlot? (slice weights start stop) =
      some ((RunningSums.ofWeights weights).divider start stop weight - start) := by
  subst hweight
  have hdivider : (RunningSums.ofWeights weights).divider start stop
      ((RunningSums.ofWeights weights).sectionWeight start stop) =
      min ((RunningSums.ofWeights weights).mid start stop) (stop - 1) := rfl
  have hle : (RunningSums.ofWeights weights).mid start stop ≤ stop :=
    (RunningSums.mid_le_iff (monotone_before_ofWeights hweights) hlt.le le_rfl).mpr
      (half_lt_self hpos)
  rw [cutSlot?, midSlot?_slice hweights hlt.le hstop hpos, Option.map_some, length_slice hstop,
    hdivider]
  congr 1
  split <;> omega

/-! ## Runs -/

/-- A section with weight is narrowed down to the slot that is drawn from it as a part, and with
the same draws. -/
theorem sampleParts_slice (hweights : ∀ w ∈ weights, 0 ≤ w) (start stop : ℕ) (weight : ℚ)
    (hle : start ≤ stop) (hstop : stop < weights.size)
    (hweight : weight = (RunningSums.ofWeights weights).sectionWeight start stop)
    (hpos : 0 < weight) (r : Roller) :
    sampleParts start (slice weights start stop) r =
      (.ok ((RunningSums.ofWeights weights).narrow start stop weight r).1,
        ((RunningSums.ofWeights weights).narrow start stop weight r).2) := by
  induction start, stop, weight using (RunningSums.ofWeights weights).section_induction
    generalizing r with
  | slot start stop weight hlt =>
    rw [RunningSums.narrow_of_not_lt _ weight hlt,
      sampleParts_of_length_eq_one start (by rw [length_slice hstop]; omega)]
  | cut start stop weight hlt ih₁ ih₂ =>
    have hmono := monotone_before_ofWeights hweights
    set s := RunningSums.ofWeights weights
    have hlo := s.le_divider weight hlt
    have hhi := s.divider_lt weight hlt
    have hcut := cutSlot?_slice hweights hlt hstop hweight hpos
    have hfirst : (slice weights start (s.divider start stop weight)).sum =
        s.firstWeight start stop weight := sum_slice hlo
    have hthreshold : s.firstWeight start stop weight / weight * 2 ^ 32 =
        RunningSums.threshold (s.firstWeight start stop weight) weight := by
      rw [RunningSums.threshold, ofNat_rat]
      norm_num
    have hnonneg : 0 ≤ s.firstWeight start stop weight :=
      RunningSums.sectionWeight_nonneg hmono hlo
    have hpart : s.firstWeight start stop weight ≤ weight := by
      rw [hweight]
      exact RunningSums.sectionWeight_le hmono le_rfl (by rw [← hweight]; exact hhi.le)
    rw [s.narrow_of_lt weight hlt, sampleParts_of_cutSlot?_eq_some start
      (by rw [length_slice hstop]; omega) hcut, take_slice hlo hhi.le, drop_slice hlo, hfirst,
      sum_slice hlt.le, ← hweight, hthreshold, show start + (s.divider start stop weight - start) +
        1 = s.divider start stop weight + 1 by omega]
    -- The part that the draw chooses has weight again.
    split
    next hdraw =>
      rw [ofNat_rat, if_pos hdraw]
      exact ih₁ hlo (by omega) rfl
        (weighing_rat.pos_of_draw_lt rfl rfl hnonneg hpart hpos hdraw) r.tail
    next hdraw =>
      have hrest := weighing_rat.lt_of_not_draw_lt rfl rfl hnonneg hpart hpos hdraw
      have hsum := s.firstWeight_add_secondWeight start stop weight
      rw [ofNat_rat, if_neg hdraw]
      exact ih₂ hhi hstop rfl (by linarith) r.tail

/-- Of a table with a positive weight and no negative ones, an index is drawn as the procedure on
the bare weights draws it: on every roller the index is the same, and so are the draws it takes. -/
theorem sampleIndex_eq_sampleParts (weights : Array ℚ) (hweights : ∀ w ∈ weights, 0 ≤ w)
    (hpos : 0 < Arithmetic.sum weights) :
    sampleIndex weights = sampleParts 0 weights.toList := by
  have htotal := total_ofWeights_rat weights
  have hsize : 0 < weights.size := by
    refine Nat.pos_of_ne_zero fun hempty => hpos.ne' ?_
    rw [sum_eq_sum_slotWeight, hempty, Finset.range_zero, Finset.sum_empty]
  have hall : slice weights 0 (weights.size - 1) = weights.toList := by
    rw [slice, Nat.sub_add_cancel hsize, List.extract_eq_take_drop, List.drop_zero]
    exact List.take_of_length_le (by simp)
  refine funext fun r => ?_
  rw [sampleIndex_of_isPositiveFinite (by
    rw [htotal, isPositiveFinite_rat]
    exact decide_eq_true hpos), ← hall]
  exact (sampleParts_slice hweights 0 (weights.size - 1) _ (Nat.zero_le _) (by omega)
    (htotal.trans (sectionWeight_ofWeights weights hsize).symm) (by rwa [htotal]) r).symm

/-- In the first table half of the weight is reached at slots 1 and 2 but not exceeded before slot
3. In the second only the last slot exceeds it, so the cut is one slot earlier. -/
theorem sampleIndex_eq_sampleParts_tie :
    cutSlot? [0, 2, 0, 1, 0, 1, 0] = some 3 ∧ cutSlot? [1, 1, 10] = some 1 ∧
      sampleIndex (#[0, 2, 0, 1, 0, 1, 0] : Array ℚ) = sampleParts 0 [0, 2, 0, 1, 0, 1, 0] ∧
      sampleIndex (#[1, 1, 10] : Array ℚ) = sampleParts 0 [1, 1, 10] :=
  ⟨by decide +kernel, by decide +kernel,
    sampleIndex_eq_sampleParts #[0, 2, 0, 1, 0, 1, 0] (by decide) (by decide +kernel),
    sampleIndex_eq_sampleParts #[1, 1, 10] (by decide) (by decide +kernel)⟩

end DiceOdds
