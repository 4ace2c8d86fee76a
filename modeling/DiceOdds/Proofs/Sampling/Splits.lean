import DiceOdds.Sampling.Draw

/-!
# The splits of a bisection

A draw of a weighted index cuts its section in two until one slot is left. Which splits it meets
depends on the draws only through the slot that comes out: `narrowTraced` is `narrow` that also
notes the splits it meets, and every run of it that ends at slot `i` notes `splitsTo i`, which is
computed from the table alone (`narrowTraced_eq`).

The draws of a run are those that the stream holds from where the roller stands, one for each split
(`narrow_snd`).
-/

namespace DiceOdds

variable {α : Type} [Arithmetic α]

/-- A section that is cut in two, with the share of its weight that the first part has. -/
structure Split (α : Type) where
  /-- The first slot of the section. -/
  start : Nat
  /-- The last slot of the section. -/
  stop : Nat
  /-- The weight of the first part over that of the section. -/
  ratio : α

namespace Roller

/-- The next draw. -/
def head (r : Roller) : UInt32 := r.stream r.taken

/-- The roller without its next draw. -/
def tail (r : Roller) : Roller := { r with taken := r.taken + 1 }

end Roller

namespace RunningSums

open Arithmetic

/-- The weight of the first part of a section that is cut in two. -/
def firstWeight (s : RunningSums α) (start stop : Nat) (weight : α) : α :=
  s.sectionWeight start (s.divider start stop weight)

/-- The weight of the second part of a section that is cut in two. -/
def secondWeight (s : RunningSums α) (start stop : Nat) (weight : α) : α :=
  s.sectionWeight (s.divider start stop weight + 1) stop

/-- The cut of the section from `start` to `stop`, of weight `weight`. -/
def split (s : RunningSums α) (start stop : Nat) (weight : α) : Split α :=
  ⟨start, stop, s.firstWeight start stop weight / weight⟩

/-- The splits on the way to slot `i` from the section from `start` to `stop`, of weight
`weight`. -/
def splitsTo (s : RunningSums α) (start stop : Nat) (weight : α) (i : Nat) : List (Split α) :=
  if h : start < stop then
    have := s.le_divider weight h
    have := s.divider_lt weight h
    s.split start stop weight ::
      if i ≤ s.divider start stop weight then
        s.splitsTo start (s.divider start stop weight) (s.firstWeight start stop weight) i
      else
        s.splitsTo (s.divider start stop weight + 1) stop (s.secondWeight start stop weight) i
  else []
termination_by stop - start

/-- Narrows a section down to one slot as `narrow` does, and notes the splits met on the way. -/
def narrowTraced (s : RunningSums α) (start stop : Nat) (weight : α) :
    StateM Roller (Nat × List (Split α)) :=
  if h : start < stop then do
    let cut := s.divider start stop weight
    have := s.le_divider weight h
    have := s.divider_lt weight h
    let first := s.sectionWeight start cut
    let (i, splits) ←
      if ofNat (← Roller.draw).toNat < threshold first weight then s.narrowTraced start cut first
      else s.narrowTraced (cut + 1) stop (s.sectionWeight (cut + 1) stop)
    return (i, ⟨start, stop, first / weight⟩ :: splits)
  else return (start, [])
termination_by stop - start

/-! ## One split -/

variable (s : RunningSums α)

/-- Induction over the sections that a bisection meets. -/
theorem section_induction {motive : Nat → Nat → α → Prop}
    (slot : ∀ start stop weight, ¬ start < stop → motive start stop weight)
    (cut : ∀ start stop weight, start < stop →
      motive start (s.divider start stop weight) (s.firstWeight start stop weight) →
      motive (s.divider start stop weight + 1) stop (s.secondWeight start stop weight) →
      motive start stop weight) (start stop : Nat) (weight : α) : motive start stop weight :=
  narrow.induct s motive (fun start stop weight h _ _ ih₁ ih₂ => cut start stop weight h ih₁ ih₂)
    slot start stop weight

/-- A section of one slot is that slot, and takes no draw. -/
theorem narrow_of_not_lt {start stop : Nat} (weight : α) (h : ¬ start < stop) (r : Roller) :
    s.narrow start stop weight r = (start, r) := by
  rw [narrow, dif_neg h]
  rfl

/-- A split narrows the part that the next draw chooses. -/
theorem narrow_of_lt {start stop : Nat} (weight : α) (h : start < stop) (r : Roller) :
    s.narrow start stop weight r =
      if ofNat r.head.toNat < threshold (s.firstWeight start stop weight) weight then
        s.narrow start (s.divider start stop weight) (s.firstWeight start stop weight) r.tail
      else
        s.narrow (s.divider start stop weight + 1) stop (s.secondWeight start stop weight)
          r.tail := by
  rw [narrow, dif_pos h]
  exact apply_ite (fun run : StateM Roller Nat => run r.tail) _ _ _

/-- A traced split also notes the split. -/
theorem narrowTraced_of_lt {start stop : Nat} (weight : α) (h : start < stop) (r : Roller) :
    s.narrowTraced start stop weight r =
      let run :=
        if ofNat r.head.toNat < threshold (s.firstWeight start stop weight) weight then
          s.narrowTraced start (s.divider start stop weight) (s.firstWeight start stop weight)
            r.tail
        else
          s.narrowTraced (s.divider start stop weight + 1) stop (s.secondWeight start stop weight)
            r.tail
      ((run.1.1, s.split start stop weight :: run.1.2), run.2) := by
  rw [narrowTraced, dif_pos h]
  dsimp only
  by_cases hdraw : ofNat r.head.toNat < threshold (s.firstWeight start stop weight) weight
  · rw [if_pos hdraw]
    exact congrFun (if_pos hdraw) r.tail
  · rw [if_neg hdraw]
    exact congrFun (if_neg hdraw) r.tail

/-! ## Whole runs -/

/-- The slot that comes out lies in the section. -/
theorem narrow_mem (start stop : Nat) (weight : α) (h : start ≤ stop) (r : Roller) :
    start ≤ (s.narrow start stop weight r).1 ∧ (s.narrow start stop weight r).1 ≤ stop := by
  induction start, stop, weight using s.section_induction generalizing r with
  | cut start stop weight hlt ih₁ ih₂ =>
    have hle := s.le_divider weight hlt
    have hcut := s.divider_lt weight hlt
    rw [narrow_of_lt s weight hlt]
    split
    · have := ih₁ hle r.tail
      omega
    · have := ih₂ hcut r.tail
      omega
  | slot start stop weight hlt =>
    rw [narrow_of_not_lt s weight hlt]
    exact ⟨Nat.le_refl _, h⟩

/-- A run notes the splits on the way to the slot that comes out, and is otherwise as if it noted
nothing. -/
theorem narrowTraced_eq (start stop : Nat) (weight : α) (h : start ≤ stop) (r : Roller) :
    s.narrowTraced start stop weight r =
      (((s.narrow start stop weight r).1,
        s.splitsTo start stop weight (s.narrow start stop weight r).1),
        (s.narrow start stop weight r).2) := by
  induction start, stop, weight using s.section_induction generalizing r with
  | cut start stop weight hlt ih₁ ih₂ =>
    have hle := s.le_divider weight hlt
    have hcut := s.divider_lt weight hlt
    rw [narrow_of_lt s weight hlt, narrowTraced_of_lt s weight hlt, splitsTo, dif_pos hlt]
    dsimp only
    split
    · rw [ih₁ hle r.tail, if_pos (s.narrow_mem _ _ _ hle r.tail).2]
    · -- The slot lies past the divider, so the way to it goes through the second part too.
      have hpast := (s.narrow_mem (s.divider start stop weight + 1) stop
        (s.secondWeight start stop weight) hcut r.tail).1
      rw [ih₂ hcut r.tail, if_neg (by omega)]
  | slot start stop weight hlt =>
    rw [narrow_of_not_lt s weight hlt, splitsTo, dif_neg hlt, narrowTraced, dif_neg hlt]
    rfl

/-- A run takes one draw for each split. -/
theorem narrow_snd (start stop : Nat) (weight : α) (h : start ≤ stop) (r : Roller) :
    (s.narrow start stop weight r).2 =
      ⟨r.stream, r.taken +
        (s.splitsTo start stop weight (s.narrow start stop weight r).1).length⟩ := by
  induction start, stop, weight using s.section_induction generalizing r with
  | cut start stop weight hlt ih₁ ih₂ =>
    have hle := s.le_divider weight hlt
    have hcut := s.divider_lt weight hlt
    rw [narrow_of_lt s weight hlt, splitsTo, dif_pos hlt, List.length_cons]
    split
    · rw [ih₁ hle r.tail, if_pos (s.narrow_mem _ _ _ hle r.tail).2]
      simp only [Roller.tail, Roller.mk.injEq, true_and]
      omega
    · have hpast := (s.narrow_mem (s.divider start stop weight + 1) stop
        (s.secondWeight start stop weight) hcut r.tail).1
      rw [ih₂ hcut r.tail, if_neg (by omega)]
      simp only [Roller.tail, Roller.mk.injEq, true_and]
      omega
  | slot start stop weight hlt =>
    rw [narrow_of_not_lt s weight hlt, splitsTo, dif_neg hlt]
    rfl

/-- On the way to a slot there are fewer splits than the section has slots. -/
theorem length_splitsTo_le (start stop : Nat) (weight : α) (i : Nat) :
    (s.splitsTo start stop weight i).length ≤ stop - start := by
  induction start, stop, weight using s.section_induction with
  | cut start stop weight hlt ih₁ ih₂ =>
    have hle := s.le_divider weight hlt
    have hcut := s.divider_lt weight hlt
    rw [splitsTo, dif_pos hlt, List.length_cons]
    split <;> omega
  | slot start stop weight hlt =>
    rw [splitsTo, dif_neg hlt]
    exact Nat.zero_le _

/-- What comes out depends only on the draws that are left. -/
theorem narrow_fst_drop (start stop : Nat) (weight : α) (stream : Nat → UInt32) (k n : Nat) :
    (s.narrow start stop weight ⟨stream, k + n⟩).1 =
      (s.narrow start stop weight ⟨fun m => stream (k + m), n⟩).1 := by
  induction start, stop, weight using s.section_induction generalizing n with
  | cut start stop weight hlt ih₁ ih₂ =>
    rw [narrow_of_lt s weight hlt, narrow_of_lt s weight hlt, apply_ite Prod.fst,
      apply_ite Prod.fst]
    -- The draws are the same, so only the rollers that are left have to be compared.
    have h₁ := ih₁ (n + 1)
    have h₂ := ih₂ (n + 1)
    simp only [Roller.tail, Roller.head, ← h₁, ← h₂]
    rfl
  | slot start stop weight hlt => rw [narrow_of_not_lt s weight hlt, narrow_of_not_lt s weight hlt]

end RunningSums

/-! ## Drawing from a table -/

open Arithmetic

/-- The splits on the way to slot `i` of a table. -/
def splitsTo (weights : Array α) (i : Nat) : List (Split α) :=
  let sums := RunningSums.ofWeights weights
  sums.splitsTo 0 (weights.size - 1) sums.total i

/-- Draws an index as `sampleIndex` does, and notes the splits met on the way. -/
def sampleIndexTraced (weights : Array α) :
    Rolling (DistributionError α) (Nat × List (Split α)) :=
  let sums := RunningSums.ofWeights weights
  if isPositiveFinite sums.total then
    ExceptT.lift (sums.narrowTraced 0 (weights.size - 1) sums.total)
  else throw (.zeroWeight sums.total)

/-- An index is drawn by narrowing the whole table, if that weighs anything. -/
theorem sampleIndex_of_isPositiveFinite {weights : Array α}
    (h : isPositiveFinite (RunningSums.ofWeights weights).total = true) (r : Roller) :
    sampleIndex weights r =
      let sums := RunningSums.ofWeights weights
      let run := sums.narrow 0 (weights.size - 1) sums.total r
      (.ok run.1, run.2) := by
  unfold sampleIndex
  simp only [h, if_true]
  rfl

/-- A table that cannot be divided by its total is refused, and no draw is taken. -/
theorem sampleIndex_of_not_isPositiveFinite {weights : Array α}
    (h : ¬ isPositiveFinite (RunningSums.ofWeights weights).total = true) (r : Roller) :
    sampleIndex weights r = (.error (.zeroWeight (RunningSums.ofWeights weights).total), r) := by
  unfold sampleIndex
  simp only [h]
  rfl

/-- The index that is drawn is one of the table. -/
theorem lt_of_sampleIndex_eq_ok {weights : Array α} (hsize : 0 < weights.size) {i : Nat}
    {r r' : Roller} (h : sampleIndex weights r = (.ok i, r')) : i < weights.size := by
  by_cases hpos : isPositiveFinite (RunningSums.ofWeights weights).total = true
  · rw [sampleIndex_of_isPositiveFinite hpos, Prod.mk.injEq, Except.ok.injEq] at h
    have hmem := (RunningSums.ofWeights weights).narrow_mem 0 (weights.size - 1)
      (RunningSums.ofWeights weights).total (Nat.zero_le _) r
    rw [h.1] at hmem
    omega
  · rw [sampleIndex_of_not_isPositiveFinite hpos] at h
    cases h

/-- However the draws fall, a run that ends at slot `i` meets the splits on the way to `i`. -/
theorem sampleIndexTraced_of_eq_ok {weights : Array α} {i : Nat} {r r' : Roller}
    (h : sampleIndex weights r = (.ok i, r')) :
    sampleIndexTraced weights r = (.ok (i, splitsTo weights i), r') := by
  by_cases hpos : isPositiveFinite (RunningSums.ofWeights weights).total = true
  · rw [sampleIndex_of_isPositiveFinite hpos, Prod.mk.injEq, Except.ok.injEq] at h
    obtain ⟨rfl, rfl⟩ := h
    unfold sampleIndexTraced
    simp only [hpos, if_true]
    have htraced := (RunningSums.ofWeights weights).narrowTraced_eq 0 (weights.size - 1)
      (RunningSums.ofWeights weights).total (Nat.zero_le _) r
    exact congrArg (fun run => (Except.ok run.1, run.2)) htraced
  · rw [sampleIndex_of_not_isPositiveFinite hpos] at h
    cases h

end DiceOdds
