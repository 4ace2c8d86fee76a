import DiceOdds.Arithmetic
import DiceOdds.Sampling.Bisection

/-!
# Running sums of a table of weights

With the sums of all initial parts of a table at hand, the weight of any section of it is one
subtraction, and the place where a section is best cut in two is found by bisection.
-/

namespace DiceOdds

/-- The sums of the initial parts of a table. -/
structure RunningSums (α : Type) where
  /-- For every slot, the weight of the slots before it. -/
  sums : Array α
  /-- The weight of all slots. -/
  total : α
  deriving Repr, BEq

namespace RunningSums

open Arithmetic

variable {α : Type} [Arithmetic α]

/-- The running sums of a table that grows by one slot. -/
@[inline] def push (s : RunningSums α) (weight : α) : RunningSums α :=
  ⟨s.sums.push s.total, s.total + weight⟩

/-- The running sums of a table, added up from its first slot. -/
@[specialize] def ofWeights (weights : Array α) : RunningSums α :=
  weights.foldl push ⟨#[], ofNat 0⟩

/-- The weight of the first `k` slots, or of all if there are fewer. -/
@[inline] def before (s : RunningSums α) (k : Nat) : α := s.sums.getD k s.total

/-! ## Running sums are sums of initial parts -/

/-- The total of a table that grows is added to from where it was. -/
theorem total_foldl_push (weights : List α) (s : RunningSums α) :
    (weights.foldl push s).total = weights.foldl (· + ·) s.total := by
  induction weights generalizing s with
  | nil => rfl
  | cons w weights ih => exact ih (s.push w)

/-- One more slot leaves the sums before the others as they are. -/
theorem before_push_of_lt (s : RunningSums α) (w : α) {k : Nat} (h : k < s.sums.size) :
    (s.push w).before k = s.before k := by
  simp only [push, before, Array.getD_eq_getD_getElem?, Array.getElem?_push_lt h,
    Array.getElem?_eq_getElem h]
  rfl

/-- Before the slot that is added stands all that was there. -/
theorem before_push_size (s : RunningSums α) (w : α) :
    (s.push w).before s.sums.size = s.total := by
  simp [push, before, Array.getD_eq_getD_getElem?]

/-- More slots leave the sums before the others as they are. -/
theorem before_foldl_push_of_lt (weights : List α) (s : RunningSums α) {k : Nat}
    (h : k < s.sums.size) : (weights.foldl push s).before k = s.before k := by
  induction weights generalizing s with
  | nil => rfl
  | cons w weights ih =>
    rw [List.foldl_cons, ih (s.push w) (by simp [push]; omega), before_push_of_lt s w h]

/-- Before slot `k` of those that are added stands what was there, and the first `k` of them. -/
theorem before_foldl_push (weights : List α) (s : RunningSums α) (k : Nat) :
    (weights.foldl push s).before (s.sums.size + k) =
      (weights.take k).foldl (· + ·) s.total := by
  induction weights generalizing s k with
  | nil => simp [before, Array.getD_eq_getD_getElem?]
  | cons w weights ih =>
    rw [List.foldl_cons]
    match k with
    | 0 =>
      rw [Nat.add_zero, before_foldl_push_of_lt weights (s.push w) (by simp [push]),
        before_push_size]
      rfl
    | k + 1 =>
      have := ih (s.push w) k
      simp only [push, Array.size_push] at this
      rw [show s.sums.size + (k + 1) = s.sums.size + 1 + k by omega]
      exact this

/-- The running sums of a table are the sums of its initial parts. -/
theorem before_ofWeights (weights : Array α) (k : Nat) :
    (ofWeights weights).before k = (weights.toList.take k).foldl (· + ·) (ofNat 0) := by
  rw [ofWeights, ← Array.foldl_toList]
  simpa using before_foldl_push weights.toList ⟨#[], ofNat 0⟩ k

/-- The total of the running sums is the sum of all weights. -/
theorem total_ofWeights (weights : Array α) :
    (ofWeights weights).total = weights.toList.foldl (· + ·) (ofNat 0) := by
  rw [ofWeights, ← Array.foldl_toList]
  exact total_foldl_push weights.toList ⟨#[], ofNat 0⟩

/-- The sum before the next slot is that before the slot and the weight of the slot. -/
theorem before_succ (weights : Array α) {k : Nat} (h : k < weights.size) :
    (ofWeights weights).before (k + 1) = (ofWeights weights).before k + weights[k] := by
  rw [before_ofWeights, before_ofWeights, List.take_add_one, List.foldl_append,
    Array.getElem?_toList, Array.getElem?_eq_getElem h]
  rfl

/-- Past the last slot stands the total. -/
theorem before_of_size_le (weights : Array α) {k : Nat} (h : weights.size ≤ k) :
    (ofWeights weights).before k = (ofWeights weights).total := by
  rw [before_ofWeights, total_ofWeights, List.take_of_length_le (by simpa using h)]

/-! ## Sections -/

/-- The weight of the slots from `start` to `stop`, both included. -/
@[inline] def sectionWeight (s : RunningSums α) (start stop : Nat) : α :=
  s.before (stop + 1) - s.before start

/-- Where to cut the section from `start` to `stop`, of weight `weight`, into one that ends at
the divider and one that starts after it. The divider is the first slot at which the weight of
the first part exceeds half of the section, but the last slot always goes to the second part. -/
@[specialize] def divider (s : RunningSums α) (start stop : Nat) (weight : α) : Nat :=
  let base := s.before start
  -- The half is that of the weight at hand, and not of a sum computed again.
  let half := ofDecimal 5 1 * weight
  min (firstFailing (fun i => s.before (i + 1) - base ≤ half) start (stop + 1)) (stop - 1)

/-- A section of two or more slots is cut after its first slot at the earliest. -/
theorem le_divider (s : RunningSums α) {start stop : Nat} (weight : α) (h : start < stop) :
    start ≤ s.divider start stop weight := by
  have := le_firstFailing (fun i => s.before (i + 1) - s.before start ≤ ofDecimal 5 1 * weight)
    start (stop + 1)
  simp only [divider]
  omega

/-- A section of two or more slots is cut before its last slot at the latest. -/
theorem divider_lt (s : RunningSums α) {start stop : Nat} (weight : α) (h : start < stop) :
    s.divider start stop weight < stop := by
  simp only [divider]
  omega

end RunningSums

end DiceOdds
