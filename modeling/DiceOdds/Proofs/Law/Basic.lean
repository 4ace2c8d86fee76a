import Mathlib.Algebra.BigOperators.Finsupp.Basic
import Mathlib.Algebra.BigOperators.Ring.Finset
import Mathlib.Algebra.Field.Rat
import Mathlib.Algebra.Order.Ring.Unbundled.Rat
import Mathlib.Data.Finsupp.SMul
import Mathlib.Tactic.Ring

/-!
# Laws

A `Law` gives finitely many rational outcomes a probability each. The laws of dice expressions are
built from point masses and single dice by combining independent outcomes, and nothing here knows
of tables or slots: a law is what a table is compared with.
-/

namespace DiceOdds

/-- A law: every outcome with its probability, of which only finitely many are not 0. -/
abbrev Law := ℚ →₀ ℚ

namespace Law

open Finset

/-- The law of a single certain outcome. -/
noncomputable def point (v : ℚ) : Law := Finsupp.single v 1

/-- The law of `op X Y` for independent `X` and `Y`. -/
noncomputable def combine (op : ℚ → ℚ → ℚ) (l m : Law) : Law :=
  l.sum fun v p => m.sum fun w q => Finsupp.single (op v w) (p * q)

/-- The law of one fair die: the whole numbers from 1 to `faces`, all equally likely. -/
noncomputable def die (faces : ℕ) : Law :=
  ∑ k ∈ range faces, Finsupp.single ((k : ℚ) + 1) (1 / faces)

/-- The law of the sum of `count` independent fair dice. -/
noncomputable def dice : ℕ → ℕ → Law
  | 0, _ => point 0
  | count + 1, faces => combine (· + ·) (dice count faces) (die faces)

/-- The mean of the outcomes. -/
noncomputable def mean (l : Law) : ℚ := l.sum fun v p => v * p

/-- The sum of all probabilities. -/
noncomputable def total (l : Law) : ℚ := l.sum fun _ p => p

/-! ## Combination is additive -/

/-- Combination adds up over the left operand. -/
theorem combine_add_left (op : ℚ → ℚ → ℚ) (l l' m : Law) :
    combine op (l + l') m = combine op l m + combine op l' m := by
  unfold combine
  rw [Finsupp.sum_add_index']
  · intro a
    simp only [zero_mul, Finsupp.single_zero, Finsupp.sum_fun_zero]
  · intro a b c
    simp only [add_mul, Finsupp.single_add, Finsupp.sum_add]

/-- Combination of an outcome with a law. -/
theorem combine_single_left (op : ℚ → ℚ → ℚ) (v p : ℚ) (m : Law) :
    combine op (Finsupp.single v p) m = m.sum fun w q => Finsupp.single (op v w) (p * q) := by
  unfold combine
  rw [Finsupp.sum_single_index]
  simp only [zero_mul, Finsupp.single_zero, Finsupp.sum_fun_zero]

/-- Combination of an outcome adds up over the right operand. -/
theorem combine_single_add (op : ℚ → ℚ → ℚ) (v p : ℚ) (m m' : Law) :
    combine op (Finsupp.single v p) (m + m') =
      combine op (Finsupp.single v p) m + combine op (Finsupp.single v p) m' := by
  simp only [combine_single_left]
  refine Finsupp.sum_add_index' (fun a => ?_) fun a b c => ?_
  · rw [mul_zero, Finsupp.single_zero]
  · rw [mul_add, Finsupp.single_add]

/-- Two outcomes combine to one with the product of their probabilities. -/
theorem combine_single_single (op : ℚ → ℚ → ℚ) (v p w q : ℚ) :
    combine op (Finsupp.single v p) (Finsupp.single w q) =
      Finsupp.single (op v w) (p * q) := by
  rw [combine_single_left, Finsupp.sum_single_index]
  rw [mul_zero, Finsupp.single_zero]

/-- Nothing combines to nothing. -/
theorem combine_zero_left (op : ℚ → ℚ → ℚ) (m : Law) : combine op 0 m = 0 :=
  Finsupp.sum_zero_index

/-- An outcome combines with nothing to nothing. -/
theorem combine_single_zero (op : ℚ → ℚ → ℚ) (v p : ℚ) :
    combine op (Finsupp.single v p) 0 = 0 := by
  rw [combine_single_left]
  exact Finsupp.sum_zero_index

/-- The totals of combined laws multiply. -/
theorem total_combine (op : ℚ → ℚ → ℚ) (l m : Law) :
    (combine op l m).total = l.total * m.total := by
  unfold combine total
  rw [Finsupp.sum_sum_index (fun _ => rfl) fun _ _ _ => rfl, Finsupp.sum_mul]
  refine Finsupp.sum_congr fun v _ => ?_
  rw [Finsupp.sum_sum_index (fun _ => rfl) fun _ _ _ => rfl, Finsupp.mul_sum]
  exact Finsupp.sum_congr fun w _ => Finsupp.sum_single_index rfl

/-! ## Laws given by their outcomes -/

variable {ι κ : Type}

/-- Outcomes that are combined one by one: every pair has the product of its probabilities. -/
theorem combine_sum_sum (op : ℚ → ℚ → ℚ) (s : Finset ι) (t : Finset κ) (v p : ι → ℚ)
    (w q : κ → ℚ) :
    combine op (∑ i ∈ s, Finsupp.single (v i) (p i)) (∑ j ∈ t, Finsupp.single (w j) (q j)) =
      ∑ i ∈ s, ∑ j ∈ t, Finsupp.single (op (v i) (w j)) (p i * q j) := by
  -- Additivity takes the right operand apart first, for a single outcome on the left.
  have hright : ∀ i (t : Finset κ),
      combine op (Finsupp.single (v i) (p i)) (∑ j ∈ t, Finsupp.single (w j) (q j)) =
        ∑ j ∈ t, Finsupp.single (op (v i) (w j)) (p i * q j) := by
    classical
    intro i t
    induction t using Finset.induction_on with
    | empty => rw [sum_empty, sum_empty, combine_single_zero]
    | insert j t hj ih =>
      rw [sum_insert hj, sum_insert hj, combine_single_add, combine_single_single, ih]
  classical
  induction s using Finset.induction_on with
  | empty => rw [sum_empty, sum_empty, combine_zero_left]
  | insert i s hi ih => rw [sum_insert hi, sum_insert hi, combine_add_left, hright, ih]

/-- A point mass on the left only applies the operation. -/
theorem combine_point_sum (op : ℚ → ℚ → ℚ) (x : ℚ) (t : Finset κ) (w q : κ → ℚ) :
    combine op (point x) (∑ j ∈ t, Finsupp.single (w j) (q j)) =
      ∑ j ∈ t, Finsupp.single (op x (w j)) (q j) := by
  have h := combine_sum_sum op {()} t (fun _ => x) (fun _ => 1) w q
  unfold point
  simpa only [sum_singleton, one_mul] using h

/-- A point mass on the right only applies the operation. -/
theorem combine_sum_point (op : ℚ → ℚ → ℚ) (s : Finset ι) (v p : ι → ℚ) (y : ℚ) :
    combine op (∑ i ∈ s, Finsupp.single (v i) (p i)) (point y) =
      ∑ i ∈ s, Finsupp.single (op (v i) y) (p i) := by
  have h := combine_sum_sum op s {()} v p (fun _ => y) (fun _ => 1)
  unfold point
  simpa only [sum_singleton, mul_one] using h

/-- Two point masses combine to a point mass. -/
theorem combine_point_point (op : ℚ → ℚ → ℚ) (x y : ℚ) :
    combine op (point x) (point y) = point (op x y) := by
  have h := combine_point_sum op x {()} (fun _ => y) (fun _ => 1)
  simpa only [sum_singleton, point] using h

/-- One die, as a sum of dice, is that die. -/
theorem dice_one (faces : ℕ) : dice 1 faces = die faces := by
  show combine (· + ·) (point 0) (die faces) = die faces
  unfold die
  rw [combine_point_sum]
  simp only [zero_add]

/-- The mean of outcomes given one by one. -/
theorem mean_sum (s : Finset ι) (v p : ι → ℚ) :
    mean (∑ i ∈ s, Finsupp.single (v i) (p i)) = ∑ i ∈ s, v i * p i := by
  unfold mean
  rw [← Finsupp.sum_finsetSum_index (fun a => mul_zero a) (fun a => mul_add a)]
  exact sum_congr rfl fun i _ => Finsupp.sum_single_index (mul_zero _)

/-- The mean of a single outcome. -/
theorem mean_point (x : ℚ) : mean (point x) = x := by
  unfold mean point
  rw [Finsupp.sum_single_index (mul_zero x), mul_one]

/-- The probability of `x` under a law given by its outcomes. -/
theorem sum_single_apply (s : Finset ι) (v p : ι → ℚ) (x : ℚ) :
    (∑ i ∈ s, Finsupp.single (v i) (p i)) x = ∑ i ∈ s, if v i = x then p i else 0 := by
  rw [Finsupp.finsetSum_apply]
  exact sum_congr rfl fun i _ => Finsupp.single_apply

/-- The total of outcomes given one by one. -/
theorem total_sum (s : Finset ι) (v p : ι → ℚ) :
    total (∑ i ∈ s, Finsupp.single (v i) (p i)) = ∑ i ∈ s, p i := by
  unfold total
  rw [← Finsupp.sum_finsetSum_index (fun _ => rfl) (fun _ _ _ => rfl)]
  exact sum_congr rfl fun i _ => Finsupp.sum_single_index rfl

/-- The law that a list of outcomes with their probabilities is. -/
noncomputable def ofEntries (entries : List (ℚ × ℚ)) : Law :=
  (entries.map fun e => Finsupp.single e.1 e.2).sum

/-- Two lists combine entry by entry. -/
theorem combine_ofEntries (op : ℚ → ℚ → ℚ) (l m : List (ℚ × ℚ)) :
    combine op (ofEntries l) (ofEntries m) =
      (l.map fun a => (m.map fun b => Finsupp.single (op a.1 b.1) (a.2 * b.2)).sum).sum := by
  have hright : ∀ (a : ℚ × ℚ) (m : List (ℚ × ℚ)),
      combine op (Finsupp.single a.1 a.2) (ofEntries m) =
        (m.map fun b => Finsupp.single (op a.1 b.1) (a.2 * b.2)).sum := by
    intro a m
    unfold ofEntries
    induction m with
    | nil => rw [List.map_nil, List.map_nil, List.sum_nil, combine_single_zero]
    | cons b m ih =>
      rw [List.map_cons, List.map_cons, List.sum_cons, List.sum_cons, combine_single_add,
        combine_single_single, ih]
  unfold ofEntries at hright ⊢
  induction l with
  | nil => rw [List.map_nil, List.map_nil, List.sum_nil, combine_zero_left]
  | cons a l ih =>
    rw [List.map_cons, List.map_cons, List.sum_cons, List.sum_cons, combine_add_left, hright, ih]

end Law

end DiceOdds
