import Mathlib.Algebra.BigOperators.Finsupp.Basic
import Mathlib.Algebra.Order.BigOperators.Group.Finset
import Mathlib.Algebra.Order.Ring.Rat
import Mathlib.Data.Set.NAry
import Mathlib.Tactic.Positivity
import DiceOdds.Proofs.Law.Basic

/-!
# Which values a law allows

A law is on a set of integers if no probability is negative and only integers of the set have one.
Combining independent laws combines their sets, so the sum of dice is on the sums of throws, one
throw for every die.
-/

namespace DiceOdds.Law

open Finset

/-- Whether a law gives positive probabilities to integers of `S`, and none to anything else. -/
structure On (l : Law) (S : Set ℤ) : Prop where
  /-- No probability is negative. -/
  nonneg : ∀ v, 0 ≤ l v
  /-- What has a probability is an integer of the set. -/
  mem : ∀ v, l v ≠ 0 → ∃ z ∈ S, v = (z : ℚ)

variable {l m : Law} {S T : Set ℤ}

/-- A law on a set is on every set that includes it. -/
theorem On.mono (h : l.On S) (hsub : S ⊆ T) : l.On T where
  nonneg := h.nonneg
  mem v hv := by
    obtain ⟨z, hz, rfl⟩ := h.mem v hv
    exact ⟨z, hsub hz, rfl⟩

/-- A law that gives anything is on a set that is not empty. -/
theorem On.nonempty (h : l.On S) (htotal : l.total ≠ 0) : S.Nonempty := by
  obtain ⟨v, -, hv⟩ := Finset.exists_ne_zero_of_sum_ne_zero htotal
  obtain ⟨z, hz, -⟩ := h.mem v hv
  exact ⟨z, hz⟩

/-- Outcomes given one by one are on a set that has them all. -/
theorem on_sum {ι : Type} (s : Finset ι) (z : ι → ℤ) (p : ι → ℚ) (hp : ∀ i ∈ s, 0 ≤ p i)
    (hz : ∀ i ∈ s, z i ∈ S) : On (∑ i ∈ s, Finsupp.single (z i : ℚ) (p i)) S where
  nonneg v := by
    rw [sum_single_apply]
    refine sum_nonneg fun i hi => ?_
    split_ifs
    · exact hp i hi
    · exact le_rfl
  mem v hv := by
    rw [sum_single_apply] at hv
    obtain ⟨i, hi, hne⟩ := exists_ne_zero_of_sum_ne_zero hv
    exact ⟨z i, hz i hi, (ite_ne_right_iff.mp hne).1.symm⟩

/-- A point mass at an integer is on every set that has it. -/
theorem on_point {z : ℤ} (h : z ∈ S) : On (point z) S := by
  simpa [point] using on_sum {()} (fun _ => z) (fun _ => 1) (by simp) (by simpa using h)

/-- The probability of a value of independent operands adds up the pairs that give it. -/
theorem combine_apply (op : ℚ → ℚ → ℚ) (l m : Law) (v : ℚ) :
    combine op l m v = ∑ x ∈ l.support, ∑ y ∈ m.support, if op x y = v then l x * m y else 0 := by
  unfold combine Finsupp.sum
  rw [Finsupp.finsetSum_apply]
  refine sum_congr rfl fun x _ => ?_
  rw [Finsupp.finsetSum_apply]
  exact sum_congr rfl fun y _ => Finsupp.single_apply

/-- An operation on independent operands takes the values that it takes on their values. -/
theorem On.combine (hl : l.On S) (hm : m.On T) {op : ℚ → ℚ → ℚ} (f : ℤ → ℤ → ℤ)
    (hop : ∀ x y : ℤ, op x y = f x y) : On (combine op l m) (Set.image2 f S T) where
  nonneg v := by
    rw [combine_apply]
    refine sum_nonneg fun x _ => sum_nonneg fun y _ => ?_
    split_ifs
    · exact mul_nonneg (hl.nonneg x) (hm.nonneg y)
    · exact le_rfl
  mem v hv := by
    rw [combine_apply] at hv
    obtain ⟨x, hx, hne⟩ := exists_ne_zero_of_sum_ne_zero hv
    obtain ⟨y, hy, hne⟩ := exists_ne_zero_of_sum_ne_zero hne
    obtain ⟨a, ha, rfl⟩ := hl.mem x (Finsupp.mem_support_iff.mp hx)
    obtain ⟨b, hb, rfl⟩ := hm.mem y (Finsupp.mem_support_iff.mp hy)
    exact ⟨f a b, Set.mem_image2_of_mem ha hb, (ite_ne_right_iff.mp hne).1.symm.trans (hop a b)⟩

/-- One die shows a whole number from 1 to the number of its faces. -/
theorem on_die (faces : ℕ) : On (die faces) {x | 1 ≤ x ∧ x ≤ faces} := by
  have hcast (k : ℕ) : (k : ℚ) + 1 = ((k + 1 : ℤ) : ℚ) := by push_cast; rfl
  simp only [die, hcast]
  refine on_sum (range faces) (fun k => (k : ℤ) + 1) (fun _ => 1 / faces)
    (fun _ _ => by positivity) fun k hk => ?_
  have := mem_range.mp hk
  show 1 ≤ (k : ℤ) + 1 ∧ (k : ℤ) + 1 ≤ faces
  omega

/-- Some dice show a throw of each, added up. -/
theorem on_dice (count faces : ℕ) : On (dice count faces)
    {z | ∃ throws : List ℤ, throws.length = count ∧ (∀ x ∈ throws, 1 ≤ x ∧ x ≤ faces) ∧
      throws.sum = z} := by
  induction count with
  | zero =>
    have h : (0 : ℤ) ∈ {z : ℤ | ∃ throws : List ℤ, throws.length = 0 ∧
        (∀ x ∈ throws, 1 ≤ x ∧ x ≤ (faces : ℤ)) ∧ throws.sum = z} := ⟨[], by simp⟩
    simpa [dice] using on_point h
  | succ count ih =>
    refine (ih.combine (on_die faces) (· + ·) fun x y => by push_cast; rfl).mono ?_
    rintro _ ⟨_, ⟨throws, hlength, hthrows, rfl⟩, x, hx, rfl⟩
    -- The last die is thrown after those that are there already.
    refine ⟨x :: throws, ?_, ?_, ?_⟩
    · rw [List.length_cons, hlength]
    · exact List.forall_mem_cons.mpr ⟨hx, hthrows⟩
    · rw [List.sum_cons, add_comm]

end DiceOdds.Law
