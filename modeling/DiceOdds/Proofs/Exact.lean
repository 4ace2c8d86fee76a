import Mathlib.Algebra.BigOperators.Group.List.Basic
import Mathlib.Algebra.Order.Floor.Ring
import Mathlib.Data.Rat.Floor
import Mathlib.Tactic.Linarith
import DiceOdds.Arithmetic.Rational

/-!
# Conversions in exact arithmetic

Over the rational numbers the conversions of `Arithmetic` are floors and ceilings: cutting a
fraction off, the test for a whole number, the word of a number, and rounding to the nearest whole
number. These are the facts about them that the laws of tables need.
-/

namespace DiceOdds.Arithmetic

/-- The sum of weights is the sum of a list. -/
theorem sum_rat (xs : Array ℚ) : sum xs = xs.toList.sum := by
  have hfold : ∀ (l : List ℚ) (a : ℚ), l.foldl (· + ·) a = a + l.sum := by
    intro l
    induction l with
    | nil => intro a; rw [List.sum_nil, add_zero]; rfl
    | cons x l ih => intro a; rw [List.foldl_cons, ih, List.sum_cons, add_assoc]
  have h := hfold xs.toList 0
  rw [zero_add, Array.foldl_toList] at h
  exact h

/-- A number that is not negative is cut to its floor. -/
theorem trunc_of_nonneg {x : ℚ} (h : 0 ≤ x) : trunc x = (⌊x⌋ : ℚ) := if_pos h

/-- A negative number is cut to its ceiling. -/
theorem trunc_of_neg {x : ℚ} (h : x < 0) : trunc x = (⌈x⌉ : ℚ) := by
  have hcut : trunc x = (x.ceil : ℚ) := if_neg (not_le.2 h)
  rw [hcut, Rat.ceil_eq_neg_floor_neg]
  rfl

/-- What is left of a number without its fraction is whole. -/
theorem exists_trunc_eq (x : ℚ) : ∃ z : ℤ, trunc x = (z : ℚ) := by
  rcases le_or_gt 0 x with h | h
  · exact ⟨_, trunc_of_nonneg h⟩
  · exact ⟨_, trunc_of_neg h⟩

/-- A whole number has no fraction to cut off. -/
theorem trunc_intCast (z : ℤ) : trunc (z : ℚ) = (z : ℚ) := by
  rcases le_or_gt (0 : ℚ) z with h | h
  · rw [trunc_of_nonneg h, Int.floor_intCast]
  · rw [trunc_of_neg h, Int.ceil_intCast]

/-- The numbers that pass the test are the integers. -/
theorem isWhole_rat_iff (x : ℚ) : isWhole x = true ↔ ∃ z : ℤ, x = z := by
  have h : isWhole x = true ↔ x - trunc x = 0 := beq_iff_eq
  rw [h, sub_eq_zero]
  constructor
  · intro h
    obtain ⟨z, hz⟩ := exists_trunc_eq x
    exact ⟨z, h.trans hz⟩
  · rintro ⟨z, rfl⟩
    exact (trunc_intCast z).symm

/-- The word of an integer is that integer, clamped at both ends. -/
theorem toWord_intCast (z : ℤ) : toWord (z : ℚ) = min z.toNat wordMax := by
  show min (z : ℚ).floor.toNat wordMax = _
  rw [Rat.floor_intCast]

/-- The word of a natural number that fits one is that number. -/
theorem toWord_natCast {n : ℕ} (h : n ≤ wordMax) : toWord (n : ℚ) = n := by
  have hcast : (n : ℚ) = ((n : ℤ) : ℚ) := by norm_cast
  rw [hcast, toWord_intCast, Int.toNat_natCast, min_eq_left h]

/-- The integer nearest to `x`; one half goes away from zero. -/
def nearestInt (x : ℚ) : ℤ := if 0 ≤ x then ⌊x + 1 / 2⌋ else ⌈x - 1 / 2⌉

/-- Rounding by the fraction that is cut off gives the nearest integer. -/
theorem roundHalfAway_rat (x : ℚ) : roundHalfAway x = (nearestInt x : ℚ) := by
  have hround : roundHalfAway x =
      if ((5 : ℕ) : ℚ) / 10 ^ 1 ≤ x - trunc x then trunc x + ((1 : ℕ) : ℚ)
      else if ((5 : ℕ) : ℚ) / 10 ^ 1 ≤ trunc x - x then trunc x - ((1 : ℕ) : ℚ) else trunc x := rfl
  have hhalf : ((5 : ℕ) : ℚ) / 10 ^ 1 = 1 / 2 := by norm_num
  rw [hround, hhalf, Nat.cast_one, nearestInt]
  -- A fraction of one half or more is what carries `x + 1 / 2` past the next integer.
  rcases le_or_gt 0 x with hx | hx
  · rw [trunc_of_nonneg hx, if_pos hx]
    have hlo := Int.floor_le x
    have hhi := Int.lt_floor_add_one x
    split_ifs with h1 h2
    · have h : ⌊x + 1 / 2⌋ = ⌊x⌋ + 1 := by
        rw [Int.floor_eq_iff]
        push_cast
        constructor <;> linarith
      rw [h, Int.cast_add, Int.cast_one]
    · linarith
    · have h : ⌊x + 1 / 2⌋ = ⌊x⌋ := by
        rw [Int.floor_eq_iff]
        constructor <;> linarith
      rw [h]
  · rw [trunc_of_neg hx, if_neg (not_le.2 hx)]
    have hlo := Int.le_ceil x
    have hhi := Int.ceil_lt_add_one x
    split_ifs with h1 h2
    · linarith
    · have h : ⌈x - 1 / 2⌉ = ⌈x⌉ - 1 := by
        rw [Int.ceil_eq_iff]
        push_cast
        constructor <;> linarith
      rw [h, Int.cast_sub, Int.cast_one]
    · have h : ⌈x - 1 / 2⌉ = ⌈x⌉ := by
        rw [Int.ceil_eq_iff]
        constructor <;> linarith
      rw [h]

end DiceOdds.Arithmetic
