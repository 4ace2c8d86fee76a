/-!
# Bisection

The first index of a range at which a test fails, when the test holds up to some index and fails
from there on.
-/

namespace DiceOdds

/-- The least index from `lo` up to but not including `hi` at which `test` fails, or `hi` if it
fails nowhere. The range is halved around an index in its middle, so the answer is that of a scan
only for a test that never holds again once it has failed. -/
@[specialize] def firstFailing (test : Nat → Bool) (lo hi : Nat) : Nat :=
  if lo < hi then
    let mid := (lo + hi) / 2
    if test mid then firstFailing test (mid + 1) hi else firstFailing test lo mid
  else lo
termination_by hi - lo

/-- The answer is not below the range. -/
theorem le_firstFailing (test : Nat → Bool) (lo hi : Nat) : lo ≤ firstFailing test lo hi := by
  fun_induction firstFailing test lo hi with
  | case1 => omega
  | case2 => omega
  | case3 => omega

/-- The answer is not above the range. -/
theorem firstFailing_le (test : Nat → Bool) (lo hi : Nat) (h : lo ≤ hi) :
    firstFailing test lo hi ≤ hi := by
  fun_induction firstFailing test lo hi with
  | case1 => omega
  | case2 => omega
  | case3 => omega

/-- Every index before the answer passes a test that never holds again once it has failed. -/
theorem test_of_lt_firstFailing {test : Nat → Bool} (hmono : ∀ i j, i ≤ j → test j → test i)
    {lo hi : Nat} {i : Nat} (hlo : lo ≤ i) (hi' : i < firstFailing test lo hi) : test i := by
  fun_induction firstFailing test lo hi with
  | case1 lo hi _ mid htest ih =>
    by_cases h : mid < i
    · exact ih h hi'
    · exact hmono i mid (by omega) htest
  | case2 lo hi _ mid htest ih => exact ih hlo hi'
  | case3 => omega

/-- The test fails at the answer, if that is an index of the range. -/
theorem not_test_firstFailing {test : Nat → Bool} {lo hi : Nat}
    (h : firstFailing test lo hi < hi) : ¬ test (firstFailing test lo hi) := by
  fun_induction firstFailing test lo hi with
  | case1 lo hi _ mid htest ih => exact ih h
  | case2 lo hi hlt mid htest ih =>
    by_cases hmid : firstFailing test lo mid < mid
    · exact ih hmid
    · have := firstFailing_le test lo mid (by omega)
      rwa [show firstFailing test lo mid = mid by omega]
  | case3 => omega

end DiceOdds
