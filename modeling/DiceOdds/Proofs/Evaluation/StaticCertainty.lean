import DiceOdds.Evaluation.Eval
import DiceOdds.Proofs.Combination

/-!
# Expressions that are certain by their form

Some expressions evaluate to a certain distribution whatever the dice show: literals, calls, and
what parentheses, sums and products make of them. An expression is exact if everything in it that
has to be a number (the count and faces of dice, the argument of `roll`, the target of `prob`) is
certain by its form, so that evaluation has nothing to draw.
-/

namespace DiceOdds

open Arithmetic

variable {α : Type}

/-- Whether an expression is certain by its form: a literal, a call, or a parenthesis, sum or
product of such. -/
def Expr.isCertain : Expr α → Bool
  | int _ | decimal _ | roll _ | avg _ | prob _ _ => true
  | paren e => e.isCertain
  | binary _ .dice _ => false
  | binary l .plus r | binary l .times r => l.isCertain && r.isCertain

/-- Whether at every depth both operands of dice, the argument of `roll` and the target of `prob`
are certain by their form. -/
def Expr.isExact : Expr α → Bool
  | int _ | decimal _ => true
  | paren e | avg e => e.isExact
  | roll e => e.isCertain && e.isExact
  | prob target e => target.isCertain && target.isExact && e.isExact
  | binary l .dice r => l.isCertain && r.isCertain && l.isExact && r.isExact
  | binary l .plus r | binary l .times r => l.isExact && r.isExact

namespace Distribution

variable [Arithmetic α]

/-- A certain distribution resolves to its constant without a draw. -/
theorem resolve_of_isCertain {d : Distribution α} (h : d.isCertain = true) (r : Roller) :
    d.resolve r = (.ok d.constant, r) := by
  unfold resolve sample
  rw [h]
  rfl

/-- A certain distribution is its own roll. -/
theorem roll_of_isCertain {d : Distribution α} (h : d.isCertain = true) (r : Roller) :
    d.roll r = (.ok d, r) := by
  unfold roll
  rw [h]
  rfl

/-- A roll is certain. -/
theorem isCertain_roll {d x : Distribution α} {r r' : Roller}
    (h : d.roll r = (.ok x, r')) : x.isCertain = true := by
  cases hd : d.isCertain with
  | true =>
    rw [roll_of_isCertain hd] at h
    cases h
    exact hd
  | false =>
    simp only [roll, hd, Bool.false_eq_true, if_false] at h
    obtain ⟨v, s, -, hpure⟩ := Rolling.bind_eq_ok.1 h
    rw [← (Rolling.pure_eq_ok.1 hpure).1]
    rfl

/-- A mean is certain. -/
theorem isCertain_mean {d x : Distribution α} (h : d.mean = .ok x) :
    x.isCertain = true := by
  unfold mean at h
  cases hd : d.isCertain with
  | true =>
    rw [hd, if_pos rfl] at h
    rwa [← Except.ok.inj h]
  | false =>
    rw [hd, if_neg (by decide)] at h
    cases hn : d.normalizer with
    | error => rw [hn] at h; cases h
    | ok total =>
      rw [hn] at h
      rw [← Except.ok.inj h]
      rfl

/-- A probability is certain. -/
theorem isCertain_prob {target d x : Distribution α} {r r' : Roller}
    (h : target.prob d r = (.ok x, r')) : x.isCertain = true := by
  obtain ⟨v, s, -, h⟩ := Rolling.bind_eq_ok.1 h
  obtain ⟨p, s', -, h⟩ := Rolling.bind_eq_ok.1 h
  rw [← (Rolling.pure_eq_ok.1 h).1]
  rfl

variable [Memory]

/-- The sum of certain distributions is certain. -/
theorem add_of_isCertain {d e : Distribution α} (hd : d.isCertain = true)
    (he : e.isCertain = true) : d.add e = .ok (certain (d.constant + e.constant)) := by
  obtain ⟨-, hadd⟩ | ⟨h, -⟩ | ⟨h, -⟩ := add_cases d e
  · rw [hadd, Array.isEmpty_iff.1 he, certain]
  · rw [hd] at h
    cases h
  · rw [hd] at h
    cases h

/-- The product of certain distributions is certain. -/
theorem times_of_isCertain {d e : Distribution α} (hd : d.isCertain = true)
    (he : e.isCertain = true) : d.times e = .ok (certain (d.constant * e.constant)) := by
  obtain ⟨-, -, htimes⟩ | ⟨h, -⟩ | ⟨h, -⟩ := times_cases d e
  · exact htimes
  · simp [hd, he] at h
  · simp [hd, he] at h

end Distribution

variable [Arithmetic α] [Memory]

/-- An expression that is certain by its form evaluates to a certain distribution. -/
theorem Expr.eval_isCertain (limits : Limits) :
    ∀ {e : Expr α}, e.isCertain = true → ∀ {r r' : Roller} {d : Distribution α},
      e.eval limits r = (.ok d, r') → d.isCertain = true := by
  intro e
  induction e with
  | int n =>
    intro _ r r' d h
    rw [← (Rolling.pure_eq_ok.1 h).1]
    rfl
  | decimal x =>
    intro _ r r' d h
    rw [← (Rolling.pure_eq_ok.1 h).1]
    rfl
  | paren e ih =>
    intro he r r' d h
    exact ih he h
  | binary l op r ihl ihr =>
    intro he s s' d h
    obtain ⟨left, s₁, hleft, h⟩ := Rolling.bind_eq_ok.1 h
    obtain ⟨right, s₂, hright, h⟩ := Rolling.bind_eq_ok.1 h
    cases op with
    | dice => cases he
    | plus =>
      obtain ⟨hl, hr⟩ := Bool.and_eq_true_iff.1 he
      have hsum := Except.mapError_eq_ok_iff.1 (Rolling.ofExcept_eq_ok.1 h).1
      rw [Distribution.add_of_isCertain (ihl hl hleft) (ihr hr hright)] at hsum
      rw [← Except.ok.inj hsum]
      rfl
    | times =>
      obtain ⟨hl, hr⟩ := Bool.and_eq_true_iff.1 he
      have hproduct := (Rolling.ofExcept_eq_ok.1 h).1
      have hleft' := ihl hl hleft
      have hright' := ihr hr hright
      simp only [Limits.times, Distribution.isUncertain, hleft', hright', Bool.not_true,
        Bool.or_self, Bool.false_eq_true, if_false,
        Distribution.times_of_isCertain hleft' hright'] at hproduct
      rw [← Except.ok.inj hproduct]
      rfl
  | roll e ih =>
    intro _ r r' d h
    obtain ⟨x, s, -, h⟩ := Rolling.bind_eq_ok.1 h
    exact Distribution.isCertain_roll h
  | avg e ih =>
    intro _ r r' d h
    obtain ⟨x, s, -, h⟩ := Rolling.bind_eq_ok.1 h
    exact Distribution.isCertain_mean (Except.mapError_eq_ok_iff.1 (Rolling.ofExcept_eq_ok.1 h).1)
  | prob target e iht ihe =>
    intro _ r r' d h
    obtain ⟨x, s, -, h⟩ := Rolling.bind_eq_ok.1 h
    obtain ⟨y, s', -, h⟩ := Rolling.bind_eq_ok.1 h
    exact Distribution.isCertain_prob h

end DiceOdds
