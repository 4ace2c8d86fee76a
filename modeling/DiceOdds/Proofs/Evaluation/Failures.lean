import DiceOdds.Proofs.Evaluation.Proper
import DiceOdds.Proofs.Grammar.Shape

/-!
# Where evaluation fails

Evaluation fails exactly if it comes to a part whose operands have distributions and whose own
operation fails on them (`eval_fst_eq_error_iff`). The literals of a text are not negative, so in
exact arithmetic the distributions that its evaluation comes by are proper (`Arises.proper`), and
what can fail is what can fail on proper operands (`failures_of_parse`): there may be too little
room for a table, and a number below 1 may shrink a table in a product.
-/

namespace DiceOdds

open Arithmetic

variable {α : Type}

namespace Expr

/-- Whether no literal of an expression is negative. -/
def IsNonneg : Expr ℚ → Prop
  | int n => 0 ≤ n
  | decimal x => 0 ≤ x
  | paren e | roll e | avg e => e.IsNonneg
  | binary left _ right => left.IsNonneg ∧ right.IsNonneg
  | prob target e => target.IsNonneg ∧ e.IsNonneg

/-- A shaped expression has no negative literal, if it has no negative decimal. -/
theorem Shaped.isNonneg {p : Phrase} {e : Expr ℚ} (h : e.Shaped (0 ≤ ·) p) : e.IsNonneg := by
  induction h with
  | int nonneg _ => exact nonneg
  | decimal hx => exact hx
  | paren _ ih | roll _ ih | avg _ ih | ofTerm _ ih | ofDice _ ih | ofProduct _ ih => exact ih
  | prob _ _ ihl ihr | dice _ _ ihl ihr | times _ _ ihl ihr | plus _ _ ihl ihr => exact ⟨ihl, ihr⟩

/-- No literal of a text is negative. -/
theorem isNonneg_of_parse {text : String} {e : Expr ℚ} (h : Expr.parse text = .ok e) :
    e.IsNonneg := by
  refine Shaped.isNonneg (shaped_of_parse (fun digits places => ?_) h)
  rw [ofDecimal_rat]
  positivity

/-! ## The parts that evaluation comes to -/

section Reaches

variable [Arithmetic α] [Memory]

/-- `e.Reaches limits r p s` says that the evaluation of `e` on the draws of `r` comes to its part
`p`, with the draws of `s` left: what stands before `p` has been evaluated without an error. -/
inductive Reaches (limits : Limits) : Expr α → Roller → Expr α → Roller → Prop where
  /-- Evaluation starts with the expression itself. -/
  | self (e : Expr α) (r : Roller) : Reaches limits e r e r
  /-- It goes into a parenthesis. -/
  | paren {e p : Expr α} {r s : Roller} (h : Reaches limits e r p s) :
      Reaches limits (.paren e) r p s
  /-- It goes into the argument of `roll`. -/
  | roll {e p : Expr α} {r s : Roller} (h : Reaches limits e r p s) :
      Reaches limits (.roll e) r p s
  /-- It goes into the argument of `avg`. -/
  | avg {e p : Expr α} {r s : Roller} (h : Reaches limits e r p s) :
      Reaches limits (.avg e) r p s
  /-- It goes into the left operand first. -/
  | left {left right p : Expr α} {op : Operator} {r s : Roller} (h : Reaches limits left r p s) :
      Reaches limits (.binary left op right) r p s
  /-- Once the left operand has a distribution, it goes into the right one. -/
  | right {left right p : Expr α} {op : Operator} {x : Distribution α} {r r' s : Roller}
      (hleft : left.eval limits r = (.ok x, r')) (h : Reaches limits right r' p s) :
      Reaches limits (.binary left op right) r p s
  /-- It goes into the target of `prob` first. -/
  | target {target e p : Expr α} {r s : Roller} (h : Reaches limits target r p s) :
      Reaches limits (.prob target e) r p s
  /-- Once the target has a distribution, it goes into what is looked up. -/
  | lookup {target e p : Expr α} {x : Distribution α} {r r' s : Roller}
      (htarget : target.eval limits r = (.ok x, r')) (h : Reaches limits e r' p s) :
      Reaches limits (.prob target e) r p s

/-- Whether the operation of an expression itself fails with `err`, and not one of its parts. -/
def Fails (limits : Limits) : Expr α → Roller → RollError α → Prop
  | int _, _, _ | decimal _, _, _ | paren _, _, _ => False
  | binary left op right, r, err => ∃ x y s s', left.eval limits r = (.ok x, s) ∧
      right.eval limits s = (.ok y, s') ∧ (limits.operate op x y s').1 = .error err
  | roll e, r, err => ∃ x s, e.eval limits r = (.ok x, s) ∧ (x.roll s).1 = .error err
  | avg e, r, err => ∃ x s, e.eval limits r = (.ok x, s) ∧ (x.avg s).1 = .error err
  | prob target e, r, err => ∃ x y s s', target.eval limits r = (.ok x, s) ∧
      e.eval limits s = (.ok y, s') ∧ (x.prob y s').1 = .error err

/-- An evaluation fails if the operation of the expression itself does. -/
theorem Fails.eval_eq_error {limits : Limits} {e : Expr α} {r : Roller} {err : RollError α}
    (h : e.Fails limits r err) : (e.eval limits r).1 = .error err := by
  cases e with
  | int | decimal | paren => exact h.elim
  | binary left op right =>
    obtain ⟨x, y, s, s', hx, hy, h⟩ := h
    exact Rolling.bind_fst_eq_error.mpr (.inr ⟨x, s, hx,
      Rolling.bind_fst_eq_error.mpr (.inr ⟨y, s', hy, h⟩)⟩)
  | roll e =>
    obtain ⟨x, s, hx, h⟩ := h
    exact Rolling.bind_fst_eq_error.mpr (.inr ⟨x, s, hx, h⟩)
  | avg e =>
    obtain ⟨x, s, hx, h⟩ := h
    exact Rolling.bind_fst_eq_error.mpr (.inr ⟨x, s, hx, h⟩)
  | prob target e =>
    obtain ⟨x, y, s, s', hx, hy, h⟩ := h
    exact Rolling.bind_fst_eq_error.mpr (.inr ⟨x, s, hx,
      Rolling.bind_fst_eq_error.mpr (.inr ⟨y, s', hy, h⟩)⟩)

/-- The error of a part that evaluation comes to is the error of the whole. -/
theorem Reaches.eval_eq_error {limits : Limits} {e p : Expr α} {r s : Roller} {err : RollError α}
    (h : e.Reaches limits r p s) (herr : (p.eval limits s).1 = .error err) :
    (e.eval limits r).1 = .error err := by
  induction h with
  | self => exact herr
  | paren _ ih => exact ih herr
  | roll _ ih => exact Rolling.bind_fst_eq_error.mpr (.inl (ih herr))
  | avg _ ih => exact Rolling.bind_fst_eq_error.mpr (.inl (ih herr))
  | left _ ih => exact Rolling.bind_fst_eq_error.mpr (.inl (ih herr))
  | right hleft _ ih =>
    exact Rolling.bind_fst_eq_error.mpr (.inr ⟨_, _, hleft,
      Rolling.bind_fst_eq_error.mpr (.inl (ih herr))⟩)
  | target _ ih => exact Rolling.bind_fst_eq_error.mpr (.inl (ih herr))
  | lookup htarget _ ih =>
    exact Rolling.bind_fst_eq_error.mpr (.inr ⟨_, _, htarget,
      Rolling.bind_fst_eq_error.mpr (.inl (ih herr))⟩)

/-- An evaluation fails exactly if it comes to a part whose own operation fails. -/
theorem eval_fst_eq_error_iff {limits : Limits} {e : Expr α} {r : Roller} {err : RollError α} :
    (e.eval limits r).1 = .error err ↔
      ∃ p s, e.Reaches limits r p s ∧ p.Fails limits s err := by
  constructor
  · intro h
    induction e generalizing r with
    | int | decimal => cases h
    | paren e ih =>
      obtain ⟨p, s, hreach, hfails⟩ := ih h
      exact ⟨p, s, .paren hreach, hfails⟩
    | roll e ih =>
      obtain h | ⟨x, s, hx, h⟩ := Rolling.bind_fst_eq_error.mp h
      · obtain ⟨p, s, hreach, hfails⟩ := ih h
        exact ⟨p, s, .roll hreach, hfails⟩
      · exact ⟨_, r, .self _ r, x, s, hx, h⟩
    | avg e ih =>
      obtain h | ⟨x, s, hx, h⟩ := Rolling.bind_fst_eq_error.mp h
      · obtain ⟨p, s, hreach, hfails⟩ := ih h
        exact ⟨p, s, .avg hreach, hfails⟩
      · exact ⟨_, r, .self _ r, x, s, hx, h⟩
    | binary left op right ihl ihr =>
      obtain h | ⟨x, s, hx, h⟩ := Rolling.bind_fst_eq_error.mp h
      · obtain ⟨p, s, hreach, hfails⟩ := ihl h
        exact ⟨p, s, .left hreach, hfails⟩
      obtain h | ⟨y, s', hy, h⟩ := Rolling.bind_fst_eq_error.mp h
      · obtain ⟨p, s', hreach, hfails⟩ := ihr h
        exact ⟨p, s', .right hx hreach, hfails⟩
      · exact ⟨_, r, .self _ r, x, y, s, s', hx, hy, h⟩
    | prob target e iht ihe =>
      obtain h | ⟨x, s, hx, h⟩ := Rolling.bind_fst_eq_error.mp h
      · obtain ⟨p, s, hreach, hfails⟩ := iht h
        exact ⟨p, s, .target hreach, hfails⟩
      obtain h | ⟨y, s', hy, h⟩ := Rolling.bind_fst_eq_error.mp h
      · obtain ⟨p, s', hreach, hfails⟩ := ihe h
        exact ⟨p, s', .lookup hx hreach, hfails⟩
      · exact ⟨_, r, .self _ r, x, y, s, s', hx, hy, h⟩
  · rintro ⟨p, s, hreach, hfails⟩
    exact hreach.eval_eq_error hfails.eval_eq_error

/-- `e.Arises limits r d` says that the evaluation of `e` on the draws of `r` comes by the
distribution `d`. -/
inductive Arises (limits : Limits) (e : Expr α) (r : Roller) (d : Distribution α) : Prop where
  /-- A part has this distribution. -/
  | value {p : Expr α} {s s' : Roller} (hreach : e.Reaches limits r p s)
      (hd : p.eval limits s = (.ok d, s'))
  /-- A part adds up dice one after the other, and these are the first `n` of them. -/
  | dice {left right : Expr α} {x y : Distribution α} {s s₁ s₂ s₃ s₄ : Roller} {count : ℕ}
      (n faces : ℕ) (hreach : e.Reaches limits r (.binary left .dice right) s)
      (hleft : left.eval limits s = (.ok x, s₁)) (hright : right.eval limits s₁ = (.ok y, s₂))
      (hcount : x.diceCount s₂ = (.ok count, s₃)) (hfaces : y.diceCount s₃ = (.ok faces, s₄))
      (hn : n ≤ count) (hd : Distribution.uniformSum n faces = .ok d)

end Reaches

/-! ## Proper distributions only -/

section Nonneg

variable [Memory] {limits : Limits} {e p : Expr ℚ} {r s : Roller}

/-- The parts of an expression have no literals but those of the whole. -/
theorem Reaches.isNonneg (h : e.Reaches limits r p s) (he : e.IsNonneg) : p.IsNonneg := by
  induction h with
  | self => exact he
  | paren _ ih | roll _ ih | avg _ ih => exact ih he
  | left _ ih | target _ ih => exact ih he.1
  | right _ _ ih | lookup _ _ ih => exact ih he.2

/-- Without negative literals an expression has a proper distribution, if it has one. -/
theorem proper_eval (he : e.IsNonneg) {r' : Roller} {d : Distribution ℚ}
    (h : e.eval limits r = (.ok d, r')) : d.Proper := by
  induction e generalizing r r' d with
  | int n =>
    rw [← (Rolling.pure_eq_ok.mp h).1]
    exact Distribution.proper_certain (Int.cast_nonneg he)
  | decimal x =>
    rw [← (Rolling.pure_eq_ok.mp h).1]
    exact Distribution.proper_certain he
  | paren e ih => exact ih he h
  | binary left op right ihl ihr =>
    obtain ⟨x, s, hx, h⟩ := Rolling.bind_eq_ok.mp h
    obtain ⟨y, s', hy, h⟩ := Rolling.bind_eq_ok.mp h
    have hyields := limits.yields_operate_proper op (ihl he.1 hx) (ihr he.2 hy) s'
    rwa [h] at hyields
  | roll e ih =>
    obtain ⟨x, s, hx, h⟩ := Rolling.bind_eq_ok.mp h
    obtain ⟨y, s', hy, hproper⟩ := (ih he hx).exists_roll s
    cases hy.symm.trans h
    exact hproper
  | avg e ih =>
    obtain ⟨x, s, hx, h⟩ := Rolling.bind_eq_ok.mp h
    obtain ⟨y, hy, hproper⟩ := (ih he hx).exists_mean
    have hmean := Except.mapError_eq_ok_iff.mp (Rolling.ofExcept_eq_ok.mp h).1
    cases hy.symm.trans hmean
    exact hproper
  | prob target e iht ihe =>
    obtain ⟨x, s, hx, h⟩ := Rolling.bind_eq_ok.mp h
    obtain ⟨y, s', hy, h⟩ := Rolling.bind_eq_ok.mp h
    obtain ⟨z, s'', hz, hproper⟩ := (iht he.1 hx).exists_prob (ihe he.2 hy) s'
    cases hz.symm.trans h
    exact hproper

/-- Without negative literals an evaluation comes by proper distributions only. -/
theorem Arises.proper {d : Distribution ℚ} (h : e.Arises limits r d) (he : e.IsNonneg) :
    d.Proper := by
  rcases h with ⟨hreach, hd⟩ | ⟨n, faces, -, -, -, -, -, -, hd⟩
  · exact proper_eval (hreach.isNonneg he) hd
  · have hyields := Distribution.yields_uniformSum n faces
    rwa [hd] at hyields

/-! ## What is left to fail -/

/-- Whether an expression is a product of which one operand shrinks the other, as they come out on
the draws of `r`. -/
def IsShrinkingProduct (limits : Limits) (e : Expr ℚ) (r : Roller) : Prop :=
  ∃ left right x y s s', e = .binary left .times right ∧ left.eval limits r = (.ok x, s) ∧
    right.eval limits s = (.ok y, s') ∧ (x.Shrinks y ∨ y.Shrinks x)

/-- Without negative literals an operation fails for want of room, or because one operand of a
product shrinks the other. -/
theorem Fails.cause {err : RollError ℚ} (h : e.Fails limits r err) (he : e.IsNonneg) :
    err.IsCapacity ∨ (∃ v n, err = .distribution (.productOutOfRange v n)) ∧
      e.IsShrinkingProduct limits r := by
  cases e with
  | int | decimal | paren => exact h.elim
  | binary left op right =>
    obtain ⟨x, y, s, s', hx, hy, h⟩ := h
    have hyields := limits.yields_operate_proper op (proper_eval he.1 hx) (proper_eval he.2 hy) s'
    rw [h] at hyields
    obtain hcap | ⟨rfl, hrange, hshrinks⟩ := hyields
    · exact .inl hcap
    · exact .inr ⟨hrange, left, right, x, y, s, s', rfl, hx, hy, hshrinks⟩
  | roll e =>
    obtain ⟨x, s, hx, h⟩ := h
    have he : e.IsNonneg := he
    obtain ⟨y, s', hy, -⟩ := (proper_eval he hx).exists_roll s
    rw [hy] at h
    cases h
  | avg e =>
    obtain ⟨x, s, hx, h⟩ := h
    have he : e.IsNonneg := he
    obtain ⟨y, hy, -⟩ := (proper_eval he hx).exists_mean
    unfold Distribution.avg at h
    rw [hy] at h
    cases h
  | prob target e =>
    obtain ⟨x, y, s, s', hx, hy, h⟩ := h
    obtain ⟨z, s'', hz, -⟩ := (proper_eval he.1 hx).exists_prob (proper_eval he.2 hy) s'
    rw [hz] at h
    cases h

/-- Drawing a value of an expression without negative literals fails exactly if evaluating it
does. -/
theorem evaluate_fst_eq_error_iff (he : e.IsNonneg) {err : RollError ℚ} :
    (e.evaluate limits r).1 = .error err ↔ (e.eval limits r).1 = .error err := by
  unfold evaluate
  rw [Rolling.bind_fst_eq_error, or_iff_left]
  rintro ⟨d, s, hd, h⟩
  obtain ⟨v, s', hv, -⟩ := (proper_eval he hd).exists_resolve s
  rw [Rolling.bind_apply, hv] at h
  cases h

end Nonneg

/-- In exact arithmetic the evaluation of a text comes by proper distributions only, whatever the
limits and the draws. So it never fails for want of weight or over a number of dice, and a product
has no slot for its value only where the one operand is a number between 0 and 1, the other a
table, and the number brings the smallest outcome of the table below 1. -/
theorem failures_of_parse [Memory] (limits : Limits) (text : String) (e : Expr ℚ)
    (h : Expr.parse text = .ok e) (r : Roller) :
    (∀ d, e.Arises limits r d → d.Proper) ∧
    ∀ err, (e.evaluate limits r).1 = .error err →
      (∀ total, err ≠ .distribution (.zeroWeight total)) ∧ (∀ v, err ≠ .invalidDice v) ∧
      ∀ v n, err = .distribution (.productOutOfRange v n) →
        ∃ p s, e.Reaches limits r p s ∧ p.Fails limits s err ∧ p.IsShrinkingProduct limits s := by
  have he := isNonneg_of_parse h
  refine ⟨fun d hd => hd.proper he, fun err herr => ?_⟩
  obtain ⟨p, s, hreach, hfails⟩ :=
    eval_fst_eq_error_iff.mp ((evaluate_fst_eq_error_iff he).mp herr)
  obtain hcap | ⟨⟨v, n, rfl⟩, hproduct⟩ := hfails.cause (hreach.isNonneg he)
  · refine ⟨?_, ?_, ?_⟩
    · rintro total rfl
      exact hcap
    · rintro v rfl
      exact hcap
    · rintro v n rfl
      exact hcap.elim
  · exact ⟨fun _ => nofun, fun _ => nofun, fun _ _ _ => ⟨p, s, hreach, hfails, hproduct⟩⟩

/-- Half of one die has no slot for half of a 1, so `0.5*1d6` fails; and the half shrinks the
die. -/
theorem failures_of_parse_half :
    let e : Expr ℚ := .binary (.decimal (1 / 2)) .times (.binary (.int 1) .dice (.int 6))
    let r := Roller.ofStream fun _ => 0
    Expr.parse "0.5*1d6" = .ok e ∧
      (e.evaluate {} r).1 = .error (.distribution (.productOutOfRange (1 / 2) 3)) ∧
      ∃ p s, e.Reaches {} r p s ∧ p.Fails {} s (.distribution (.productOutOfRange (1 / 2) 3)) ∧
        p.IsShrinkingProduct {} s := by
  intro e r
  have hparse : (Expr.parse "0.5*1d6" : Except ParseError (Expr ℚ)) = .ok e := by
    simp only [e]
    cbv
  have hrun : (e.evaluate {} r).1 = .error (.distribution (.productOutOfRange (1 / 2) 3)) := by
    simp only [e, r]
    cbv
  obtain ⟨-, hfailures⟩ := failures_of_parse {} "0.5*1d6" e hparse r
  exact ⟨hparse, hrun, (hfailures _ hrun).2.2 _ _ rfl⟩

end Expr

end DiceOdds
