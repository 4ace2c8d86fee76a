import DiceOdds.Proofs.Evaluation.StaticCertainty

/-!
# Expressions that do not depend on the dice

Evaluation draws where an operation needs a number and is given a table. In an exact expression no
such operation is given one: what stands there is certain by its form, and so it is certain when it
is evaluated. So the dice have no part in an exact expression (`Expr.drawless_eval`): its
distribution, or its error, is the same whatever they show, and none of them is used up.
-/

namespace DiceOdds

open Arithmetic

variable {α : Type}

/-! ## Computations that take no draw -/

namespace Rolling

variable {ε ε' β γ : Type}

/-- Whether a computation takes no draw, so that its result is the same on every roller. -/
def Drawless (x : Rolling ε β) : Prop := ∃ result, x = ofExcept result

/-- A result takes no draw. -/
theorem drawless_pure (b : β) : Drawless (pure b : Rolling ε β) := ⟨.ok b, rfl⟩

/-- An error takes no draw. -/
theorem drawless_throw (e : ε) : Drawless (throw e : Rolling ε β) := ⟨.error e, rfl⟩

/-- A sequence takes no draw if its first part takes none, and its second takes none after what
the first gives. -/
theorem Drawless.bind {x : Rolling ε β} {f : β → Rolling ε γ} (hx : Drawless x)
    (hf : ∀ b r r', x r = (.ok b, r') → Drawless (f b)) : Drawless (x >>= f) := by
  obtain ⟨result, rfl⟩ := hx
  rcases result with e | b
  · exact ⟨.error e, rfl⟩
  · -- A given result is there on every roller, on one of zeros as well.
    obtain ⟨result, hresult⟩ := hf b (.stepping 0 0) (.stepping 0 0) rfl
    refine ⟨result, funext fun r => ?_⟩
    rw [bind_apply, ← hresult]
    rfl

/-- A computation that takes no draw gives the same on any two rollers. -/
theorem Drawless.apply {x : Rolling ε β} (hx : Drawless x) (r r' : Roller) :
    ∃ result, x r = (result, r) ∧ x r' = (result, r') := by
  obtain ⟨result, rfl⟩ := hx
  exact ⟨result, rfl, rfl⟩

end Rolling

open Rolling

/-! ## Operations that need a number -/

variable [Arithmetic α]

namespace Distribution

variable {d e : Distribution α}

/-- Resolving a certain distribution takes no draw. -/
theorem drawless_resolve (hd : d.isCertain = true) : Drawless d.resolve :=
  ⟨.ok d.constant, funext (resolve_of_isCertain hd)⟩

/-- Rolling a certain distribution takes no draw. -/
theorem drawless_roll (hd : d.isCertain = true) : Drawless d.roll :=
  ⟨.ok d, funext (roll_of_isCertain hd)⟩

/-- Counting a certain number of dice takes no draw. -/
theorem drawless_diceCount (hd : d.isCertain = true) : Drawless d.diceCount := by
  refine (drawless_resolve hd).bind fun value _ _ _ => ?_
  dsimp only
  split
  · exact drawless_pure _
  · exact drawless_throw _

/-- Looking up the probability of a certain number takes no draw. -/
theorem drawless_prob (hd : d.isCertain = true) (e : Distribution α) : Drawless (d.prob e) :=
  (drawless_resolve hd).bind fun _ _ _ _ =>
    Drawless.bind ⟨_, rfl⟩ fun p _ _ _ => drawless_pure (certain p)

end Distribution

/-- A certain number of dice with a certain number of faces takes no draw. -/
theorem Limits.drawless_dice [Memory] (limits : Limits) {d e : Distribution α}
    (hd : d.isCertain = true) (he : e.isCertain = true) : Drawless (limits.dice d e) :=
  (Distribution.drawless_diceCount hd).bind fun count _ _ _ =>
    (Distribution.drawless_diceCount he).bind fun faces _ _ _ =>
      ⟨limits.diceTable count faces, rfl⟩

/-! ## Evaluation -/

namespace Expr

/-- Evaluating an exact expression takes no draw. -/
theorem drawless_eval [Memory] (limits : Limits) {e : Expr α} (he : e.isExact = true) :
    Drawless (e.eval limits) := by
  induction e with
  | int n => exact drawless_pure _
  | decimal x => exact drawless_pure _
  | paren e ih => exact ih he
  | avg e ih => exact (ih he).bind fun d _ _ _ => ⟨_, rfl⟩
  | roll e ih =>
    obtain ⟨hcertain, he⟩ := Bool.and_eq_true_iff.mp he
    exact (ih he).bind fun d _ _ hd =>
      Distribution.drawless_roll (eval_isCertain limits hcertain hd)
  | prob target e iht ihe =>
    obtain ⟨htarget, he⟩ := Bool.and_eq_true_iff.mp he
    obtain ⟨hcertain, htarget⟩ := Bool.and_eq_true_iff.mp htarget
    exact (iht htarget).bind fun x _ _ hx => (ihe he).bind fun d _ _ _ =>
      Distribution.drawless_prob (eval_isCertain limits hcertain hx) d
  | binary left op right ihl ihr =>
    cases op with
    | plus =>
      obtain ⟨hl, hr⟩ := Bool.and_eq_true_iff.mp he
      exact (ihl hl).bind fun x _ _ _ => (ihr hr).bind fun y _ _ _ => ⟨_, rfl⟩
    | times =>
      obtain ⟨hl, hr⟩ := Bool.and_eq_true_iff.mp he
      exact (ihl hl).bind fun x _ _ _ => (ihr hr).bind fun y _ _ _ => ⟨_, rfl⟩
    | dice =>
      obtain ⟨he, hr⟩ := Bool.and_eq_true_iff.mp he
      obtain ⟨he, hl⟩ := Bool.and_eq_true_iff.mp he
      obtain ⟨hcertain, hcertain'⟩ := Bool.and_eq_true_iff.mp he
      exact (ihl hl).bind fun x _ _ hx => (ihr hr).bind fun y _ _ hy =>
        limits.drawless_dice (eval_isCertain limits hcertain hx)
          (eval_isCertain limits hcertain' hy)

/-- Drawing a value of an exact expression that is certain by its form takes no draw either. -/
theorem drawless_evaluate [Memory] (limits : Limits) {e : Expr α} (he : e.isExact = true)
    (hcertain : e.isCertain = true) : Drawless (e.evaluate limits) :=
  (drawless_eval limits he).bind fun _ _ _ hd =>
    (Distribution.drawless_resolve (eval_isCertain limits hcertain hd)).bind fun _ _ _ _ =>
      drawless_pure _

/-- An exact expression evaluates to the same distribution, or to the same error, on any two
rollers, and takes no draw from either. If it is certain by its form, so does drawing a value of
it. -/
theorem eval_eq_of_isExact [Memory] (limits : Limits) (e : Expr α) (he : e.isExact = true)
    (r r' : Roller) :
    (∃ result, e.eval limits r = (result, r) ∧ e.eval limits r' = (result, r')) ∧
    (e.isCertain = true →
      ∃ outcome, e.evaluate limits r = (outcome, r) ∧ e.evaluate limits r' = (outcome, r')) :=
  ⟨(drawless_eval limits he).apply r r', fun hcertain =>
    (drawless_evaluate limits he hcertain).apply r r'⟩

/-- The odds of a 7 with two dice times the mean of one die are the same number whether the dice
would show their lowest or their highest faces, and no die is rolled for it. -/
theorem eval_eq_of_isExact_odds :
    let die (count faces : Int) : Expr Float := .binary (.int count) .dice (.int faces)
    let e : Expr Float := .binary (.prob (.int 7) (die 2 6)) .times (.avg (die 1 6))
    let low := Roller.stepping 0 0
    let high := Roller.stepping 4294967295 0
    e.isExact = true ∧ e.isCertain = true ∧
      (∃ result, e.eval {} low = (result, low) ∧ e.eval {} high = (result, high)) ∧
      ∃ o, e.evaluate {} low = (.ok o, low) ∧ e.evaluate {} high = (.ok o, high) := by
  intro die e low high
  obtain ⟨heval, hevaluate⟩ := eval_eq_of_isExact {} e rfl low high
  obtain ⟨outcome, hlow, hhigh⟩ := hevaluate rfl
  refine ⟨rfl, rfl, heval, ?_⟩
  have hok : (e.evaluate {} low).1.isOk = true := by decide +kernel
  rw [hlow] at hok
  rcases outcome with err | o
  · cases hok
  · exact ⟨o, hlow, hhigh⟩

end Expr

end DiceOdds
