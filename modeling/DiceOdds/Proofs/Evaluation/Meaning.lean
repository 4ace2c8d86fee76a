import Mathlib
import DiceOdds.Proofs.Evaluation.Caps
import DiceOdds.Proofs.Evaluation.StaticCertainty
import DiceOdds.Proofs.Law.Product
import DiceOdds.Proofs.Law.Reduction
import DiceOdds.Proofs.Law.Sum

/-!
# The law of an expression

The meaning of an expression is a number or a law, built from point masses and dice by combining
independent operands; no table occurs in it. Where evaluation of an exact expression succeeds, it
computes that meaning: `eval_realizes` relates the distribution to the meaning at every
subexpression, and `probabilityAt_eval` reads the probability of each value off the result.

The meaning keeps numbers apart from laws because the operations do: a product of two numbers is
exact, while a product with a table is cut to whole numbers, and a number 0 times a table is the
number 0.
-/

namespace DiceOdds

open Arithmetic

/-- What an expression stands for: a number, or a random outcome with its law. -/
inductive Meaning where
  /-- A number. -/
  | certain (x : ℚ)
  /-- A random outcome. -/
  | random (law : Law)

namespace Meaning

/-- The law of a meaning: that of a number is a point mass. -/
noncomputable def law : Meaning → Law
  | certain x => Law.point x
  | random l => l

/-- The number that a meaning is, or 0 if it is random. -/
def value : Meaning → ℚ
  | certain x => x
  | random _ => 0

/-- The sum of independent meanings. -/
noncomputable def add : Meaning → Meaning → Meaning
  | certain x, certain y => certain (x + y)
  | m, n => random (Law.combine (· + ·) m.law n.law)

/-- The product of independent meanings. It is cut to whole numbers unless both are numbers. -/
noncomputable def times : Meaning → Meaning → Meaning
  | certain x, certain y => certain (x * y)
  | certain x, random l => if x = 0 then certain 0 else random (Law.product (Law.point x) l)
  | random l, certain y => if y = 0 then certain 0 else random (Law.product l (Law.point y))
  | random l, random l' => random (Law.product l l')

/-- The sum of `count` dice with `faces` faces, which is the number 0 without dice or faces. -/
noncomputable def dice (count faces : ℕ) : Meaning :=
  if count = 0 ∨ faces = 0 then certain 0 else random (Law.dice count faces)

end Meaning

/-- The number of dice or faces that a meaning stands for. -/
def Meaning.diceCount (m : Meaning) : ℕ := (nearestInt m.value).toNat

/-- Counts that are clamped to a word give the same dice if the clamped counts keep within a cap
that is smaller than the largest word. -/
theorem Meaning.dice_min {m count faces count' faces' : ℕ} (hm : m < wordMax)
    (hcount : count = min count' wordMax) (hfaces : faces = min faces' wordMax)
    (hcap : count ≠ 0 → faces ≠ 0 → count * faces ≤ m) :
    dice count faces = dice count' faces' := by
  have hword : 0 < wordMax := by decide
  by_cases hzero : count = 0 ∨ faces = 0
  · -- A count that is clamped to 0 was 0 before.
    rw [dice, dice, if_pos hzero, if_pos (by omega)]
  · -- Neither count exceeds the product, so neither was clamped.
    obtain ⟨hc, hf⟩ := not_or.1 hzero
    have hcount' : count ≤ m :=
      (Nat.le_mul_of_pos_right count (Nat.pos_of_ne_zero hf)).trans (hcap hc hf)
    have hfaces' : faces ≤ m :=
      (Nat.le_mul_of_pos_left faces (Nat.pos_of_ne_zero hc)).trans (hcap hc hf)
    rw [show count = count' by omega, show faces = faces' by omega]

/-- The meaning of an expression whose parts that have to be numbers are certain by their form. -/
noncomputable def Expr.meaning : Expr ℚ → Meaning
  | int n => .certain n
  | decimal x => .certain x
  | paren e => e.meaning
  | binary l .plus r => l.meaning.add r.meaning
  | binary l .times r => l.meaning.times r.meaning
  | binary l .dice r => .dice l.meaning.diceCount r.meaning.diceCount
  | roll e => e.meaning
  | avg e => .certain e.meaning.law.mean
  | prob target e => .certain (e.meaning.law target.meaning.value)

namespace Distribution

variable [Memory]

/-- A distribution realizes a number if it is certain at it, and a random outcome if it is a sound
table with its law. -/
def Realizes (d : Distribution ℚ) : Meaning → Prop
  | .certain x => d = certain x
  | .random l => d.isCertain = false ∧ d.Sound ∧ d.law = l

namespace Realizes

variable {d e x : Distribution ℚ} {m n : Meaning}

/-- A distribution has the law of the meaning that it realizes. -/
theorem law_eq (h : d.Realizes m) : d.law = m.law := by
  cases m with
  | certain x =>
    obtain rfl : d = certain x := h
    exact law_of_isCertain rfl
  | random l => exact h.2.2

/-- A distribution that realizes a meaning is sound. -/
theorem sound (h : d.Realizes m) : d.Sound := by
  cases m with
  | certain x =>
    obtain rfl : d = certain x := h
    exact sound_certain x
  | random l => exact h.2.1

/-- A certain distribution realizes only a number, which is its constant. -/
theorem eq_certain_value (h : d.Realizes m) (hd : d.isCertain = true) :
    d = certain m.value ∧ m = .certain m.value := by
  cases m with
  | certain x => exact ⟨h, rfl⟩
  | random l =>
    rw [h.1] at hd
    cases hd

/-- The sum of two distributions realizes the sum of their meanings. -/
theorem add (hd : d.Realizes m) (he : e.Realizes n) (h : d.add e = .ok x) :
    x.Realizes (m.add n) := by
  have hcertain := isCertain_add h
  have hsound := sound_add hd.sound he.sound h
  have hlaw := law_add h
  rw [hd.law_eq, he.law_eq] at hlaw
  cases m with
  | certain y =>
    obtain rfl : d = certain y := hd
    cases n with
    | certain z =>
      obtain rfl : e = certain z := he
      rw [add_of_isCertain rfl rfl] at h
      exact (Except.ok.inj h).symm
    | random l =>
      rw [he.1, Bool.and_false] at hcertain
      exact ⟨hcertain, hsound, hlaw⟩
  | random l =>
    rw [hd.1, Bool.false_and] at hcertain
    exact ⟨hcertain, hsound, hlaw⟩

/-- The product of two distributions realizes the product of their meanings. -/
theorem times (hd : d.Realizes m) (he : e.Realizes n) (h : d.times e = .ok x) :
    x.Realizes (m.times n) := by
  have hproduct := times_eq_ok hd.sound.weight he.sound.weight h
  rw [hd.law_eq, he.law_eq] at hproduct
  cases m with
  | certain y =>
    obtain rfl : d = certain y := hd
    cases n with
    | certain z =>
      obtain rfl : e = certain z := he
      rw [times_of_isCertain rfl rfl] at h
      exact (Except.ok.inj h).symm
    | random l =>
      -- Of the three cases of a product only the number 0 decides, as `e` is not certain.
      show x.Realizes (if y = 0 then _ else _)
      rcases hproduct with ⟨-, hec, -⟩ | ⟨-, hzero, rfl⟩ | ⟨-, hzero, hx⟩
      · rw [he.1] at hec
        cases hec
      · rw [he.1] at hzero
        have hy : y = 0 := by simpa [certain, isCertain] using hzero
        rw [if_pos hy]
        rfl
      · rw [he.1] at hzero
        have hy : y ≠ 0 := by simpa [certain, isCertain] using hzero
        rw [if_neg hy]
        exact hx
  | random l =>
    cases n with
    | certain z =>
      obtain rfl : e = certain z := he
      show x.Realizes (if z = 0 then _ else _)
      rcases hproduct with ⟨hdc, -, -⟩ | ⟨-, hzero, rfl⟩ | ⟨-, hzero, hx⟩
      · rw [hd.1] at hdc
        cases hdc
      · rw [hd.1] at hzero
        have hz : z = 0 := by simpa [certain, isCertain] using hzero
        rw [if_pos hz]
        rfl
      · rw [hd.1] at hzero
        have hz : z ≠ 0 := by simpa [certain, isCertain] using hzero
        rw [if_neg hz]
        exact hx
    | random l' =>
      rcases hproduct with ⟨hdc, -, -⟩ | ⟨-, hzero, -⟩ | ⟨-, -, hx⟩
      · rw [hd.1] at hdc
        cases hdc
      · simp [hd.1, he.1] at hzero
      · exact hx

/-- The mean of a distribution is the mean of its meaning. -/
theorem mean (hd : d.Realizes m) (h : d.mean = .ok x) : x.Realizes (.certain m.law.mean) := by
  rw [← hd.law_eq]
  exact mean_eq_ok h

/-- A certain distribution that realizes a meaning resolves to the number that it is. -/
theorem resolve (hd : d.Realizes m) (hcertain : d.isCertain = true) (r : Roller) :
    d.resolve r = (.ok m.value, r) := by
  rw [resolve_of_isCertain hcertain, (hd.eq_certain_value hcertain).1]
  rfl

/-- The count of dice that a certain distribution resolves to is that of its meaning, unless no word
holds it. -/
theorem diceCount (hd : d.Realizes m) (hcertain : d.isCertain = true) {r r' : Roller} {n : ℕ}
    (h : d.diceCount r = (.ok n, r')) : n = min m.diceCount wordMax := by
  obtain ⟨value, s, hvalue, h⟩ := Rolling.bind_eq_ok.1 h
  rw [hd.resolve hcertain] at hvalue
  cases hvalue
  rw [roundHalfAway_rat] at h
  by_cases hrange : (decide ((ofNat 0 : ℚ) ≤ nearestInt m.value) &&
      isFinite (nearestInt m.value : ℚ)) = true
  · rw [if_pos hrange] at h
    rw [← (Rolling.pure_eq_ok.1 h).1, toWord_intCast]
    rfl
  · rw [if_neg hrange] at h
    cases h

end Realizes

end Distribution

/-- A product within limits is a product. -/
theorem Limits.times_eq_ok [Memory] {limits : Limits} {d e x : Distribution ℚ}
    (h : limits.times d e = .ok x) : d.times e = .ok x := by
  obtain ⟨htimes, -⟩ | ⟨m, htimes⟩ := limits.times_cases d e
  · rw [htimes] at h
    exact Except.mapError_eq_ok_iff.1 h
  · rw [htimes] at h
    cases h

/-- Within a cap on outcomes, dice that succeed realize their sum and number no more than the
cap. -/
theorem Limits.diceTable_eq_ok [Memory] {limits : Limits} {m : ℕ} (hm : limits.maxOutcomes = some m)
    {count faces : ℕ} {x : Distribution ℚ} (h : limits.diceTable count faces = .ok x) :
    (count ≠ 0 → faces ≠ 0 → count * faces ≤ m) ∧ x.Realizes (.dice count faces) := by
  obtain ⟨hzero, htable⟩ | ⟨hadmits, htable⟩ | ⟨-, n, htable | htable⟩ :=
    limits.diceTable_cases (α := ℚ) count faces
  · rw [htable] at h
    rw [Meaning.dice, if_pos hzero]
    exact ⟨by tauto, (Except.ok.inj h).symm⟩
  · rw [htable] at h
    have hcount := hadmits.count_pos
    have hfaces := hadmits.faces_pos
    rw [Meaning.dice, if_neg (by omega)]
    refine ⟨fun _ _ => ?_, ?_⟩
    · have hle : ((count : ℚ) * faces) ≤ m := not_lt.1 (hadmits.outcomes m hm)
      exact_mod_cast hle
    · exact Distribution.uniformSum_eq_ok hcount hfaces (Except.mapError_eq_ok_iff.1 h)
  · rw [htable] at h
    cases h
  · rw [htable] at h
    cases h

/-- Where the evaluation of an exact expression succeeds, its result realizes the meaning of the
expression. -/
theorem Expr.eval_realizes [Memory] {limits : Limits} {m : ℕ} (hm : limits.maxOutcomes = some m)
    (hlt : m < 2 ^ 53) : ∀ {e : Expr ℚ}, e.isExact = true → ∀ {r r' : Roller}
      {d : Distribution ℚ}, e.eval limits r = (.ok d, r') → d.Realizes e.meaning := by
  -- Each step of the evaluation is certain or realizes its meaning by the induction hypothesis.
  intro e
  induction e with
  | int n =>
    intro _ r r' d h
    exact (Rolling.pure_eq_ok.1 h).1.symm
  | decimal x =>
    intro _ r r' d h
    exact (Rolling.pure_eq_ok.1 h).1.symm
  | paren e ih =>
    intro he r r' d h
    exact ih he h
  | binary left op right ihl ihr =>
    intro he s s' d h
    obtain ⟨dl, s₁, hdl, h⟩ := Rolling.bind_eq_ok.1 h
    obtain ⟨dr, s₂, hdr, h⟩ := Rolling.bind_eq_ok.1 h
    cases op with
    | plus =>
      obtain ⟨hl, hr⟩ := Bool.and_eq_true_iff.1 he
      have hsum := Except.mapError_eq_ok_iff.1 (Rolling.ofExcept_eq_ok.1 h).1
      exact (ihl hl hdl).add (ihr hr hdr) hsum
    | times =>
      obtain ⟨hl, hr⟩ := Bool.and_eq_true_iff.1 he
      exact (ihl hl hdl).times (ihr hr hdr) (Limits.times_eq_ok (Rolling.ofExcept_eq_ok.1 h).1)
    | dice =>
      simp only [isExact, Bool.and_eq_true] at he
      obtain ⟨⟨⟨hlc, hrc⟩, hl⟩, hr⟩ := he
      obtain ⟨count, s₃, hcount, h⟩ := Rolling.bind_eq_ok.1 h
      obtain ⟨faces, s₄, hfaces, h⟩ := Rolling.bind_eq_ok.1 h
      obtain ⟨hcap, hrealizes⟩ := Limits.diceTable_eq_ok hm (Rolling.ofExcept_eq_ok.1 h).1
      have hcount' := (ihl hl hdl).diceCount (eval_isCertain limits hlc hdl) hcount
      have hfaces' := (ihr hr hdr).diceCount (eval_isCertain limits hrc hdr) hfaces
      -- The counts are clamped to a word, which the cap on outcomes does not reach.
      rw [Meaning.dice_min (hlt.trans (by decide)) hcount' hfaces' hcap] at hrealizes
      exact hrealizes
  | roll e ih =>
    intro he r r' d h
    obtain ⟨hc, he⟩ := Bool.and_eq_true_iff.1 he
    obtain ⟨x, s, hx, h⟩ := Rolling.bind_eq_ok.1 h
    rw [Distribution.roll_of_isCertain (eval_isCertain limits hc hx)] at h
    cases h
    exact ih he hx
  | avg e ih =>
    intro he r r' d h
    obtain ⟨x, s, hx, h⟩ := Rolling.bind_eq_ok.1 h
    exact (ih he hx).mean (Except.mapError_eq_ok_iff.1 (Rolling.ofExcept_eq_ok.1 h).1)
  | prob target e iht ihe =>
    intro he r r' d h
    simp only [isExact, Bool.and_eq_true] at he
    obtain ⟨⟨hc, ht⟩, he⟩ := he
    obtain ⟨x, s, hx, h⟩ := Rolling.bind_eq_ok.1 h
    obtain ⟨y, s', hy, h⟩ := Rolling.bind_eq_ok.1 h
    obtain ⟨v, s₂, hv, h⟩ := Rolling.bind_eq_ok.1 h
    obtain ⟨p, s₃, hp, hd⟩ := Rolling.bind_eq_ok.1 h
    rw [(iht ht hx).resolve (eval_isCertain limits hc hx)] at hv
    cases hv
    have hp' := Distribution.probabilityOf_eq_ok (ihe he hy).sound.size_le
      (Except.mapError_eq_ok_iff.1 (Rolling.ofExcept_eq_ok.1 hp).1)
    rw [(ihe he hy).law_eq] at hp'
    rw [hp'] at hd
    exact (Rolling.pure_eq_ok.1 hd).1.symm

/-- Where the evaluation of an exact expression succeeds, whatever the dice show, it gives every
value the probability that the meaning of the expression gives it. -/
theorem Expr.probabilityAt_eval [Memory] (limits : Limits) (m : ℕ)
    (hm : limits.maxOutcomes = some m) (hlt : m < 2 ^ 53) (e : Expr ℚ) (he : e.isExact = true)
    (r r' : Roller) (d : Distribution ℚ) (h : e.eval limits r = (.ok d, r')) (v : ℚ) :
    d.probabilityAt v = e.meaning.law v := by
  rw [Distribution.probabilityAt_eq_law, (eval_realizes hm hlt he h).law_eq]

/-- The value `4.5` of `(1d3 + 0.5) * avg(1d1)d2 + 1.5` has probability `1/3`: both `3.5 * 1` and
`1.5 * 2` are cut to 3. -/
theorem Expr.probabilityAt_eval_cut_product :
    let left : Expr ℚ := .paren (.binary (.binary (.int 1) .dice (.int 3)) .plus (.decimal (1 / 2)))
    let right : Expr ℚ := .binary (.avg (.binary (.int 1) .dice (.int 1))) .dice (.int 2)
    let e : Expr ℚ := .binary (.binary left .times right) .plus (.decimal (3 / 2))
    let table := #[1 / 6, 1 / 6, 1 / 3, 0, 1 / 6, 0, 1 / 6]
    (e.eval {} (Roller.ofStream fun _ => 0)).1 = .ok ⟨3 / 2, table⟩ ∧
      e.meaning.law (9 / 2) = 1 / 3 := by
  intro left right e table
  have heval : (e.eval {} (Roller.ofStream fun _ => 0)).1 = .ok ⟨3 / 2, table⟩ := by
    simp only [e, left, right, table]
    cbv
  have hlaw := probabilityAt_eval {} 10000 rfl (by decide) e rfl _ _ _ (Prod.ext heval rfl) (9 / 2)
  refine ⟨heval, hlaw.symm.trans ?_⟩
  simp only [table]
  cbv

end DiceOdds
