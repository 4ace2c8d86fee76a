import DiceOdds.Proofs.Binary64.Counts
import DiceOdds.Proofs.Evaluation.Lookups

/-!
# The size of tables

A sum has as many slots as its operands together, some dice have as many as they have faces in
all, and a product has the whole part of the product of the largest outcomes. Of these the last two
are checked against the cap on outcomes, in doubles and before the table is built; sums are not. So
the tables of an expression are bounded by the cap times the number of its dice and products
(`Limits.size_tables_le`).
-/

namespace DiceOdds

open Arithmetic

variable {α : Type}

/-- The number of dice and products in an expression: its nodes that build a table. -/
def Expr.tableNodes : Expr α → ℕ
  | int _ | decimal _ => 0
  | paren e | roll e | avg e => e.tableNodes
  | prob target e => target.tableNodes + e.tableNodes
  | binary l .plus r => l.tableNodes + r.tableNodes
  | binary l .times r | binary l .dice r => l.tableNodes + r.tableNodes + 1

/-! ## Operations on distributions -/

namespace Distribution

variable [Arithmetic α] {d e x : Distribution α}

/-- A count of dice is the word of what the distribution resolves to, rounded. -/
theorem diceCount_eq_ok {r r' : Roller} {n : ℕ} (h : d.diceCount r = (.ok n, r')) :
    ∃ v, d.resolve r = (.ok v, r') ∧ ofNat 0 ≤ roundHalfAway v ∧
      isFinite (roundHalfAway v) = true ∧ n = toWord (roundHalfAway v) := by
  obtain ⟨v, s, hv, h⟩ := Rolling.bind_eq_ok.mp h
  split at h
  next hrange =>
    obtain ⟨hnonneg, hfin⟩ := Bool.and_eq_true_iff.mp hrange
    obtain ⟨rfl, rfl⟩ := Rolling.pure_eq_ok.mp h
    exact ⟨v, hv, of_decide_eq_true hnonneg, hfin, rfl⟩
  · cases h

variable [Memory]

/-- Every die that is added to some dice adds its slots. -/
theorem size_addCopies {die : Distribution α} {n : ℕ} (h : addCopies die n d = .ok x) :
    x.size = d.size + n * die.size := by
  induction n generalizing d with
  | zero => rw [← Except.ok.inj h, zero_mul, add_zero]
  | succ n ih =>
    obtain ⟨y, hadd, h⟩ := Except.bind_eq_ok_iff.mp h
    rw [ih h, size_add hadd]
    ring

/-- Some dice have a slot for every face. -/
theorem size_uniformSum {count faces : ℕ} (h : uniformSum count faces = .ok x) :
    x.size = count * faces := by
  unfold uniformSum at h
  split at h
  next hzero =>
    rw [← Except.ok.inj h, mul_eq_zero.mpr (by simpa using hzero)]
    rfl
  next hzero =>
    split at h
    · cases h
    obtain ⟨die, hdie, h⟩ := Except.bind_eq_ok_iff.mp h
    unfold flat at hdie
    split at hdie
    · cases hdie
    have hfaces : die.size = faces := by
      rw [← Except.ok.inj hdie]
      exact Array.size_replicate ..
    obtain ⟨n, rfl⟩ := Nat.exists_eq_add_one_of_ne_zero (n := count)
      fun hcount => hzero (by simp [hcount])
    rw [size_addCopies h, hfaces, Nat.add_sub_cancel]
    ring

/-- A product has no slot, or the whole part of the product of the largest outcomes. -/
theorem size_times (h : d.times e = .ok x) :
    x.size = 0 ∨ ofNat 0 < d.productBound e ∧ d.productBound e < ofNat wordMax ∧
      x.size = toWord (d.productBound e) := by
  obtain ⟨-, -, rfl⟩ | ⟨-, -, rfl⟩ | ⟨-, -, hword, -, left, right, table, -, -, htable, rfl⟩ :=
    times_eq_ok_cases h
  · exact .inl rfl
  · exact .inl rfl
  have hsize : table.size = productSize d e := by
    have hx := yields_productTable (productSize d e) left right
    rw [htable] at hx
    exact hx
  show table.size = 0 ∨ _ ∧ _ ∧ table.size = _
  rw [hsize, productSize]
  split
  next hpos => exact .inr ⟨hpos, hword, rfl⟩
  · exact .inl rfl

end Distribution

namespace Limits

variable [Arithmetic α] [Memory] {limits : Limits} {d e x : Distribution α}

/-- A product within limits has no slot, or the whole part of the product of the largest outcomes,
which the cap on outcomes lets pass. -/
theorem size_times {m : ℕ} (hm : limits.maxOutcomes = some m) (h : limits.times d e = .ok x) :
    x.size = 0 ∨ ofNat 0 < d.productBound e ∧ d.productBound e < ofNat wordMax ∧
      ¬ ofNat m < d.productBound e ∧ x.size = toWord (d.productBound e) := by
  obtain ⟨htimes, hadmits⟩ | ⟨n, htimes⟩ := limits.times_cases d e
  · rw [htimes] at h
    have hproduct := Except.mapError_eq_ok_iff.mp h
    cases huncertain : d.isUncertain || e.isUncertain with
    | true =>
      obtain hzero | ⟨hpos, hword, hsize⟩ := Distribution.size_times hproduct
      · exact .inl hzero
      · exact .inr ⟨hpos, hword, hadmits huncertain m hm, hsize⟩
    | false =>
      -- Without a table in either operand there is none in the product.
      have hboth : d.isCertain = true ∧ e.isCertain = true := by
        simpa [Distribution.isUncertain] using huncertain
      rw [Distribution.times_of_isCertain hboth.1 hboth.2] at hproduct
      exact .inl (by rw [← Except.ok.inj hproduct]; rfl)
  · rw [htimes] at h
    cases h

/-- Some dice within limits have a slot for every face, and if there are any slots both caps let
them pass. -/
theorem size_diceTable {m count faces : ℕ} (hm : limits.maxOutcomes = some m)
    (h : limits.diceTable count faces = .ok x) :
    x.size = count * faces ∧ (x.size = 0 ∨ ¬ (ofNat m : α) < ofNat count * ofNat faces ∧
      ∀ limit, limits.maxDice = some limit → count ≤ limit) := by
  obtain ⟨hzero, htable⟩ | ⟨hadmits, htable⟩ | ⟨-, n, htable | htable⟩ :=
    limits.diceTable_cases (α := α) count faces
  · rw [htable] at h
    have hsize : x.size = 0 := by rw [← Except.ok.inj h]; rfl
    rw [mul_eq_zero.mpr hzero]
    exact ⟨hsize, .inl hsize⟩
  · rw [htable] at h
    exact ⟨Distribution.size_uniformSum (Except.mapError_eq_ok_iff.mp h),
      .inr ⟨hadmits.outcomes m hm, hadmits.dice⟩⟩
  · rw [htable] at h
    cases h
  · rw [htable] at h
    cases h

end Limits

/-! ## Doubles -/

open Binary64

namespace Limits

variable [Memory] {limits : Limits} {m : ℕ} {d e x : Distribution Float}

/-- A product within a cap of at most 53 bits has no more slots than that. -/
theorem size_le_of_times (hm : limits.maxOutcomes = some m) (hlt : m < 2 ^ 53)
    (h : limits.times d e = .ok x) : x.size ≤ m := by
  obtain hzero | ⟨hpos, hword, hcheck, hsize⟩ := size_times hm h
  · exact hzero.trans_le (Nat.zero_le m)
  · -- The bound is between two numbers, so it is one, and the cap is compared with it exactly.
    have hbound := hasValue_value (isFinite_of_lt_of_lt hpos hword)
    have hle := not_lt.mp (mt ((hasValue_ofNat_of_le hlt.le).lt_iff hbound).mpr hcheck)
    have hnonneg := ((hasValue_ofNat_of_le (n := 0) (by norm_num)).lt_iff hbound).mp hpos
    rw [Nat.cast_zero] at hnonneg
    rw [hsize, hbound.toWord_eq]
    exact (min_le_left _ _).trans (toNat_wholePart_le hnonneg.le hle)

/-- Dice within a cap of at most 53 bits have no more slots than that. -/
theorem size_le_of_diceTable {count faces : ℕ} (hm : limits.maxOutcomes = some m)
    (hlt : m < 2 ^ 53) (hcount : count ≤ wordMax) (hfaces : faces ≤ wordMax)
    (h : limits.diceTable count faces = .ok x) : x.size ≤ m := by
  obtain ⟨hsize, hzero | ⟨hcheck, -⟩⟩ := size_diceTable hm h
  · exact hzero.trans_le (Nat.zero_le m)
  · exact hsize.trans_le (mul_le_of_not_lt hlt hcount hfaces hcheck)

/-- Whether `x` is a table of the dice that `d` and `e` resolve to: it has a slot for every face of
each of them, and they are no more than the cap on dice allows. -/
def Tabulates (limits : Limits) (d e x : Distribution Float) (r r' : Roller) : Prop :=
  ∃ (v w : Float) (s : Roller) (count faces : ℕ), d.resolve r = (.ok v, s) ∧
    e.resolve s = (.ok w, r') ∧ HasValue (roundHalfAway v) count ∧
    HasValue (roundHalfAway w) faces ∧ x.size = count * faces ∧
    ∀ limit, limits.maxDice = some limit → count ≤ limit

/-- Dice within a cap of at most 53 bits have no more slots than that, and if they have any they
are the table of the rounded operands. -/
theorem tabulates_of_dice (hm : limits.maxOutcomes = some m) (hlt : m < 2 ^ 53) {r r' : Roller}
    (h : limits.dice d e r = (.ok x, r')) :
    x.size ≤ m ∧ (x.isUncertain = true → limits.Tabulates d e x r r') := by
  obtain ⟨n, s, hn, h⟩ := Rolling.bind_eq_ok.mp h
  obtain ⟨k, s', hk, h⟩ := Rolling.bind_eq_ok.mp h
  obtain ⟨htable, rfl⟩ := Rolling.ofExcept_eq_ok.mp h
  obtain ⟨v, hv, hnonneg, hfin, rfl⟩ := Distribution.diceCount_eq_ok hn
  obtain ⟨w, hw, hnonneg', hfin', rfl⟩ := Distribution.diceCount_eq_ok hk
  obtain ⟨count, hcount⟩ := exists_hasValue_natCast hnonneg hfin
  obtain ⟨faces, hfaces⟩ := exists_hasValue_natCast hnonneg' hfin'
  have hword := hcount.toWord_natCast
  have hword' := hfaces.toWord_natCast
  rw [hword, hword'] at htable
  have hle := size_le_of_diceTable hm hlt (min_le_right _ _) (min_le_right _ _) htable
  refine ⟨hle, fun huncertain => ?_⟩
  have hslots : x.size ≠ 0 := by
    rw [Ne, ← Distribution.isCertain_iff]
    simpa [Distribution.isUncertain] using huncertain
  obtain ⟨hsize, hzero | ⟨-, hdice⟩⟩ := size_diceTable hm htable
  · exact absurd hzero hslots
  -- Neither factor exceeds the size, so neither count was clamped to a word.
  rw [hsize] at hle hslots
  have hmax : m < wordMax := hlt.trans (by decide)
  have hleft := (Nat.le_mul_of_pos_right _ (Nat.pos_of_ne_zero (right_ne_zero_of_mul hslots))).trans
    hle
  have hright := (Nat.le_mul_of_pos_left _ (Nat.pos_of_ne_zero (left_ne_zero_of_mul hslots))).trans
    hle
  rw [show min count wordMax = count by omega] at hsize hdice
  rw [show min faces wordMax = faces by omega] at hsize
  exact ⟨v, w, s, count, faces, hv, hw, hcount, hfaces, hsize, hdice⟩

end Limits

/-- An expression evaluates to no more slots than the cap for each of its dice and products. -/
theorem Expr.size_eval_le_mul [Memory] {limits : Limits} {m : ℕ}
    (hm : limits.maxOutcomes = some m) (hlt : m < 2 ^ 53) (e : Expr Float) {r r' : Roller}
    {d : Distribution Float} (h : e.eval limits r = (.ok d, r')) : d.size ≤ m * e.tableNodes := by
  have hcertain {d : Distribution Float} {n : ℕ} (hd : d.isCertain = true) : d.size ≤ n :=
    (Distribution.isCertain_iff.mp hd).trans_le n.zero_le
  induction e generalizing r r' d with
  | int n =>
    rw [← (Rolling.pure_eq_ok.mp h).1]
    exact hcertain rfl
  | decimal x =>
    rw [← (Rolling.pure_eq_ok.mp h).1]
    exact hcertain rfl
  | paren e ih => exact ih h
  | binary left op right ihl ihr =>
    obtain ⟨x, s, hx, h⟩ := Rolling.bind_eq_ok.mp h
    obtain ⟨y, s', hy, h⟩ := Rolling.bind_eq_ok.mp h
    cases op with
    | plus =>
      have hsize := Distribution.size_add
        (Except.mapError_eq_ok_iff.mp (Rolling.ofExcept_eq_ok.mp h).1)
      calc d.size = x.size + y.size := hsize
        _ ≤ m * left.tableNodes + m * right.tableNodes := Nat.add_le_add (ihl hx) (ihr hy)
        _ = m * (left.tableNodes + right.tableNodes) := (Nat.mul_add ..).symm
    | times =>
      calc d.size ≤ m := Limits.size_le_of_times hm hlt (Rolling.ofExcept_eq_ok.mp h).1
        _ ≤ m * (left.tableNodes + right.tableNodes + 1) := Nat.le_mul_of_pos_right m (by omega)
    | dice =>
      calc d.size ≤ m := (Limits.tabulates_of_dice hm hlt h).1
        _ ≤ m * (left.tableNodes + right.tableNodes + 1) := Nat.le_mul_of_pos_right m (by omega)
  | roll e ih =>
    obtain ⟨x, s, -, h⟩ := Rolling.bind_eq_ok.mp h
    exact hcertain (Distribution.isCertain_roll h)
  | avg e ih =>
    obtain ⟨x, s, -, h⟩ := Rolling.bind_eq_ok.mp h
    exact hcertain (Distribution.isCertain_mean
      (Except.mapError_eq_ok_iff.mp (Rolling.ofExcept_eq_ok.mp h).1))
  | prob target e iht ihe =>
    obtain ⟨x, s, -, h⟩ := Rolling.bind_eq_ok.mp h
    obtain ⟨y, s', -, h⟩ := Rolling.bind_eq_ok.mp h
    exact hcertain (Distribution.isCertain_prob h)

namespace Limits

/-- Within a cap on outcomes of at most 53 bits every expression, and so every part of one,
evaluates to no more slots than the cap for each of its dice and products, whatever the draws;
products and dice have no more slots than the cap, and dice that have any have one for every face
of as many dice as their rounded operands say, which are no more than the cap on dice. -/
theorem size_tables_le [Memory] (limits : Limits) (m : ℕ) (hm : limits.maxOutcomes = some m)
    (hlt : m < 2 ^ 53) :
    (∀ (e : Expr Float) (r r' : Roller) (d : Distribution Float),
      e.eval limits r = (.ok d, r') → d.size ≤ m * e.tableNodes) ∧
    (∀ d e x : Distribution Float, limits.times d e = .ok x → x.size ≤ m) ∧
    ∀ (d e x : Distribution Float) (r r' : Roller), limits.dice d e r = (.ok x, r') →
      x.size ≤ m ∧ (x.isUncertain = true → limits.Tabulates d e x r r') :=
  ⟨fun e _ _ _ h => e.size_eval_le_mul hm hlt h, fun _ _ _ h => size_le_of_times hm hlt h,
    fun _ _ _ _ _ h => tabulates_of_dice hm hlt h⟩

/-- With caps of 2 dice and 6 outcomes the sum `2d3 + 1d5` has 11 outcomes, which is more than the
cap but not more than the cap for each of its two dice; and `2d3`, as well as a product of tables
with 2 and 3 slots, has the 6 outcomes that the cap allows. -/
theorem size_tables_le_two_nodes :
    let limits : Limits := ⟨some 2, some 6⟩
    let die (count faces : ℤ) : Expr Float := .binary (.int count) .dice (.int faces)
    let r := Roller.ofStream fun _ => 0
    (∃ d r', (Expr.binary (die 2 3) .plus (die 1 5)).eval limits r = (.ok d, r') ∧ d.size = 11 ∧
      d.size ≤ 6 * 2) ∧
    (∃ x, limits.times (⟨0, #[1, 1]⟩ : Distribution Float) ⟨0, #[1, 1, 1]⟩ = .ok x ∧
      x.size = 6 ∧ x.size ≤ 6) ∧
    ∃ x r', limits.dice (.certain 2) (.certain 3) r = (.ok x, r') ∧
      x.size = 6 ∧ x.size ≤ 6 ∧ limits.Tabulates (.certain 2) (.certain 3) x r r' := by
  intro limits die r
  have bounds := size_tables_le limits 6 rfl (by decide)
  have hsize (n : ℕ) (run : Except (RollError Float) (Distribution Float) × Roller)
      (h : (run.1.map Distribution.size).toOption = some n) :
      ∃ d r', run = (.ok d, r') ∧ d.size = n := by
    obtain ⟨err | d, r'⟩ := run
    · cases h
    · exact ⟨d, r', rfl, Option.some.inj h⟩
  obtain ⟨d, s, hd, hdsize⟩ :=
    hsize 11 ((Expr.binary (die 2 3) .plus (die 1 5)).eval limits r) (by decide +kernel)
  obtain ⟨x, s', hx, hxsize⟩ :=
    hsize 6 (limits.times ⟨0, #[1, 1]⟩ ⟨0, #[1, 1, 1]⟩, r) (by decide +kernel)
  obtain ⟨y, r', hy, hysize⟩ :=
    hsize 6 (limits.dice (.certain 2) (.certain 3) r) (by decide +kernel)
  obtain ⟨hx, -⟩ := Prod.mk.inj hx
  have huncertain : y.isUncertain = true := by
    rw [Distribution.isUncertain, Bool.not_eq_true', Bool.eq_false_iff, Ne,
      Distribution.isCertain_iff, hysize]
    decide
  obtain ⟨hle, htable⟩ := bounds.2.2 _ _ y r r' hy
  exact ⟨⟨d, s, hd, hdsize, bounds.1 _ r s d hd⟩, ⟨x, hx, hxsize, bounds.2.1 _ _ x hx⟩,
    y, r', hy, hysize, hle, htable huncertain⟩

end Limits

end DiceOdds
