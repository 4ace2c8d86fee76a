import DiceOdds.Proofs.Evaluation.Meaning
import DiceOdds.Proofs.Evaluation.Proper
import DiceOdds.Proofs.Law.Support

/-!
# Values that throwing the dice can give

An expression of whole numbers, sums, products, dice and rolls stands for a set of integers: what
comes out when all its dice are thrown by hand, those first whose sum says how many others to throw
and which. Evaluation works with tables and draws instead, and rolls the operands of dice on the
way. Where it succeeds it gives one of these integers (`value_evaluate_mem`): every table is a law
on them, and sampling never gives an outcome without weight.
-/

namespace DiceOdds

open Arithmetic

/-- Whether `z` is the sum of one throw of `count` dice with `faces` faces. Without dice or without
faces the sum is 0. -/
def IsThrow (count faces z : ℤ) : Prop :=
  if count = 0 ∨ faces = 0 then z = 0
  else ∃ throws : List ℤ, throws.length = count ∧ (∀ x ∈ throws, 1 ≤ x ∧ x ≤ faces) ∧
    throws.sum = z

namespace Expr

variable {α : Type}

/-- Whether an expression is made of whole numbers, parentheses, operators and rolls. -/
def isThrown : Expr α → Bool
  | int _ => true
  | paren e | roll e => e.isThrown
  | binary l _ r => l.isThrown && r.isThrown
  | decimal _ | avg _ | prob _ _ => false

/-- The values that throwing the dice of an expression can give. -/
def values : Expr α → Set ℤ
  | int n => {n}
  | paren e | roll e => e.values
  | binary l .plus r => Set.image2 (· + ·) l.values r.values
  | binary l .times r => Set.image2 (· * ·) l.values r.values
  | binary l .dice r => {z | ∃ count ∈ l.values, ∃ faces ∈ r.values, IsThrow count faces z}
  | decimal _ | avg _ | prob _ _ => ∅

end Expr

namespace Distribution

variable {d e x : Distribution ℚ} {S T : Set ℤ} [Memory]

/-- Whether the outcomes that a distribution can have are integers of `S`. -/
structure Shows (d : Distribution ℚ) (S : Set ℤ) : Prop where
  /-- The distribution is built within memory and from fair dice. -/
  sound : d.Sound
  /-- Its law is on the set. -/
  law : d.law.On S

namespace Shows

/-- A certain distribution shows its constant. -/
theorem of_certain {z : ℤ} (h : z ∈ S) : (certain (z : ℚ)).Shows S where
  sound := sound_certain z
  law := by
    rw [law_of_isCertain rfl]
    exact Law.on_point h

/-- What is shown from a set is shown from every set that includes it. -/
theorem mono (h : d.Shows S) (hsub : S ⊆ T) : d.Shows T := ⟨h.sound, h.law.mono hsub⟩

/-- Something is shown. -/
theorem nonempty (h : d.Shows S) : S.Nonempty :=
  h.law.nonempty (by rw [total_law h.sound.weight]; exact one_ne_zero)

/-- The constant of a certain distribution is what it shows. -/
theorem constant_mem (h : d.Shows S) (hcertain : d.isCertain = true) :
    ∃ z ∈ S, d.constant = (z : ℚ) := by
  apply h.law.mem
  rw [law_of_isCertain hcertain, Law.point, Finsupp.single_eq_same]
  exact one_ne_zero

/-! ## Operations -/

/-- A sum shows the sums. -/
theorem add (hd : d.Shows S) (he : e.Shows T) (h : d.add e = .ok x) :
    x.Shows (Set.image2 (· + ·) S T) where
  sound := sound_add hd.sound he.sound h
  law := by
    rw [law_add h]
    exact hd.law.combine he.law (· + ·) fun y z => by push_cast; rfl

/-- A product shows the products. -/
theorem times (hd : d.Shows S) (he : e.Shows T) (h : d.times e = .ok x) :
    x.Shows (Set.image2 (· * ·) S T) := by
  obtain ⟨hdc, hec, rfl⟩ | ⟨-, hzero, rfl⟩ | ⟨-, -, -, hsound, hlaw⟩ :=
    times_eq_ok hd.sound.weight he.sound.weight h
  · obtain ⟨y, hy, hdy⟩ := hd.constant_mem hdc
    obtain ⟨z, hz, hez⟩ := he.constant_mem hec
    rw [hdy, hez, ← Int.cast_mul]
    exact of_certain (Set.mem_image2_of_mem hy hz)
  · -- The other operand shows something, and 0 times that is 0.
    have hmem : (0 : ℤ) ∈ Set.image2 (· * ·) S T := by
      obtain ⟨hc, hconstant⟩ | ⟨hc, hconstant⟩ := hzero
      · obtain ⟨y, hy, hdy⟩ := hd.constant_mem hc
        obtain ⟨z, hz⟩ := he.nonempty
        have hy0 : y = 0 := by exact_mod_cast hdy.symm.trans hconstant
        exact ⟨y, hy, z, hz, hy0 ▸ zero_mul z⟩
      · obtain ⟨z, hz, hez⟩ := he.constant_mem hc
        obtain ⟨y, hy⟩ := hd.nonempty
        have hz0 : z = 0 := by exact_mod_cast hez.symm.trans hconstant
        exact ⟨y, hy, z, hz, hz0 ▸ mul_zero y⟩
    exact_mod_cast of_certain hmem
  · refine ⟨hsound, ?_⟩
    rw [hlaw, Law.product]
    refine hd.law.combine he.law (· * ·) fun y z => ?_
    rw [← Int.cast_mul, trunc_intCast]

/-- Dice show the sums of their throws. -/
theorem of_realizes_dice {count faces : ℕ} (h : x.Realizes (.dice count faces)) :
    x.Shows {z | IsThrow count faces z} := by
  by_cases hzero : count = 0 ∨ faces = 0
  · rw [Meaning.dice, if_pos hzero] at h
    obtain rfl : x = certain 0 := h
    have hmem : IsThrow count faces 0 := by
      rw [IsThrow, if_pos (by exact_mod_cast hzero)]
    exact_mod_cast of_certain (S := {z | IsThrow count faces z}) hmem
  · rw [Meaning.dice, if_neg hzero] at h
    obtain ⟨-, hsound, hlaw⟩ := h
    refine ⟨hsound, ?_⟩
    rw [hlaw]
    refine (Law.on_dice count faces).mono fun z hz => ?_
    show IsThrow count faces z
    rw [IsThrow, if_neg (by exact_mod_cast hzero)]
    exact_mod_cast hz

/-! ## Draws -/

/-- No slot has a negative weight. -/
theorem weights_nonneg (h : d.Shows S) (hu : d.isCertain = false) : NonnegWeights d.weights := by
  refine .of_slotWeight fun i hi => ?_
  have hshare := h.law.nonneg (d.outcome i)
  rwa [law_outcome hu hi, share, le_div_iff₀ (h.sound.weight hu), zero_mul] at hshare

/-- A distribution resolves to what it shows. -/
theorem resolve (h : d.Shows S) {r r' : Roller} {v : ℚ} (hv : d.resolve r = (.ok v, r')) :
    ∃ z ∈ S, v = (z : ℚ) := by
  cases hd : d.isCertain with
  | true =>
    rw [resolve_of_isCertain hd, Prod.mk.injEq, Except.ok.injEq] at hv
    rw [← hv.1]
    exact h.constant_mem hd
  | false =>
    have htotal := h.sound.weight hd
    obtain ⟨i, hi, s, hrun, hweight⟩ := exists_resolve hd (h.weights_nonneg hd) htotal r
    rw [hrun, Prod.mk.injEq, Except.ok.injEq] at hv
    rw [← hv.1]
    apply h.law.mem
    rw [law_outcome hd hi, share]
    exact (div_pos hweight htotal).ne'

/-- A roll shows what it was rolled from. -/
theorem roll (h : d.Shows S) {r r' : Roller} (hx : d.roll r = (.ok x, r')) : x.Shows S := by
  cases hd : d.isCertain with
  | true =>
    rw [roll_of_isCertain hd, Prod.mk.injEq, Except.ok.injEq] at hx
    rwa [← hx.1]
  | false =>
    simp only [Distribution.roll, hd, Bool.false_eq_true, if_false] at hx
    obtain ⟨v, s, hv, hpure⟩ := Rolling.bind_eq_ok.mp hx
    obtain ⟨z, hz, rfl⟩ := h.resolve hv
    rw [← (Rolling.pure_eq_ok.mp hpure).1]
    exact of_certain hz

/-- A count of dice is one of the integers that are shown, unless no word holds it. -/
theorem diceCount (h : d.Shows S) {r r' : Roller} {n : ℕ} (hn : d.diceCount r = (.ok n, r')) :
    ∃ k : ℕ, (k : ℤ) ∈ S ∧ n = min k wordMax := by
  obtain ⟨v, s, hv, hn⟩ := Rolling.bind_eq_ok.mp hn
  obtain ⟨z, hz, rfl⟩ := h.resolve hv
  have hround : roundHalfAway (z : ℚ) = z := by
    have hwhole := trunc_intCast z
    have hhalf : ¬ (ofDecimal 5 1 : ℚ) ≤ 0 := by
      rw [ofDecimal_rat]
      norm_num
    simp only [roundHalfAway, hwhole, sub_self]
    rw [if_neg hhalf, if_neg hhalf]
  rw [hround] at hn
  split_ifs at hn with hrange
  · have hnonneg : 0 ≤ z := by
      have hle := of_decide_eq_true (Bool.and_eq_true_iff.mp hrange).1
      rw [ofNat_rat] at hle
      exact_mod_cast hle
    obtain ⟨k, rfl⟩ := Int.eq_ofNat_of_zero_le hnonneg
    refine ⟨k, hz, ?_⟩
    rw [← (Rolling.pure_eq_ok.mp hn).1, toWord_intCast]
    rfl
  · cases hn

end Shows

end Distribution

namespace Expr

/-- Where the evaluation of an expression succeeds, its distribution shows values that throwing
the dice can give. -/
theorem eval_shows [Memory] {limits : Limits} {m : ℕ} (hm : limits.maxOutcomes = some m)
    (hlt : m < 2 ^ 53) : ∀ {e : Expr ℚ}, e.isThrown = true → ∀ {r r' : Roller}
      {d : Distribution ℚ}, e.eval limits r = (.ok d, r') → d.Shows e.values := by
  intro e
  induction e with
  | int n =>
    intro _ r r' d h
    rw [← (Rolling.pure_eq_ok.mp h).1]
    exact Distribution.Shows.of_certain rfl
  | paren e ih =>
    intro he r r' d h
    exact ih he h
  | roll e ih =>
    intro he r r' d h
    obtain ⟨x, s, hx, h⟩ := Rolling.bind_eq_ok.mp h
    exact (ih he hx).roll h
  | binary left op right ihl ihr =>
    intro he s s' d h
    obtain ⟨hl, hr⟩ := Bool.and_eq_true_iff.mp he
    obtain ⟨dl, s₁, hdl, h⟩ := Rolling.bind_eq_ok.mp h
    obtain ⟨dr, s₂, hdr, h⟩ := Rolling.bind_eq_ok.mp h
    have hleft := ihl hl hdl
    have hright := ihr hr hdr
    cases op with
    | plus =>
      exact hleft.add hright (Except.mapError_eq_ok_iff.mp (Rolling.ofExcept_eq_ok.mp h).1)
    | times =>
      exact hleft.times hright (Limits.times_eq_ok (Rolling.ofExcept_eq_ok.mp h).1)
    | dice =>
      obtain ⟨count, s₃, hcount, h⟩ := Rolling.bind_eq_ok.mp h
      obtain ⟨faces, s₄, hfaces, h⟩ := Rolling.bind_eq_ok.mp h
      obtain ⟨hcap, hrealizes⟩ := Limits.diceTable_eq_ok hm (Rolling.ofExcept_eq_ok.mp h).1
      obtain ⟨k, hk, hcount⟩ := hleft.diceCount hcount
      obtain ⟨l, hl, hfaces⟩ := hright.diceCount hfaces
      -- The counts are clamped to a word, which the cap on outcomes does not reach.
      rw [Meaning.dice_min (hlt.trans (by decide)) hcount hfaces hcap] at hrealizes
      exact (Distribution.Shows.of_realizes_dice hrealizes).mono fun z hz => ⟨k, hk, l, hl, hz⟩
  | decimal => intro he; cases he
  | avg => intro he; cases he
  | prob => intro he; cases he

/-- Where the evaluation of an expression of whole numbers, sums, products, dice and rolls gives a
value, that is one that throwing the dice can give, whatever the draws. -/
theorem value_evaluate_mem [Memory] (limits : Limits) (m : ℕ) (hm : limits.maxOutcomes = some m)
    (hlt : m < 2 ^ 53) (e : Expr ℚ) (he : e.isThrown = true) (r r' : Roller) (o : Outcome ℚ)
    (h : e.evaluate limits r = (.ok o, r')) : ∃ z ∈ e.values, o.value = (z : ℚ) := by
  obtain ⟨d, s, hd, h⟩ := Rolling.bind_eq_ok.mp h
  obtain ⟨v, s', hv, h⟩ := Rolling.bind_eq_ok.mp h
  rw [← (Rolling.pure_eq_ok.mp h).1]
  exact (eval_shows hm hlt he hd).resolve hv

/-- With the largest draws `(1d2)d(1d3)*roll(1d2)` gives 12: it comes to two dice with three faces,
both show 3, and the last die doubles their sum. -/
theorem value_evaluate_mem_rolled_dice :
    let die faces : Expr ℚ := .binary (.int 1) .dice (.int faces)
    let e : Expr ℚ :=
      .binary (.binary (.paren (die 2)) .dice (.paren (die 3))) .times (.roll (die 2))
    let table := #[0, 0, 0, 1 / 9, 0, 2 / 9, 0, 1 / 3, 0, 2 / 9, 0, 1 / 9]
    (e.evaluate {} (Roller.ofStream fun _ => 0xffffffff)).1 = .ok ⟨⟨0, table⟩, 12⟩ ∧
      ∃ z ∈ e.values, (12 : ℚ) = z := by
  intro die e table
  have heval : (e.evaluate {} (Roller.ofStream fun _ => 0xffffffff)).1 =
      .ok ⟨⟨0, table⟩, 12⟩ := by
    simp only [e, die, table]
    cbv
  exact ⟨heval, value_evaluate_mem {} 10000 rfl (by decide) e rfl _ _ _ (Prod.ext heval rfl)⟩

end Expr

end DiceOdds
