import Mathlib.Data.Rat.Defs
import Mathlib.Algebra.Order.Ring.Rat
import Mathlib.Algebra.Order.Field.Basic
import Mathlib.Tactic.Linarith
import Mathlib.Tactic.Positivity
import DiceOdds.Arithmetic.Rational
import DiceOdds.Proofs.Sampling.Splits

/-!
# Sampling with rounded weights

A bisection does not need exact arithmetic to keep off the slots without weight. What it needs of
rounding is collected in `Weighing`: rounding keeps the order, leaves numbers that can be held as
they are, and makes no difference of different weights vanish. Exact arithmetic is one instance
(`weighing_rat`).

The invariant of a run is that the running sums rise over the section at hand, and that the weight
at hand is the rounded distance between them (`Weighing.narrow_rises`). A part over which they do
not rise has the rounded share 0 and no draw chooses it; a part over which alone they rise has the
share 1 and every draw chooses it.
-/

namespace DiceOdds

open Arithmetic

variable {α : Type} [Arithmetic α] {Weighs : α → ℚ → Prop} {round : ℚ → ℚ}

/-- Arithmetic in which numbers weigh rational weights, and in which the weights that come out are
the exact ones rounded. -/
structure Weighing (Weighs : α → ℚ → Prop) (round : ℚ → ℚ) : Prop where
  /-- Rounding keeps the order. -/
  round_mono : Monotone round
  /-- A weight that a number has is left as it is by rounding. -/
  round_eq : ∀ {x p}, Weighs x p → round p = p
  /-- Different weights have a difference that is not rounded to nothing. -/
  eq_of_round_sub : ∀ {x y p q}, Weighs x p → Weighs y q → round (p - q) = 0 → p = q
  /-- The finite numbers are those that have a weight. -/
  isFinite_iff : ∀ x, isFinite x = true ↔ ∃ p, Weighs x p
  /-- Draws, and their number, weigh what they count. -/
  ofNat : ∀ {n : ℕ}, n ≤ 2 ^ 32 → Weighs (ofNat n) n
  /-- The strict order is that of the weights. -/
  lt_iff : ∀ {x y p q}, Weighs x p → Weighs y q → (x < y ↔ p < q)
  /-- The weak order is that of the weights. -/
  le_iff : ∀ {x y p q}, Weighs x p → Weighs y q → (x ≤ y ↔ p ≤ q)
  /-- Only a finite number is a summand of a finite sum. -/
  isFinite_of_add : ∀ {x y : α}, isFinite (x + y) = true → isFinite x = true
  /-- A finite sum is the rounded sum. -/
  add : ∀ {x y p q}, Weighs x p → Weighs y q → isFinite (x + y) = true →
    Weighs (x + y) (round (p + q))
  /-- What is left of a weight when a smaller one is taken off is the rounded difference. -/
  sub : ∀ {x y p q}, Weighs x p → Weighs y q → 0 ≤ q → q ≤ p → Weighs (x - y) (round (p - q))
  /-- The share that a part has in the whole is the rounded quotient. -/
  div : ∀ {x y p q}, Weighs x p → Weighs y q → 0 ≤ p → p ≤ q → 0 < q →
    Weighs (x / y) (round (p / q))
  /-- A share of all draws is the rounded product. -/
  share : ∀ {x p}, Weighs x p → 0 ≤ p → p ≤ 1 →
    Weighs (x * Arithmetic.ofNat 4294967296) (round (p * 2 ^ 32))

/-- In exact arithmetic a number weighs itself. -/
theorem weighing_rat : Weighing (α := ℚ) (fun x p => x = p) id where
  round_mono := monotone_id
  round_eq _ := rfl
  eq_of_round_sub := fun _ _ h => sub_eq_zero.mp h
  isFinite_iff x := ⟨fun _ => ⟨x, rfl⟩, fun _ => rfl⟩
  ofNat _ := rfl
  lt_iff := by
    rintro x y _ _ rfl rfl
    rfl
  le_iff := by
    rintro x y _ _ rfl rfl
    rfl
  isFinite_of_add _ := rfl
  add := by
    rintro x y _ _ rfl rfl -
    rfl
  sub := by
    rintro x y _ _ rfl rfl - -
    rfl
  div := by
    rintro x y _ _ rfl rfl - - -
    rfl
  share := by
    rintro x _ rfl - -
    show x * ((4294967296 : ℕ) : ℚ) = x * 2 ^ 32
    norm_num

namespace Weighing

variable (h : Weighing Weighs round)

include h

/-- A number has one weight only. -/
theorem unique {x : α} {p q : ℚ} (hp : Weighs x p) (hq : Weighs x q) : p = q := by
  have hle := (h.le_iff hp hq).symm.trans (h.le_iff hp hp)
  have hge := (h.le_iff hq hp).symm.trans (h.le_iff hp hp)
  exact le_antisymm (hle.mpr le_rfl) (hge.mpr le_rfl)

/-- A count of draws is left as it is by rounding. -/
theorem round_natCast {n : ℕ} (hn : n ≤ 2 ^ 32) : round n = n := h.round_eq (h.ofNat hn)

/-- Rounding leaves 0 as it is. -/
theorem round_zero : round 0 = 0 := by simpa using h.round_natCast (Nat.zero_le _)

/-- Rounding leaves 1 as it is. -/
theorem round_one : round 1 = 1 := by simpa using h.round_natCast (n := 1) (by norm_num)

/-- The number 0 weighs nothing. -/
theorem zero : Weighs (Arithmetic.ofNat 0) 0 := by simpa using h.ofNat (Nat.zero_le _)

/-- The rounded difference of two weights is positive if the first is the larger. -/
theorem round_sub_pos {x y : α} {p q : ℚ} (hx : Weighs x p) (hy : Weighs y q) (hlt : q < p) :
    0 < round (p - q) := by
  refine lt_of_le_of_ne ?_ fun hzero => hlt.ne' (h.eq_of_round_sub hx hy hzero.symm)
  rw [← h.round_zero]
  exact h.round_mono (sub_nonneg.mpr hlt.le)

/-! ## Draws and thresholds -/

section Draws

variable {first weight : α} {p w : ℚ} (hfirst : Weighs first p) (hweight : Weighs weight w)
  (hp : 0 ≤ p) (hle : p ≤ w) (hw : 0 < w)

include hfirst hweight hp hle hw

/-- The threshold of a split is the share of the first part of all draws, rounded twice. -/
theorem threshold :
    Weighs (RunningSums.threshold first weight) (round (round (p / w) * 2 ^ 32)) := by
  have hlower : 0 ≤ round (p / w) := by
    rw [← h.round_zero]
    exact h.round_mono (by positivity)
  have hupper : round (p / w) ≤ 1 := by
    rw [← h.round_one]
    exact h.round_mono ((div_le_one hw).mpr hle)
  exact h.share (h.div hfirst hweight hp hle hw) hlower hupper

/-- A first part that a draw chooses weighs something. -/
theorem pos_of_draw_lt {x : UInt32}
    (hdraw : Arithmetic.ofNat x.toNat < RunningSums.threshold first weight) : 0 < p := by
  refine lt_of_le_of_ne hp fun hzero => ?_
  rw [h.lt_iff (h.ofNat x.toNat_lt.le) (h.threshold hfirst hweight hp hle hw), ← hzero, zero_div,
    h.round_zero, zero_mul, h.round_zero] at hdraw
  exact (Nat.cast_nonneg x.toNat).not_gt hdraw

/-- A second part that a draw chooses is not all that is left when the first has the whole
weight. -/
theorem lt_of_not_draw_lt {x : UInt32}
    (hdraw : ¬ Arithmetic.ofNat x.toNat < RunningSums.threshold first weight) : p < w := by
  refine lt_of_le_of_ne hle fun hall => hdraw ?_
  have hround : round (2 ^ 32) = 2 ^ 32 := by exact_mod_cast h.round_natCast (n := 2 ^ 32) le_rfl
  rw [h.lt_iff (h.ofNat x.toNat_lt.le) (h.threshold hfirst hweight hp hle hw), hall,
    div_self hw.ne', h.round_one, one_mul, hround]
  exact_mod_cast x.toNat_lt

end Draws

/-! ## Runs -/

/-- If the running sums rise over a section, they rise at the slot that it is narrowed to. -/
theorem narrow_rises {s : RunningSums α} {b : ℕ → ℚ} (hb : ∀ k, Weighs (s.before k) (b k))
    (hnonneg : ∀ k, 0 ≤ b k) (hmono : Monotone b) (start stop : ℕ) (weight : α)
    (hle : start ≤ stop) (hweight : Weighs weight (round (b (stop + 1) - b start)))
    (hrise : b start < b (stop + 1)) (r : Roller) :
    b (s.narrow start stop weight r).1 < b ((s.narrow start stop weight r).1 + 1) := by
  induction start, stop, weight using s.section_induction generalizing r with
  | slot start stop weight hlt =>
    obtain rfl : start = stop := by omega
    rwa [s.narrow_of_not_lt weight hlt]
  | cut start stop weight hlt ih₁ ih₂ =>
    have hlo := s.le_divider weight hlt
    have hhi := s.divider_lt weight hlt
    have hfirst : Weighs (s.firstWeight start stop weight)
        (round (b (s.divider start stop weight + 1) - b start)) :=
      h.sub (hb _) (hb _) (hnonneg _) (hmono (by omega))
    have hsecond : Weighs (s.secondWeight start stop weight)
        (round (b (stop + 1) - b (s.divider start stop weight + 1))) :=
      h.sub (hb _) (hb _) (hnonneg _) (hmono (by omega))
    have hpos := h.round_sub_pos (hb (stop + 1)) (hb start) hrise
    have hnonneg' : 0 ≤ round (b (s.divider start stop weight + 1) - b start) := by
      rw [← h.round_zero]
      exact h.round_mono (sub_nonneg.mpr (hmono (by omega)))
    have hpart : round (b (s.divider start stop weight + 1) - b start) ≤
        round (b (stop + 1) - b start) :=
      h.round_mono (sub_le_sub_right (hmono (by omega)) _)
    rw [s.narrow_of_lt weight hlt]
    split
    next hdraw =>
      have hne := (h.pos_of_draw_lt hfirst hweight hnonneg' hpart hpos hdraw).ne'
      refine ih₁ hlo hfirst (lt_of_le_of_ne (hmono (by omega)) fun heq => hne ?_) _
      rw [heq, sub_self, h.round_zero]
    next hdraw =>
      have hne := (h.lt_of_not_draw_lt hfirst hweight hnonneg' hpart hpos hdraw).ne
      refine ih₂ hhi hsecond (lt_of_le_of_ne (hmono (by omega)) fun heq => hne ?_) _
      rw [heq]

/-! ## Tables -/

variable {weights : Array α}

/-- The summands of a finite sum lead to finite sums. -/
theorem isFinite_of_foldl (l : List α) (x : α) (hsum : isFinite (l.foldl (· + ·) x) = true) :
    isFinite x = true := by
  induction l generalizing x with
  | nil => exact hsum
  | cons w l ih => exact h.isFinite_of_add (ih (x + w) hsum)

/-- If the total is finite, the sums before all slots are. -/
theorem isFinite_before (hfinite : isFinite (RunningSums.ofWeights weights).total = true) (k : ℕ) :
    isFinite ((RunningSums.ofWeights weights).before k) = true := by
  rw [RunningSums.total_ofWeights, ← List.take_append_drop k weights.toList,
    List.foldl_append] at hfinite
  rw [RunningSums.before_ofWeights]
  exact h.isFinite_of_foldl _ _ hfinite

/-- Weights that are not negative have running sums that do not fall. -/
theorem exists_before (hweights : ∀ w ∈ weights, isFinite w = true ∧ Arithmetic.ofNat 0 ≤ w)
    (hfinite : isFinite (RunningSums.ofWeights weights).total = true) :
    ∃ b : ℕ → ℚ, (∀ k, Weighs ((RunningSums.ofWeights weights).before k) (b k)) ∧ b 0 = 0 ∧
      Monotone b := by
  choose b hb using fun k => (h.isFinite_iff _).mp (h.isFinite_before hfinite k)
  have hzero : (RunningSums.ofWeights weights).before 0 = Arithmetic.ofNat 0 :=
    RunningSums.before_ofWeights weights 0
  refine ⟨b, hb, h.unique (hb 0) (hzero ▸ h.zero), monotone_nat_of_le_succ fun k => ?_⟩
  obtain hk | hk := lt_or_ge k weights.size
  · obtain ⟨hw, hnonneg⟩ := hweights _ (Array.getElem_mem hk)
    obtain ⟨q, hq⟩ := (h.isFinite_iff _).mp hw
    have hsucc := RunningSums.before_succ weights hk
    have hadd := h.add (hb k) hq (hsucc ▸ h.isFinite_before hfinite (k + 1))
    rw [← hsucc] at hadd
    calc b k = round (b k) := (h.round_eq (hb k)).symm
      _ ≤ round (b k + q) :=
        h.round_mono (le_add_of_nonneg_right ((h.le_iff h.zero hq).mp hnonneg))
      _ = b (k + 1) := h.unique hadd (hb (k + 1))
  · have hend : (RunningSums.ofWeights weights).before k =
        (RunningSums.ofWeights weights).before (k + 1) := by
      rw [RunningSums.before_of_size_le weights hk,
        RunningSums.before_of_size_le weights (by omega)]
    exact (h.unique (hb k) (hend ▸ hb (k + 1))).le

/-- A slot at which the running sums rise has a positive weight. -/
theorem weight_pos_of_rise {i : ℕ} (hi : i < weights.size)
    (hw : isFinite weights[i] = true ∧ Arithmetic.ofNat 0 ≤ weights[i]) {p q : ℚ}
    (hp : Weighs ((RunningSums.ofWeights weights).before i) p)
    (hq : Weighs ((RunningSums.ofWeights weights).before (i + 1)) q) (hrise : p < q) :
    Arithmetic.ofNat 0 < weights[i] := by
  obtain ⟨w, hweight⟩ := (h.isFinite_iff _).mp hw.1
  have hnonneg : 0 ≤ w := (h.le_iff h.zero hweight).mp hw.2
  rw [h.lt_iff h.zero hweight]
  refine lt_of_le_of_ne hnonneg fun hzero => hrise.ne ?_
  -- Adding nothing leaves a sum as it is.
  rw [RunningSums.before_succ weights hi] at hq
  have hadd := h.add hp hweight ((h.isFinite_iff _).mpr ⟨q, hq⟩)
  rw [← hzero, add_zero, h.round_eq hp] at hadd
  exact h.unique hadd hq

/-- Of a table of finite weights that are not negative, with a positive and finite total, a slot
with a positive weight is drawn, with fewer draws than there are slots. -/
theorem sampleIndex_eq_ok
    (hweights : ∀ w ∈ weights, isFinite w = true ∧ Arithmetic.ofNat 0 ≤ w)
    (hpos : isPositiveFinite (RunningSums.ofWeights weights).total = true) (r : Roller) :
    ∃ (i : ℕ) (hi : i < weights.size), ∃ n ≤ weights.size - 1,
      sampleIndex weights r = (.ok i, { r with taken := r.taken + n }) ∧
      Arithmetic.ofNat 0 < weights[i] := by
  obtain ⟨hlt, hfinite⟩ := Bool.and_eq_true_iff.mp hpos
  obtain ⟨b, hb, hzero, hmono⟩ := h.exists_before hweights hfinite
  have htotal := RunningSums.before_of_size_le weights le_rfl
  have hrise : 0 < b weights.size :=
    (h.lt_iff h.zero (hb weights.size)).mp (htotal ▸ of_decide_eq_true hlt)
  have hsize : 0 < weights.size := by
    refine Nat.pos_of_ne_zero fun hempty => hrise.ne' ?_
    rw [hempty, hzero]
  have hweight : Weighs (RunningSums.ofWeights weights).total
      (round (b (weights.size - 1 + 1) - b 0)) := by
    rw [Nat.sub_add_cancel hsize, hzero, sub_zero, h.round_eq (hb _), ← htotal]
    exact hb _
  have hnarrow := h.narrow_rises hb (fun k => hzero ▸ hmono (Nat.zero_le k)) hmono 0
    (weights.size - 1) _ (Nat.zero_le _) hweight
    (by rwa [Nat.sub_add_cancel hsize, hzero]) r
  have hrun := sampleIndex_of_isPositiveFinite hpos r
  have hi := lt_of_sampleIndex_eq_ok hsize hrun
  have hdraws := (RunningSums.ofWeights weights).narrow_snd 0 (weights.size - 1)
    (RunningSums.ofWeights weights).total (Nat.zero_le _) r
  exact ⟨_, hi, _, (RunningSums.ofWeights weights).length_splitsTo_le 0 (weights.size - 1)
      (RunningSums.ofWeights weights).total _, hrun.trans (congrArg (Prod.mk _) hdraws),
    h.weight_pos_of_rise hi (hweights _ (Array.getElem_mem hi)) (hb _) (hb _) hnarrow⟩

end Weighing

end DiceOdds
