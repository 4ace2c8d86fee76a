import Mathlib.Order.Basic
import Mathlib.Order.Nat
import DiceOdds.Evaluation.Operations

/-!
# What the caps let pass

A product and dice are checked against the caps before their table is computed. What the caps do
not let pass is an error of theirs. What they let pass is computed as it would be without them,
except that a table that is too large is reported in the terms of the cap on outcomes
(`Limits.tableError`).
-/

namespace DiceOdds

open Arithmetic

namespace Limits

variable {α : Type} [Arithmetic α] (limits : Limits)

/-- Whether the cap on outcomes, if there is one, lets so many pass. -/
def AdmitsOutcomes (outcomes : α) : Prop :=
  ∀ m, limits.maxOutcomes = some m → ¬ ofNat m < outcomes

/-- What the cap on outcomes lets pass is passed, and what it does not is an error of it. -/
theorem checkOutcomes_cases (outcomes : α) :
    limits.checkOutcomes outcomes = .ok () ∧ limits.AdmitsOutcomes outcomes ∨
    (∃ m, limits.checkOutcomes outcomes = .error (.tooManyOutcomes outcomes m)) ∧
      ¬ limits.AdmitsOutcomes outcomes := by
  unfold checkOutcomes
  split
  next m hm =>
    split
    next hlt => exact .inr ⟨⟨m, rfl⟩, fun hadmits => hadmits m hm hlt⟩
    next hle =>
      refine .inl ⟨rfl, fun m' hm' => ?_⟩
      rwa [← Option.some.inj (hm.symm.trans hm')]
  next hnone => exact .inl ⟨rfl, fun m hm => absurd (hnone.symm.trans hm) nofun⟩

variable [Memory]

/-- A product is computed, and if it has a table the cap on outcomes lets that pass; or it is an
error of that cap. -/
theorem times_cases (d e : Distribution α) :
    limits.times d e = (d.times e).mapError limits.tableError ∧
      ((d.isUncertain || e.isUncertain) = true → limits.AdmitsOutcomes (d.productBound e)) ∨
    ∃ m, limits.times d e = .error (.tooManyOutcomes (d.productBound e) m) := by
  unfold times
  split
  · obtain ⟨hcheck, hadmits⟩ | ⟨⟨m, hcheck⟩, -⟩ := limits.checkOutcomes_cases (d.productBound e)
    · rw [hcheck]
      exact .inl ⟨rfl, fun _ => hadmits⟩
    · rw [hcheck]
      exact .inr ⟨m, rfl⟩
  next hcertain => exact .inl ⟨rfl, fun huncertain => absurd huncertain hcertain⟩

/-- Whether there are dice with faces, and neither cap stops them. -/
structure Admits (α : Type) [Arithmetic α] (limits : Limits) (count faces : ℕ) : Prop where
  /-- There are dice. -/
  count_pos : 0 < count
  /-- They have faces. -/
  faces_pos : 0 < faces
  /-- There are no more dice than the cap on dice allows. -/
  dice : ∀ m, limits.maxDice = some m → count ≤ m
  /-- The number of outcomes, as it is computed, is not above the cap on outcomes. -/
  outcomes : limits.AdmitsOutcomes (ofNat count * ofNat faces : α)

/-- No dice, or dice without faces, are certain; dice that the caps let pass are added up; and all
others are an error of one of the caps. -/
theorem diceTable_cases (count faces : ℕ) :
    (count = 0 ∨ faces = 0) ∧
      limits.diceTable count faces = .ok (.certain (ofNat 0) : Distribution α) ∨
    limits.Admits α count faces ∧
      (limits.diceTable count faces : Except (RollError α) (Distribution α)) =
        (Distribution.uniformSum count faces).mapError limits.tableError ∨
    ¬ limits.Admits α count faces ∧ ∃ m,
      (limits.diceTable count faces : Except (RollError α) (Distribution α)) =
        .error (.tooManyDice count m) ∨
      limits.diceTable count faces =
        .error (.tooManyOutcomes (ofNat count * ofNat faces : α) m) := by
  unfold diceTable
  split
  next hzero => exact .inl ⟨by simpa using hzero, rfl⟩
  next hzero =>
    rw [Bool.or_eq_true, decide_eq_true_eq, decide_eq_true_eq] at hzero
    refine .inr ?_
    -- Dice that the cap on dice lets pass are left to the cap on outcomes.
    have hrest (hdice : ∀ m, limits.maxDice = some m → count ≤ m) :
        limits.Admits α count faces ∧ (do
          limits.checkOutcomes (ofNat count * ofNat faces : α)
          (Distribution.uniformSum count faces).mapError limits.tableError) =
            (Distribution.uniformSum count faces).mapError limits.tableError ∨
        ¬ limits.Admits α count faces ∧ ∃ m, (do
          limits.checkOutcomes (ofNat count * ofNat faces : α)
          (Distribution.uniformSum count faces).mapError limits.tableError) =
            .error (.tooManyOutcomes (ofNat count * ofNat faces) m) := by
      obtain ⟨hcheck, hadmits⟩ | ⟨⟨m, hcheck⟩, hexceeds⟩ :=
        limits.checkOutcomes_cases (ofNat count * ofNat faces : α)
      · rw [hcheck]
        exact .inl ⟨⟨by omega, by omega, hdice, hadmits⟩, rfl⟩
      · rw [hcheck]
        exact .inr ⟨fun hadmits => hexceeds hadmits.outcomes, m, rfl⟩
    dsimp only
    split
    next m hm =>
      split
      next hlt =>
        exact .inr ⟨fun hadmits => absurd (hadmits.dice m hm) (not_le.mpr hlt), m, .inl rfl⟩
      next hle =>
        obtain h | ⟨hexceeds, m', h⟩ := hrest fun m' hm' => by
          rw [← Option.some.inj (hm.symm.trans hm')]
          exact not_lt.mp hle
        · exact .inl h
        · exact .inr ⟨hexceeds, m', .inr h⟩
    next hnone =>
      obtain h | ⟨hexceeds, m', h⟩ := hrest fun m hm => absurd hm (hnone m)
      · exact .inl h
      · exact .inr ⟨hexceeds, m', .inr h⟩

end Limits

end DiceOdds
