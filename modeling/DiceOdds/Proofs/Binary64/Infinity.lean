import DiceOdds.Proofs.Binary64.Counts
import DiceOdds.Proofs.Binary64.Sign

/-!
# Doubles from 1 up

A double that is not below a small count is positive infinity or a number that is not below the
count (`ofNat_le_iff`). Products and whole parts of doubles from 1 up are from 1 up again, and where
they overflow they do not come out small. So a result that is found to be below some bound is
finite, and so are its operands.
-/

namespace DiceOdds.Binary64

open Float.Model UnpackedFloat

variable {x y : Float}

/-- Whether `x` is positive infinity. -/
def IsInfinity (x : Float) : Prop := x.toModel.unpack = .infinity .positive

/-- Infinity is not finite. -/
theorem IsInfinity.not_isFinite (h : IsInfinity x) : ¬ x.isFinite := by
  change ¬ x.toModel.unpack.isFinite
  rw [h]
  exact Bool.false_ne_true

/-- Infinity is packed into infinity. -/
theorem isInfinity_pack : IsInfinity (.ofModel (.pack (.infinity .positive))) :=
  eq_infinity_of_sign (sign?_unpack_pack (.infinity .positive)) fun h =>
    Bool.noConfusion (isFinite_of_isFinite_pack (u := .infinity .positive) h)

/-! ## Comparison -/

/-- Nothing is above infinity. -/
theorem IsInfinity.not_lt (h : IsInfinity x) : ¬ x < y := by
  have hlt : x < y ↔ (x.toModel.unpack.compare y.toModel.unpack == some .lt) = true :=
    decide_eq_true_iff
  rw [hlt, h]
  generalize y.toModel.unpack = v
  cases v with
  | infinity s => cases s <;> exact Bool.noConfusion
  | _ => exact Bool.noConfusion

/-- The doubles that are not below a small count are infinity and the numbers not below it. -/
theorem ofNat_le_iff {n : ℕ} (hn : n ≤ 2 ^ 53) :
    Float.ofNat n ≤ x ↔ IsInfinity x ∨ ∃ q, HasValue x q ∧ n ≤ q := by
  have hcount := hasValue_ofNat_of_le hn
  by_cases hfin : x.isFinite
  · rw [hcount.le_iff (hasValue_value hfin), or_iff_right fun h => h.not_isFinite hfin]
    constructor
    · exact fun h => ⟨_, hasValue_value hfin, h⟩
    · rintro ⟨q, hq, h⟩
      rwa [hq.value_eq]
  · have hvalue : ¬ ∃ q, HasValue x q ∧ n ≤ q := fun ⟨q, hq, _⟩ => hfin hq.isFinite
    have hle : Float.ofNat n ≤ x ↔
        ((Float.ofNat n).toModel.unpack.compare x.toModel.unpack).any (·.isLE) = true :=
      decide_eq_true_iff
    obtain ⟨q, hq⟩ : ∃ q, Encodes (Float.ofNat n).toModel.unpack q := ⟨_, hcount⟩
    rw [hle, or_iff_left hvalue, IsInfinity]
    change ¬ x.toModel.unpack.isFinite at hfin
    generalize (Float.ofNat n).toModel.unpack = u at hq
    generalize x.toModel.unpack = v at hfin
    -- A count is below infinity, above its opposite, and not compared with what is undefined.
    cases v with
    | notANumber => cases hq <;> exact iff_of_false Bool.noConfusion nofun
    | infinity s =>
      cases s with
      | positive => cases hq <;> exact iff_of_true rfl rfl
      | negative => cases hq <;> exact iff_of_false Bool.noConfusion nofun
    | zero s => exact absurd rfl hfin
    | finite s m e hm => exact absurd rfl hfin

/-- What is from a small count up and below anything is finite. -/
theorem isFinite_of_le_of_lt {n : ℕ} (hn : n ≤ 2 ^ 53) (h : Float.ofNat n ≤ x) (hlt : x < y) :
    x.isFinite := by
  obtain hinf | ⟨q, hq, -⟩ := (ofNat_le_iff hn).mp h
  · exact absurd hlt hinf.not_lt
  · exact hq.isFinite

/-- What is from 1 up is not 0. -/
theorem beq_zero_of_one_le (h : Float.ofNat 1 ≤ x) : (x == Float.ofNat 0) = false := by
  have hzero := hasValue_ofNat_of_le (n := 0) (by norm_num)
  obtain hinf | ⟨q, hq, hle⟩ := (ofNat_le_iff (by norm_num)).mp h
  · have heq : (x == Float.ofNat 0) =
        (x.toModel.unpack.compare (Float.ofNat 0).toModel.unpack == some .eq) := rfl
    obtain ⟨q, hq⟩ : ∃ q, Encodes (Float.ofNat 0).toModel.unpack q := ⟨_, hzero⟩
    rw [heq, hinf]
    generalize (Float.ofNat 0).toModel.unpack = v at hq
    cases hq <;> rfl
  · rw [← Bool.not_eq_true, hq.beq_iff hzero]
    rintro rfl
    norm_num at hle

/-! ## Products and whole parts -/

/-- A positive number has a positive sign. -/
theorem Encodes.sign?_eq_positive {u : UnpackedFloat} {q : ℚ} (h : Encodes u q) (hq : 0 < q) :
    sign? u = some .positive := by
  cases h with
  | zero s => exact absurd hq (lt_irrefl 0)
  | finite s m e hpos =>
    cases s with
    | positive => rfl
    | negative =>
      have : 0 ≤ (m : ℚ) * 2 ^ e := by positivity
      rw [signFactor] at hq
      linarith

/-- A positive number is packed into a double that stands for it, or overflows to infinity. -/
theorem Encodes.pack_cases {u : UnpackedFloat} {q : ℚ} (h : Encodes u q) (hq : 0 < q) :
    IsInfinity (.ofModel (.pack u)) ∨ HasValue (.ofModel (.pack u)) q := by
  by_cases hfin : (Float.ofModel (.pack u)).isFinite
  · exact .inr (hasValue_pack h (h.abs_lt_of_isFinite_pack hfin))
  · exact .inl (eq_infinity_of_sign ((sign?_unpack_pack u).trans (h.sign?_eq_positive hq)) hfin)

/-- A product is computed on unpacked operands. -/
theorem mul_eq_pack (x y : Float) : x * y =
    .ofModel (.pack (UnpackedFloat.mul Format.binary64 x.toModel.unpack y.toModel.unpack)) := rfl

/-- Infinity times a positive number is infinity. -/
theorem IsInfinity.mul_of_pos (hx : IsInfinity x) {q : ℚ} (hy : HasValue y q) (hq : 0 < q) :
    IsInfinity (x * y) ∧ IsInfinity (y * x) := by
  have hsign := hy.sign?_eq_positive hq
  have hproduct : UnpackedFloat.mul Format.binary64 (.infinity .positive) y.toModel.unpack =
      .infinity .positive ∧
      UnpackedFloat.mul Format.binary64 y.toModel.unpack (.infinity .positive) =
        .infinity .positive := by
    unfold HasValue at hy
    generalize y.toModel.unpack = v at *
    cases hy with
    | zero s => exact absurd hq (lt_irrefl 0)
    | finite s m e hpos =>
      obtain rfl : s = .positive := Option.some.inj hsign
      exact ⟨rfl, rfl⟩
  rw [mul_eq_pack x y, mul_eq_pack y x, hx, hproduct.1, hproduct.2]
  exact ⟨isInfinity_pack, isInfinity_pack⟩

/-- Infinity times infinity is infinity. -/
theorem IsInfinity.mul (hx : IsInfinity x) (hy : IsInfinity y) : IsInfinity (x * y) := by
  rw [mul_eq_pack, hx, hy]
  exact isInfinity_pack

/-- A number plus infinity is infinity. -/
theorem IsInfinity.add_of_hasValue (hy : IsInfinity y) {q : ℚ} (hx : HasValue x q) :
    IsInfinity (x + y) := by
  have hsum : x + y =
      .ofModel (.pack (UnpackedFloat.add Format.binary64 x.toModel.unpack y.toModel.unpack)) := rfl
  rw [hsum, hy]
  unfold HasValue at hx
  generalize x.toModel.unpack = u at hx
  cases hx with
  | zero s => exact isInfinity_pack
  | finite s m e hpos => exact isInfinity_pack

/-- A product of doubles from 1 up is from 1 up. -/
theorem one_le_mul (hx : Float.ofNat 1 ≤ x) (hy : Float.ofNat 1 ≤ y) : Float.ofNat 1 ≤ x * y := by
  have hcount : 1 ≤ 2 ^ 53 := by norm_num
  rw [ofNat_le_iff hcount, Nat.cast_one] at hx hy ⊢
  obtain hx | ⟨p, hp, hp1⟩ := hx
  · obtain hy | ⟨q, hq, hq1⟩ := hy
    · exact .inl (hx.mul hy)
    · exact .inl (hx.mul_of_pos hq (one_pos.trans_le hq1)).1
  · obtain hy | ⟨q, hq, hq1⟩ := hy
    · exact .inl (hy.mul_of_pos hp (one_pos.trans_le hp1)).2
    · have hone : 1 ≤ nearest (p * q) := one_le_nearest (one_le_mul_of_one_le_of_one_le hp1 hq1)
      exact (Encodes.pack_cases (Encodes.mul hp hq) (one_pos.trans_le hone)).imp_right
        fun h => ⟨_, h, hone⟩

/-- The whole part of a double from 1 up is from 1 up. -/
theorem one_le_trunc (hx : Float.ofNat 1 ≤ x) : Float.ofNat 1 ≤ trunc x := by
  rw [ofNat_le_iff (by norm_num), Nat.cast_one] at hx ⊢
  obtain hx | ⟨q, hq, hq1⟩ := hx
  · rw [trunc_of_not_isFinite hx.not_isFinite]
    exact .inl hx
  · exact .inr ⟨_, hq.trunc, by exact_mod_cast one_le_wholePart hq1⟩

end DiceOdds.Binary64
