import Mathlib.Algebra.Order.Monoid.Unbundled.WithTop
import DiceOdds.Proofs.Binary64.Infinity

/-!
# Doubles with infinity

Finite doubles and positive infinity are ordered like the rational numbers with a top
(`HasExtendedValue.le`). A sum with something that is not negative stays among them: it is the exact
sum rounded, and the top if that is too large for a double (`HasExtendedValue.add`). Rounding in
this sense keeps the order (`roundTop_mono`), so such sums keep it too, whether they overflow or
not.
-/

namespace DiceOdds.Binary64

open Float.Model UnpackedFloat

/-- Whether `x` stands for `v`, where the top stands for positive infinity. -/
inductive HasExtendedValue (x : Float) : WithTop ℚ → Prop where
  /-- A finite double stands for a number. -/
  | value {q : ℚ} (h : HasValue x q) : HasExtendedValue x q
  /-- Infinity stands for the top. -/
  | infinity (h : IsInfinity x) : HasExtendedValue x ⊤

/-- The nearest number to `q`, or the top if that is too large for a double. -/
noncomputable def roundTop (v : WithTop ℚ) : WithTop ℚ :=
  v.recTopCoe ⊤ fun q => if nearest q < 2 ^ (1024 : ℤ) then (nearest q : ℚ) else ⊤

/-- What is not too large becomes the nearest number. -/
theorem roundTop_of_lt {q : ℚ} (h : nearest q < 2 ^ (1024 : ℤ)) :
    roundTop q = (nearest q : ℚ) := if_pos h

/-- What is too large for a double goes to the top. -/
theorem roundTop_of_le {q : ℚ} (h : 2 ^ (1024 : ℤ) ≤ nearest q) : roundTop q = ⊤ :=
  if_neg h.not_gt

/-- Rounding keeps the order. -/
theorem roundTop_mono : Monotone roundTop := by
  intro v w h
  induction w with
  | top => exact le_top
  | coe q =>
    induction v with
    | top => exact absurd h (WithTop.coe_lt_top q).not_ge
    | coe p =>
      have hle : nearest p ≤ nearest q := nearest_mono (WithTop.coe_le_coe.mp h)
      obtain hq | hq := lt_or_ge (nearest q) (2 ^ (1024 : ℤ))
      · rw [roundTop_of_lt hq, roundTop_of_lt (hle.trans_lt hq)]
        exact WithTop.coe_le_coe.mpr hle
      · rw [roundTop_of_le hq]
        exact le_top

/-- What is not negative is not rounded to something negative. -/
theorem roundTop_nonneg {v : WithTop ℚ} (h : 0 ≤ v) : 0 ≤ roundTop v := by
  have hzero : roundTop (0 : ℚ) = (0 : ℚ) := by
    rw [roundTop_of_lt, nearest_zero]
    rw [nearest_zero]
    positivity
  exact hzero.symm.le.trans (roundTop_mono h)

/-- A number that is packed becomes the double that stands for it, or infinity if it is too
large. -/
theorem hasExtendedValue_pack {u : UnpackedFloat} {q : ℚ} (hu : Encodes u (nearest q))
    (hlower : -2 ^ (1024 : ℤ) < nearest q) :
    HasExtendedValue (.ofModel (.pack u)) (roundTop q) := by
  obtain hq | hq := lt_or_ge (nearest q) (2 ^ (1024 : ℤ))
  · rw [roundTop_of_lt hq]
    exact .value (hasValue_pack hu (abs_lt.mpr ⟨hlower, hq⟩))
  · rw [roundTop_of_le hq]
    refine .infinity ((hu.pack_cases ((zpow_pos two_pos _).trans_le hq)).resolve_right fun hx => ?_)
    exact ((le_abs_self _).trans hx.abs_le).not_gt (maxFinite_lt.trans_le hq)

namespace HasExtendedValue

variable {x y : Float} {v w : WithTop ℚ}

/-- The order is that of what the doubles stand for. -/
theorem le (hx : HasExtendedValue x v) (hy : HasExtendedValue y w) (h : v ≤ w) : x ≤ y := by
  cases hy with
  | infinity hy =>
    have hle : x ≤ y ↔ (x.toModel.unpack.compare y.toModel.unpack).any (·.isLE) = true :=
      decide_eq_true_iff
    rw [hle, hy]
    cases hx with
    | infinity hx =>
      rw [hx]
      rfl
    | value hx =>
      unfold HasValue at hx
      generalize x.toModel.unpack = u at hx
      cases hx <;> rfl
  | value hy =>
    cases hx with
    | infinity hx => exact absurd h (WithTop.coe_lt_top _).not_ge
    | value hx => exact (hx.le_iff hy).mpr (WithTop.coe_le_coe.mp h)

/-- Infinity plus a number or infinity is infinity. -/
theorem add_infinity (hx : IsInfinity x) (hy : HasExtendedValue y w) : IsInfinity (x + y) := by
  have hsum : x + y =
      .ofModel (.pack (UnpackedFloat.add Format.binary64 x.toModel.unpack y.toModel.unpack)) := rfl
  rw [hsum, hx]
  cases hy with
  | infinity hy =>
    rw [hy]
    exact isInfinity_pack
  | value hy =>
    unfold HasValue at hy
    generalize y.toModel.unpack = u at hy
    cases hy <;> exact isInfinity_pack

/-- A sum with something that is not negative is the exact sum rounded, or infinity. -/
theorem add (hx : HasExtendedValue x v) (hy : HasExtendedValue y w) (hw : 0 ≤ w) :
    HasExtendedValue (x + y) (roundTop (v + w)) := by
  cases hx with
  | infinity hx => exact .infinity (add_infinity hx hy)
  | @value p hx =>
    cases hy with
    | infinity hy => exact .infinity (hy.add_of_hasValue hx)
    | @value q hy =>
      have hq : 0 ≤ q := WithTop.coe_le_coe.mp hw
      refine hasExtendedValue_pack (q := p + q) (Encodes.add hx hy) ?_
      calc -2 ^ (1024 : ℤ) < -maxFinite := neg_lt_neg maxFinite_lt
        _ ≤ p := (abs_le.mp hx.abs_le).1
        _ = nearest p := hx.nearest_eq.symm
        _ ≤ nearest (p + q) := nearest_mono (le_add_of_nonneg_right hq)

end HasExtendedValue

/-- A natural number becomes the nearest double, or infinity. -/
theorem hasExtendedValue_ofNat (n : ℕ) : HasExtendedValue (Float.ofNat n) (roundTop (n : ℚ)) := by
  have hnonneg : 0 ≤ nearest (n : ℚ) := nearest_nonneg n.cast_nonneg
  obtain hn | hn := lt_or_ge (nearest (n : ℚ)) (2 ^ (1024 : ℤ))
  · rw [roundTop_of_lt hn]
    exact .value (hasValue_ofNat (by rwa [abs_of_nonneg hnonneg]))
  · have hlarge : ¬ (n < 2 ^ 53 ∧ 0 ≤ 22) := fun h => by
      have hlt : |nearest (n : ℚ)| < 2 ^ (1024 : ℤ) := abs_nearest_lt_of_le (by
        rw [Nat.abs_cast]
        exact_mod_cast h.1.le.trans (by norm_num))
      exact hn.not_gt ((le_abs_self _).trans_lt hlt)
    change HasExtendedValue (Float.ofScientific n false 0) _
    unfold Float.ofScientific
    rw [dif_neg hlarge]
    exact hasExtendedValue_pack (encodes_ofScientific n)
      ((neg_lt_zero.mpr (zpow_pos two_pos _)).trans_le hnonneg)

/-- What is above a number is above all smaller numbers. -/
theorem HasValue.lt_of_le_of_lt {x y t : Float} {p q : ℚ} (hx : HasValue x p) (hy : HasValue y q)
    (hle : p ≤ q) (hlt : y < t) : x < t := by
  by_cases hfin : t.isFinite
  · have ht := hasValue_value hfin
    exact (hx.lt_iff ht).mpr (hle.trans_lt ((hy.lt_iff ht).mp hlt))
  · -- Infinity is above both numbers, and nothing else that is not finite is above any.
    have hcompare (z : Float) :
        z < t ↔ (z.toModel.unpack.compare t.toModel.unpack == some .lt) = true :=
      decide_eq_true_iff
    rw [hcompare] at hlt ⊢
    unfold HasValue at hx hy
    change ¬ t.toModel.unpack.isFinite at hfin
    generalize x.toModel.unpack = u at hx
    generalize y.toModel.unpack = u' at hy hlt
    generalize t.toModel.unpack = v at hfin hlt
    cases v with
    | notANumber => cases hy <;> exact Bool.noConfusion hlt
    | infinity s =>
      cases s with
      | positive => cases hx <;> rfl
      | negative => cases hy <;> exact Bool.noConfusion hlt
    | zero s => exact absurd rfl hfin
    | finite s m e hm => exact absurd rfl hfin

end DiceOdds.Binary64
