import DiceOdds.Proofs.Binary64.Whole

/-!
# Results that are finite

A number that is too large for a double is packed into an infinity, and infinite and undefined
operands never give a finite sum, difference or product. So a finite result is proof enough that its
operands were finite and that nothing overflowed on the way.
-/

namespace DiceOdds.Binary64

open Float.Model UnpackedFloat

/-- A word with the largest exponent field stands for no number. -/
theorem not_isFinite_packComponents (s : Sign) (f : BitVec 52) :
    ¬ (UnpackedFloat.unpack Format.binary64
      (packComponents Format.binary64 s (-1#11) f)).isFinite := by
  rw [isFinite_unpack, exponentBits_packComponents]
  decide

/-- What is packed into a finite double is a number. -/
theorem isFinite_of_isFinite_pack {u : UnpackedFloat} (h : (Float.ofModel (.pack u)).isFinite) :
    u.isFinite := by
  cases u with
  | infinity s => exact absurd h (not_isFinite_packComponents s _)
  | notANumber => exact absurd h (not_isFinite_packComponents .positive (1#52 <<< 51))
  | zero s => rfl
  | finite s m e hpos => rfl

/-- A number that is packed into a finite double is not too large. -/
theorem Encodes.abs_lt_of_isFinite_pack {u : UnpackedFloat} {q : ℚ} (hu : Encodes u q)
    (h : (Float.ofModel (.pack u)).isFinite) : |q| < 2 ^ (1024 : ℤ) := by
  cases hu with
  | zero s =>
    rw [abs_zero]
    positivity
  | finite s m e hpos hlt he hnormal =>
    have hbias : (Format.binary64.exponentBias : ℤ) = 1023 := by decide
    have hfit : e ≤ 971 := by
      -- With a larger exponent the exponent field would be that of an infinity.
      by_contra hgt
      have hlarge : 2 ^ Format.binary64.exponentBits ≤ (e + Format.binary64.exponentBias +
          Format.binary64.mantissaBitsWithoutImplicit).toNat + 1 := by
        rw [hbias]
        change 2 ^ 11 ≤ (e + 1023 + (52 : ℕ)).toNat + 1
        omega
      have hpack : UnpackedFloat.pack Format.binary64 (.finite s m e hpos) =
          packedInfinity Format.binary64 s := if_pos hlarge
      have hfinite : (UnpackedFloat.unpack Format.binary64
          (UnpackedFloat.pack Format.binary64 (.finite s m e hpos))).isFinite := h
      rw [hpack] at hfinite
      exact not_isFinite_packComponents s _ hfinite
    have hm : (m : ℚ) < 2 ^ (53 : ℤ) := by exact_mod_cast hlt
    rw [abs_signFactor_mul s (by positivity)]
    calc (m : ℚ) * 2 ^ e < 2 ^ (53 : ℤ) * 2 ^ e := by gcongr
      _ ≤ 2 ^ (53 : ℤ) * 2 ^ (971 : ℤ) := by gcongr; exact one_le_two
      _ = 2 ^ (1024 : ℤ) := by
        rw [← zpow_add₀ two_ne_zero]
        norm_num

/-! ## Sums and differences -/

/-- A finite sum is the number nearest to the exact sum. -/
theorem HasValue.add_of_isFinite {x y : Float} {p q : ℚ} (hx : HasValue x p) (hy : HasValue y q)
    (h : (x + y).isFinite) : HasValue (x + y) (nearest (p + q)) :=
  hx.add hy ((Encodes.add hx hy).abs_lt_of_isFinite_pack h)

/-- A finite difference is the number nearest to the exact difference. -/
theorem HasValue.sub_of_isFinite {x y : Float} {p q : ℚ} (hx : HasValue x p) (hy : HasValue y q)
    (h : (x - y).isFinite) : HasValue (x - y) (nearest (p - q)) :=
  hx.sub hy ((Encodes.sub hx hy).abs_lt_of_isFinite_pack h)

/-- Only finite parts have a finite sum. -/
theorem isFinite_of_add {u v : UnpackedFloat}
    (h : (UnpackedFloat.add Format.binary64 u v).isFinite) : u.isFinite ∧ v.isFinite := by
  cases u with
  | notANumber => exact Bool.noConfusion h
  | infinity s =>
    cases v with
    | infinity s' =>
      -- Opposite infinities have no sum, and equal ones are their sum.
      rw [UnpackedFloat.add] at h
      split_ifs at h <;> exact Bool.noConfusion h
    | _ => exact Bool.noConfusion h
  | zero s =>
    cases v with
    | notANumber => exact Bool.noConfusion h
    | infinity s' => exact Bool.noConfusion h
    | _ => exact ⟨rfl, rfl⟩
  | finite s m e hm =>
    cases v with
    | notANumber => exact Bool.noConfusion h
    | infinity s' => exact Bool.noConfusion h
    | _ => exact ⟨rfl, rfl⟩

/-- Only finite numbers have a finite sum. -/
theorem isFinite_of_isFinite_add {x y : Float} (h : (x + y).isFinite) :
    x.isFinite ∧ y.isFinite :=
  isFinite_of_add (isFinite_of_isFinite_pack h)

/-- Only finite numbers have a finite difference. -/
theorem isFinite_of_isFinite_sub {x y : Float} (h : (x - y).isFinite) :
    x.isFinite ∧ y.isFinite := by
  have hsub : (UnpackedFloat.sub Format.binary64 x.toModel.unpack y.toModel.unpack).isFinite :=
    isFinite_of_isFinite_pack h
  rw [sub_eq_add_opposite] at hsub
  obtain ⟨hx, hy⟩ := isFinite_of_add hsub
  refine ⟨hx, ?_⟩
  change y.toModel.unpack.isFinite
  generalize y.toModel.unpack = v at *
  cases v with
  | notANumber => exact hy
  | infinity s => exact hy
  | zero s => rfl
  | finite s m e hm => rfl

/-! ## Products -/

/-- A finite product is the number nearest to the exact product. -/
theorem HasValue.mul_of_isFinite {x y : Float} {p q : ℚ} (hx : HasValue x p) (hy : HasValue y q)
    (h : (x * y).isFinite) : HasValue (x * y) (nearest (p * q)) :=
  hx.mul hy ((Encodes.mul hx hy).abs_lt_of_isFinite_pack h)

/-- Only finite numbers have a finite product. -/
theorem isFinite_of_isFinite_mul {x y : Float} (h : (x * y).isFinite) :
    x.isFinite ∧ y.isFinite := by
  have hmul : (UnpackedFloat.mul Format.binary64 x.toModel.unpack y.toModel.unpack).isFinite :=
    isFinite_of_isFinite_pack h
  change x.toModel.unpack.isFinite ∧ y.toModel.unpack.isFinite
  generalize x.toModel.unpack = u at *
  generalize y.toModel.unpack = v at *
  cases u with
  | notANumber => exact Bool.noConfusion hmul
  | infinity s => cases v <;> exact Bool.noConfusion hmul
  | zero s =>
    cases v with
    | notANumber => exact Bool.noConfusion hmul
    | infinity s' => exact Bool.noConfusion hmul
    | _ => exact ⟨rfl, rfl⟩
  | finite s m e hm =>
    cases v with
    | notANumber => exact Bool.noConfusion hmul
    | infinity s' => exact Bool.noConfusion hmul
    | _ => exact ⟨rfl, rfl⟩

/-! ## Whole numbers -/

/-- Only a finite number passes the test for whole numbers. -/
theorem isFinite_of_isWhole {x : Float} (h : Arithmetic.isWhole x) : x.isFinite := by
  have hzero : ∃ q, HasValue (Float.ofNat 0) q := ⟨_, hasValue_ofNat_of_le (by norm_num)⟩
  have hcompare : ((x - trunc x).toModel.unpack.compare (Float.ofNat 0).toModel.unpack ==
      some .eq) = true := h
  -- What equals 0 is finite, and so is what it is the difference of.
  suffices (x - trunc x).toModel.unpack.isFinite from (isFinite_of_isFinite_sub this).1
  obtain ⟨q, hq⟩ := hzero
  unfold HasValue at hq
  generalize (Float.ofNat 0).toModel.unpack = v at *
  generalize (x - trunc x).toModel.unpack = u at *
  cases u with
  | notANumber => exact Bool.noConfusion hcompare
  | infinity s => cases s <;> cases hq <;> exact Bool.noConfusion hcompare
  | zero s => rfl
  | finite s m e hm => rfl

end DiceOdds.Binary64
