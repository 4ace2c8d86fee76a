import DiceOdds.Binary
import DiceOdds.Proofs.Binary64.Overflow

/-!
# Signs of doubles

A double that is defined has a sign, also if it is zero or infinite. The sign is in the word, is not
changed by rounding, and follows the rule of signs in a quotient. With it a double is known by the
number that it stands for, or by standing for none.
-/

namespace DiceOdds.Binary64

open Float.Model UnpackedFloat

/-- The sign of what is defined. -/
def sign? : UnpackedFloat → Option Sign
  | .notANumber => none
  | .infinity s | .zero s | .finite s _ _ _ => some s

/-- Whether `x` is defined and its sign bit is clear. -/
def IsUnsigned (x : Float) : Prop := x.isNaN = false ∧ Binary.isNegative x = false

instance (x : Float) : Decidable (IsUnsigned x) := inferInstanceAs (Decidable (_ ∧ _))

/-! ## Signs in words -/

/-- What a word stands for is undefined or has the word's sign. -/
theorem sign?_unpack (b : BitVec 64) : sign? (UnpackedFloat.unpack Format.binary64 b) =
    if (UnpackedFloat.unpack Format.binary64 b).isNaN then none else some (signBit b) := by
  simp only [UnpackedFloat.unpack, ofBitVec_unpackSign]
  split_ifs <;> first | rfl | contradiction

/-- The sign bit of a word is that of its first bit. -/
theorem isNegative_eq_false_iff (x : Float) :
    Binary.isNegative x = false ↔ signBit x.toBits.toBitVec = .positive := by
  have hlt := x.toBits.toNat_lt
  have hbit : Binary.isNegative x = false ↔ x.toBits.toNat < 2 ^ 63 := by
    rw [Binary.isNegative, beq_eq_false_iff_ne, Ne, ← UInt64.toNat_inj, UInt64.toNat_shiftRight,
      Nat.shiftRight_eq_div_pow]
    change ¬ x.toBits.toNat / 2 ^ 63 = 1 ↔ _
    omega
  rw [hbit, signBit, UInt64.toNat_toBitVec]
  split_ifs with h
  · exact iff_of_true h rfl
  · exact iff_of_false h (by decide)

/-- The doubles with a clear sign bit are those with a positive sign. -/
theorem isUnsigned_iff (x : Float) :
    IsUnsigned x ↔ sign? x.toModel.unpack = some .positive := by
  have hsign : sign? x.toModel.unpack =
      if x.isNaN then none else some (signBit x.toBits.toBitVec) := sign?_unpack x.toBits.toBitVec
  rw [IsUnsigned, hsign, isNegative_eq_false_iff]
  cases x.isNaN with
  | true => simp
  | false => simp

/-- A word that is put together has the sign that is put into it. -/
theorem sign?_unpack_packComponents (s : Sign) {e : BitVec 11} {f : BitVec 52}
    (h : e ≠ -1#11 ∨ f = 0#52) :
    sign? (UnpackedFloat.unpack Format.binary64 (packComponents Format.binary64 s e f)) =
      some s := by
  simp only [UnpackedFloat.unpack, unpackMantissa_packComponents, unpackExponent_packComponents,
    unpackSign_packComponents, Sign.ofBitVec_toBitVec]
  split_ifs with hlargest hzero
  · rfl
  · -- Only a word with the largest exponent field and a fraction is undefined.
    exact absurd h (not_or.mpr ⟨not_not.mpr hlargest, hzero⟩)
  · rfl
  · rfl
  · rfl

/-- A number has its sign also in a word. -/
theorem sign?_unpack_pack (u : UnpackedFloat) :
    sign? (UnpackedFloat.unpack Format.binary64 (UnpackedFloat.pack Format.binary64 u)) =
      sign? u := by
  cases u with
  | notANumber => rw [UnpackedFloat.pack, unpack_packedNaN]
  | infinity s => exact sign?_unpack_packComponents s (.inr rfl)
  | zero s => exact sign?_unpack_packComponents s (.inr rfl)
  | finite s m e hpos =>
    simp only [UnpackedFloat.pack]
    split_ifs with hlarge hlog
    · exact sign?_unpack_packComponents s (.inr rfl)
    · refine sign?_unpack_packComponents s (.inl fun hlargest => hlarge ?_)
      have hfield := congrArg BitVec.toNat hlargest
      rw [BitVec.toNat_ofNat] at hfield
      change _ % 2 ^ 11 = 2047 at hfield
      change 2 ^ 11 ≤ _
      omega
    · exact sign?_unpack_packComponents s (.inl (by decide))

/-! ## Signs of results -/

/-- Rounding keeps the sign. -/
theorem sign?_roundWithAccuracy (s : Sign) (m : ℕ) (e : ℤ) (acc : Accuracy) :
    sign? (roundWithAccuracy Format.binary64 s m e acc) = some s := by
  unfold roundWithAccuracy
  dsimp only
  split_ifs <;> rfl

/-- The quotient of a finite number by another that is not zero has the quotient of the signs. -/
theorem sign?_div {u : UnpackedFloat} {s s' : Sign} {n : ℕ} {f : ℤ} {hn : 0 < n} (hu : u.isFinite)
    (hs : sign? u = some s) :
    sign? (UnpackedFloat.div Format.binary64 u (.finite s' n f hn)) = some (s / s') := by
  cases u with
  | notANumber => cases hu
  | infinity => cases hu
  | zero s₁ =>
    obtain rfl : s₁ = s := Option.some.inj hs
    rfl
  | finite s₁ m e hm =>
    obtain rfl : s₁ = s := Option.some.inj hs
    exact sign?_roundWithAccuracy _ _ _ _

/-! ## Doubles known by their numbers -/

/-- A number is written in one way only with each sign. -/
theorem Encodes.eq_of_sign {u v : UnpackedFloat} {x : ℚ} (hu : Encodes u x) (hv : Encodes v x)
    (h : sign? u = sign? v) : u = v := by
  have hne {s : Sign} {m : ℕ} {e : ℤ} (hpos : 0 < m) : signFactor s * ((m : ℚ) * 2 ^ e) ≠ 0 := by
    have : (0 : ℚ) < m := by exact_mod_cast hpos
    cases s with
    | negative => rw [signFactor]; positivity
    | positive => rw [signFactor]; positivity
  cases hu with
  | zero s =>
    generalize hx : (0 : ℚ) = x at hv
    cases hv with
    | zero s' => rw [Option.some.inj h]
    | finite s' m' e' hpos' => exact absurd hx.symm (hne hpos')
  | finite s m e hpos hlt he hnormal =>
    generalize hx : signFactor s * ((m : ℚ) * 2 ^ e) = x at hv
    cases hv with
    | zero s' => exact absurd hx (hne hpos)
    | finite s' m' e' hpos' hlt' he' hnormal' =>
      obtain rfl : s = s' := Option.some.inj h
      have hfactor : signFactor s ≠ 0 := by cases s <;> norm_num [signFactor]
      have hx' := mul_left_cancel₀ hfactor hx
      -- Of two numbers on different grids the one on the coarser grid is larger.
      obtain hlt'' | rfl | hgt := lt_trichotomy e e'
      · exact absurd hx' (mul_two_zpow_lt hlt he hnormal' hlt'').ne
      · have hm := mul_right_cancel₀ (zpow_ne_zero e two_ne_zero) hx'
        exact finite_congr s (by exact_mod_cast hm) rfl hpos hpos'
      · exact absurd hx' (mul_two_zpow_lt hlt' he' hnormal hgt).ne'

/-- A double is known by what it stands for. -/
theorem eq_of_unpack_eq {x y : Float} (h : x.toModel.unpack = y.toModel.unpack) : x = y := by
  obtain ⟨⟨b, hb⟩⟩ := x
  obtain ⟨⟨b', hb'⟩⟩ := y
  obtain rfl : b = b' := UInt64.toBitVec_inj.mp ((unpack_inj_of_valid hb hb').mp h)
  rfl

/-- Doubles with clear sign bits that stand for the same number are the same. -/
theorem IsUnsigned.eq_of_hasValue {x y : Float} (hx : IsUnsigned x) (hy : IsUnsigned y) {q : ℚ}
    (hxq : HasValue x q) (hyq : HasValue y q) : x = y := by
  rw [isUnsigned_iff] at hx hy
  exact eq_of_unpack_eq (Encodes.eq_of_sign hxq hyq (hx.trans hy.symm))

/-- What has a sign and is not finite is an infinity. -/
theorem eq_infinity_of_sign {u : UnpackedFloat} {s : Sign} (hs : sign? u = some s)
    (h : ¬ u.isFinite) : u = .infinity s := by
  cases u with
  | notANumber => cases hs
  | infinity s' => rw [Option.some.inj hs]
  | zero s' => exact absurd rfl h
  | finite s' m e hpos => exact absurd rfl h

/-- There is one double with a clear sign bit that stands for no number. -/
theorem IsUnsigned.eq_of_not_isFinite {x y : Float} (hx : IsUnsigned x) (hy : IsUnsigned y)
    (hxf : ¬ x.isFinite) (hyf : ¬ y.isFinite) : x = y := by
  rw [isUnsigned_iff] at hx hy
  exact eq_of_unpack_eq ((eq_infinity_of_sign hx hxf).trans (eq_infinity_of_sign hy hyf).symm)

end DiceOdds.Binary64
