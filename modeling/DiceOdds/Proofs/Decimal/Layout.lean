import DiceOdds.Decimal.Layout
import DiceOdds.Proofs.Decimal.Shortest
import DiceOdds.Proofs.Token.Pieces

/-!
# Decimals written out

A decimal that is written in full is a numeral with its value, so that the double whose shortest
decimal it is can be read back from it. In an expression a number is written in full exactly if it
is 0 or at least `10 ^ -4` and below `10 ^ 16` (`Layout.number_literal`); the texts of all others
have a letter in them that no token has.
-/

namespace DiceOdds

open Binary64 Token

/-! ## Digits -/

/-- Zeros are digits. -/
theorem isDigit_of_mem_replicate {n : ℕ} {c : Char} (h : c ∈ List.replicate n '0') :
    c.isDigit = true := by
  rw [List.eq_of_mem_replicate h]
  rfl

namespace Decimal

/-- The digits of a decimal are digits. -/
theorem isDigit_of_mem_chars {d : Decimal} {c : Char} (h : c ∈ d.chars) : c.isDigit = true :=
  Nat.isDigit_of_mem_toDigits (by norm_num) le_rfl h

/-- A decimal that is written in full is a numeral with its value. -/
theorem exists_numeral (d : Decimal) : ∃ n : Numeral,
    d.positional ++ (if d.exponent < 0 then [] else ['.', '0']) = n.text ∧
      (n.digits / 10 ^ n.places.length : ℚ) = d.value := by
  unfold positional
  by_cases hplaces : (-d.exponent).toNat = 0
  · -- Without places zeros fill up to the point, and one more follows it.
    rw [if_pos hplaces, if_neg (by omega)]
    refine ⟨⟨d.chars ++ List.replicate d.exponent.toNat '0', ['0'], ?_, ?_, ?_⟩, rfl, ?_⟩
    · exact fun h => Nat.toDigits_ne_nil (List.append_eq_nil_iff.mp h).1
    · exact List.forall_mem_append.mpr
        ⟨fun c => isDigit_of_mem_chars, fun c => isDigit_of_mem_replicate⟩
    · exact fun c hc => isDigit_of_mem_replicate (n := 1) hc
    · obtain ⟨k, hk⟩ := Int.eq_ofNat_of_zero_le (show 0 ≤ d.exponent by omega)
      have hdigits : placeValue (d.chars ++ List.replicate d.exponent.toNat '0' ++ ['0']) =
          10 * (10 ^ k * d.digits) := by
        rw [placeValue_append, placeValue_append, placeValue_replicate_zero,
          List.length_replicate, chars, placeValue_toDigits, hk, Int.toNat_natCast, Nat.add_zero]
        exact Nat.add_zero _
      rw [Numeral.digits, hdigits, value, hk, zpow_natCast]
      push_cast
      rw [List.length_singleton]
      ring
  · -- With places zeros are put before the digits until one stands before the point.
    rw [if_neg hplaces, if_pos (by omega), List.append_nil]
    generalize hpadded : List.replicate ((-d.exponent).toNat + 1 - length d.digits) '0' ++ d.chars =
      padded
    have hlength : (-d.exponent).toNat < padded.length := by
      rw [← hpadded, List.length_append, List.length_replicate]
      change _ < _ + length d.digits
      omega
    have hdigit : ∀ c ∈ padded, c.isDigit = true := by
      rw [← hpadded]
      exact List.forall_mem_append.mpr
        ⟨fun c => isDigit_of_mem_replicate, fun c => isDigit_of_mem_chars⟩
    have hvalue : placeValue padded = d.digits := by
      rw [← hpadded, placeValue_append, placeValue_replicate_zero, mul_zero, zero_add, chars,
        placeValue_toDigits]
    refine ⟨⟨padded.take (padded.length - (-d.exponent).toNat),
      padded.drop (padded.length - (-d.exponent).toNat), ?_, ?_, ?_⟩, rfl, ?_⟩
    · intro hnil
      have := congrArg List.length hnil
      rw [List.length_take, List.length_nil] at this
      omega
    · exact fun c hc => hdigit c (List.mem_of_mem_take hc)
    · exact fun c hc => hdigit c (List.mem_of_mem_drop hc)
    · have hcount : (padded.drop (padded.length - (-d.exponent).toNat)).length =
          (-d.exponent).toNat := by
        rw [List.length_drop]
        omega
      rw [Numeral.digits, List.take_append_drop, hvalue, hcount, value, div_eq_mul_inv,
        ← zpow_natCast, ← zpow_neg]
      congr 2
      omega

/-- The exponent of the first digit is that of the greatest power of ten that is not above. -/
theorem le_firstExponent_iff {d : Decimal} (h : 0 < d.digits) (k : ℤ) :
    k ≤ d.firstExponent ↔ (10 : ℚ) ^ k ≤ d.value := by
  have hlength : 0 < length d.digits := Nat.length_toDigits_pos
  have hlower : 10 ^ (length d.digits - 1) ≤ d.digits := by
    by_contra hlt
    obtain hone | hmore := (Nat.succ_le_of_lt hlength).eq_or_lt
    · rw [← hone] at hlt
      exact hlt h
    · have := (Nat.length_toDigits_le_iff (by norm_num) (by omega)).mpr (not_le.mp hlt)
      change length d.digits ≤ _ at this
      omega
  have hupper : d.digits < 10 ^ length d.digits :=
    (Nat.length_toDigits_le_iff (by norm_num) hlength).mp le_rfl
  have hpos : (0 : ℚ) < 10 ^ d.exponent := by positivity
  constructor
  · intro hk
    calc (10 : ℚ) ^ k ≤ 10 ^ ((length d.digits - 1 : ℕ) + d.exponent) := by
          apply zpow_le_zpow_right₀ (by norm_num)
          rw [firstExponent] at hk
          omega
      _ = (10 ^ (length d.digits - 1) : ℕ) * 10 ^ d.exponent := by
        rw [zpow_add₀ (by norm_num), zpow_natCast]
        push_cast
        rfl
      _ ≤ d.value := mul_le_mul_of_nonneg_right (by exact_mod_cast hlower) hpos.le
  · intro hk
    by_contra hlt
    have hpow : (10 : ℚ) ^ (length d.digits + d.exponent) ≤ 10 ^ k := by
      apply zpow_le_zpow_right₀ (by norm_num)
      rw [firstExponent] at hlt
      omega
    have hvalue : d.value < 10 ^ (length d.digits + d.exponent) := by
      rw [zpow_add₀ (by norm_num), zpow_natCast]
      exact mul_lt_mul_of_pos_right (by exact_mod_cast hupper) hpos
    exact (hk.trans_lt hvalue).not_ge hpow

/-- A number other than 0 has a digit other than 0. -/
theorem digits_shortest_pos {b : Binary} (hb : b.IsDouble) (h : 0 < b.mantissa) :
    0 < (shortest b).digits := by
  by_contra hzero
  have hround := Binary.nearest_eq_of_reads hb (reads_shortest b)
  rw [Nat.eq_zero_of_not_pos hzero, Nat.cast_zero, zero_mul, nearest_zero] at hround
  have : 0 < b.value := mul_pos (by exact_mod_cast h) (by positivity)
  exact this.ne hround

end Decimal

/-! ## Numbers in expressions -/

namespace Layout

/-- The digits of a finite double with a clear sign bit are read as the double. -/
theorem pointValue_text_eq {x : Float} (hx : IsUnsigned x) (hfinite : x.isFinite) {n : Numeral}
    (hn : (n.digits / 10 ^ n.places.length : ℚ) = (Decimal.shortest (.ofFloat x)).value) :
    pointValue n.text = x := by
  rw [Numeral.pointValue_text]
  refine ofScientific_eq_of_nearest hx (Binary.hasValue_ofFloat hx hfinite) ?_
  rw [hn, Decimal.nearest_value_shortest]

/-- A digit with as many zeros after it as a double has binary places is too large for one. -/
theorem exists_numeral_not_isFinite :
    ∃ n : Numeral, ¬ (pointValue n.text : Float).isFinite := by
  obtain ⟨k, hk⟩ : ∃ k : ℕ, (k : ℤ) = 1024 := ⟨1024, rfl⟩
  refine ⟨⟨'1' :: List.replicate k '0', [], List.cons_ne_nil _ _, ?_, ?_⟩, ?_⟩
  · exact List.forall_mem_cons.mpr ⟨rfl, fun c => isDigit_of_mem_replicate⟩
  · exact fun c hc => (List.not_mem_nil hc).elim
  · rw [Numeral.pointValue_text]
    refine not_isFinite_ofScientific ?_
    have hdigits : placeValue ('1' :: List.replicate k '0' ++ []) = 10 ^ k := by
      rw [List.append_nil, ← List.singleton_append, placeValue_append,
        placeValue_replicate_zero, List.length_replicate]
      exact Nat.mul_one _
    have hpower : Representable (2 ^ (k : ℤ)) := ⟨1, k, by norm_num, by omega, by simp⟩
    rw [Numeral.digits, hdigits, List.length_nil, pow_zero, div_one, ← hk, ← hpower.nearest_eq]
    apply nearest_mono
    rw [zpow_natCast]
    exact_mod_cast Nat.pow_le_pow_left (by norm_num) k

/-- Every double with a clear sign bit is read from some numeral. -/
theorem exists_numeral_pointValue {x : Float} (hx : IsUnsigned x) :
    ∃ n : Numeral, pointValue n.text = x := by
  by_cases hfinite : x.isFinite
  · obtain ⟨n, -, hn⟩ := (Decimal.shortest (.ofFloat x)).exists_numeral
    exact ⟨n, pointValue_text_eq hx hfinite hn⟩
  · obtain ⟨n, hn⟩ := exists_numeral_not_isFinite
    refine ⟨n, IsUnsigned.eq_of_not_isFinite ?_ hx hn hfinite⟩
    rw [Numeral.pointValue_text]
    exact isUnsigned_ofScientific _ _

/-- A finite double with a clear sign bit is written with its shortest decimal. -/
theorem number_of_isFinite (l : Layout) {x : Float} (hx : IsUnsigned x) (hfinite : x.isFinite) :
    l.number x = l.write (.shortest (.ofFloat x)) := by
  have hinf : x.isInf = false := by
    change x.toModel.unpack.isFinite = true at hfinite
    change x.toModel.unpack.isInf = false
    generalize x.toModel.unpack = u at *
    cases u with
    | infinity s => cases hfinite
    | notANumber | zero | finite => rfl
  simp only [number, hx.1, hx.2, hinf, Bool.false_eq_true, if_false]

/-- An infinite double with a clear sign bit is written as a name. -/
theorem number_of_not_isFinite (l : Layout) {x : Float} (hx : IsUnsigned x)
    (hfinite : ¬ x.isFinite) : l.number x = ['i', 'n', 'f'] := by
  obtain rfl : x = Float.ofBits 0x7ff0000000000000 :=
    hx.eq_of_not_isFinite (by decide +kernel) hfinite (by decide +kernel)
  have hinf : (Float.ofBits 0x7ff0000000000000).isInf = true := by decide +kernel
  simp only [number, hx.1, hx.2, hinf, Bool.false_eq_true, if_false, if_true]

/-- The exponent of the first digit decides on which side of a power of ten a double is. -/
theorem le_firstExponent_shortest_iff {x t : Float} {k : ℤ} (hx : IsUnsigned x)
    (hxf : x.isFinite) (hpos : 0 < (Binary.ofFloat x).mantissa) (ht : IsUnsigned t)
    (htf : t.isFinite) (hk : Decimal.shortest (.ofFloat t) = ⟨1, k⟩) :
    k ≤ (Decimal.shortest (.ofFloat x)).firstExponent ↔ t ≤ x := by
  have hdigits := Decimal.digits_shortest_pos (Binary.isDouble_ofFloat x) hpos
  have hone : Decimal.value ⟨1, k⟩ = 10 ^ k := by
    rw [Decimal.value, Nat.cast_one, one_mul]
  rw [Decimal.le_firstExponent_iff hdigits, ← Decimal.value_shortest_le_iff ht hx htf hxf, hk, hone]

/-- The exponents that an expression leaves out are those of 0 and of the numbers from `10 ^ -4` up
to `10 ^ 16`. -/
theorem firstExponent_shortest_mem_iff {x : Float} (hx : IsUnsigned x) (hfinite : x.isFinite) :
    (-4 ≤ (Decimal.shortest (.ofFloat x)).firstExponent ∧
        (Decimal.shortest (.ofFloat x)).firstExponent < 16) ↔
      x = 0 ∨ 1e-4 ≤ x ∧ x < 1e16 := by
  have hvalue := Binary.hasValue_ofFloat hx hfinite
  obtain hzero | hpos := (Binary.ofFloat x).mantissa.eq_zero_or_pos
  · have hx0 : x = 0 := by
      refine hx.eq_of_hasValue (q := 0) (by decide +kernel) ?_ ?_
      · rwa [Binary.value, hzero, Nat.cast_zero, zero_mul] at hvalue
      · exact_mod_cast hasValue_ofNat_of_le (n := 0) (by norm_num)
    rw [Decimal.shortest, if_pos hzero]
    exact iff_of_true (by decide) (.inl hx0)
  · have hne : x ≠ 0 := by
      rintro rfl
      exact absurd hpos (by decide +kernel)
    have hsmall := le_firstExponent_shortest_iff (t := 1e-4) hx hfinite hpos (by decide +kernel)
      (by decide +kernel) (k := -4) (by decide +kernel)
    have hlarge := le_firstExponent_shortest_iff (t := 1e16) hx hfinite hpos (by decide +kernel)
      (by decide +kernel) (k := 16) (by decide +kernel)
    have hlimit : HasValue 1e16 _ := hasValue_value (x := 1e16) (by decide +kernel)
    rw [or_iff_right hne, hsmall, ← not_le, hlarge, hlimit.le_iff hvalue, hvalue.lt_iff hlimit,
      not_le]

/-- The letters of exponents and infinities are in no token. -/
theorem not_isWritten {c : Char} (h : c = 'e' ∨ c = 'i') :
    isSeparator c = false ∧ ¬ IsWritten c := by
  have hname (f : Reduction) : 'e' ∉ f.name ∧ 'i' ∉ f.name := by
    cases f with
    | roll | avg | prob => decide
  rcases h with rfl | rfl
  · refine ⟨rfl, ?_⟩
    rintro (h | h | h | ⟨f, h⟩)
    · cases h
    · cases h
    · cases h
    · exact (hname f).1 h
  · refine ⟨rfl, ?_⟩
    rintro (h | h | h | ⟨f, h⟩)
    · cases h
    · cases h
    · cases h
    · exact (hname f).2 h

/-- In an expression 0 and the numbers from `10 ^ -4` up to `10 ^ 16` are written in full, and are
read as what they are; the text of any other has a character in it that is in no token. -/
theorem number_literal {x : Float} (hx : IsUnsigned x) :
    (x = 0 ∨ 1e-4 ≤ x ∧ x < 1e16 →
      ∃ n : Numeral, literal.number x = n.text ∧ pointValue n.text = x) ∧
    (¬ (x = 0 ∨ 1e-4 ≤ x ∧ x < 1e16) →
      ∃ c ∈ literal.number x, isSeparator c = false ∧ ¬ IsWritten c) := by
  by_cases hfinite : x.isFinite
  · rw [← firstExponent_shortest_mem_iff hx hfinite, number_of_isFinite literal hx hfinite]
    simp only [write, literal]
    constructor
    · intro hfull
      obtain ⟨n, htext, hn⟩ := (Decimal.shortest (.ofFloat x)).exists_numeral
      rw [if_pos (by simpa using hfull)]
      exact ⟨n, htext, pointValue_text_eq hx hfinite hn⟩
    · intro hfull
      rw [if_neg (by simpa using hfull)]
      exact ⟨'e', by simp [Decimal.scientific], not_isWritten (.inl rfl)⟩
  · rw [number_of_not_isFinite literal hx hfinite]
    constructor
    · -- No infinity is 0 or below a number.
      intro hfull
      obtain rfl : x = Float.ofBits 0x7ff0000000000000 :=
        hx.eq_of_not_isFinite (by decide +kernel) hfinite (by decide +kernel)
      exact absurd hfull (by decide +kernel)
    · exact fun _ => ⟨'i', List.mem_cons_self, not_isWritten (.inr rfl)⟩

end Layout

end DiceOdds
