import DiceOdds.Proofs.Binary64.Overflow

/-!
# Counts among the doubles

A count of dice or of outcomes is compared and multiplied as a double before it becomes a word
again. Rounding may move a count that takes more than 53 bits, but never to the other side of a
smaller one: a product of rounded counts that a cap of at most 53 bits lets pass is a product of
counts that it lets pass, and nothing undefined or infinite is taken for a count.
-/

namespace DiceOdds.Binary64

open Float.Model UnpackedFloat Arithmetic

/-! ## Numbers between others -/

/-- What is strictly between two doubles is finite. -/
theorem isFinite_of_lt_of_lt {x y z : Float} (hxy : x < y) (hyz : y < z) : y.isFinite := by
  have hlt (a b : Float) : a < b ↔ (a.toModel.unpack.compare b.toModel.unpack == some .lt) = true :=
    decide_eq_true_iff
  have hlower := (hlt x y).mp hxy
  have hupper := (hlt y z).mp hyz
  change y.toModel.unpack.isFinite
  generalize y.toModel.unpack = v at *
  generalize x.toModel.unpack = u at *
  generalize z.toModel.unpack = w at *
  cases v with
  | zero s => rfl
  | finite s m e hm => rfl
  | notANumber => cases u <;> exact Bool.noConfusion hlower
  | infinity s =>
    cases s with
    | positive =>
      cases w with
      | infinity s' => cases s' <;> exact Bool.noConfusion hupper
      | _ => exact Bool.noConfusion hupper
    | negative =>
      cases u with
      | infinity s' => cases s' <;> exact Bool.noConfusion hlower
      | _ => exact Bool.noConfusion hlower

/-- The whole part of a positive number that is not above a natural number is not above it. -/
theorem toNat_wholePart_le {q : ℚ} (hq : 0 ≤ q) {m : ℕ} (h : q ≤ m) :
    (wholePart q).toNat ≤ m := by
  have hfloor : ⌊q⌋ ≤ m := by exact_mod_cast (Int.floor_le q).trans h
  rw [wholePart, if_pos hq]
  omega

/-! ## Whole numbers -/

/-- A whole number is rounded to a whole number. -/
theorem exists_nearest_intCast (n : ℤ) : ∃ k : ℤ, nearest n = k := by
  obtain hle | hgt := le_or_gt |n| (2 ^ 53)
  · -- With at most 53 bits it stays as it is.
    exact ⟨n, Representable.nearest_eq ⟨n, 0, hle, by norm_num, by simp⟩⟩
  · -- With more its grid is a coarser one than that of the whole numbers.
    have hlog : (53 : ℤ) ≤ Int.log 2 |(n : ℚ)| := by
      apply (Int.zpow_le_iff_le_log Nat.one_lt_two _).mp
      · exact_mod_cast hgt.le
      · exact_mod_cast lt_trans (by norm_num) hgt
    obtain ⟨g, hg⟩ : ∃ g : ℕ, gridExponent n = g :=
      Int.eq_ofNat_of_zero_le (by unfold gridExponent; omega)
    refine ⟨roundHalfEven (n / 2 ^ gridExponent (n : ℚ)) * 2 ^ g, ?_⟩
    rw [nearest, hg, zpow_natCast]
    push_cast
    rfl

/-- Of a double that is not finite there is no fraction to cut off. -/
theorem trunc_of_not_isFinite {x : Float} (h : ¬ x.isFinite) : trunc x = x := by
  have hexp : exponentBits x.toBits.toBitVec = 2047 :=
    not_not.mp (mt (isFinite_unpack x.toBits.toBitVec).mpr h)
  have hfield := toNat_exponentField x
  simp only [trunc, UInt64.lt_iff_toNat_lt, hfield, hexp]
  rw [if_neg (by decide), if_neg (by decide)]

/-- Only a finite number has a finite whole part. -/
theorem isFinite_of_isFinite_trunc {x : Float} (h : (trunc x).isFinite) : x.isFinite := by
  by_contra hx
  exact hx (trunc_of_not_isFinite hx ▸ h)

/-- A finite whole number nearest to a double is a whole number. -/
theorem exists_hasValue_roundHalfAway {x : Float} (h : (roundHalfAway x).isFinite) :
    ∃ k : ℤ, HasValue (roundHalfAway x) k := by
  have hone : HasValue (Float.ofNat 1) ((1 : ℤ) : ℚ) := by
    exact_mod_cast hasValue_ofNat_of_le (n := 1) (by norm_num)
  have hwhole (hfin : (trunc x).isFinite) : ∃ k : ℤ, HasValue (trunc x) k :=
    ⟨_, (hasValue_value (isFinite_of_isFinite_trunc hfin)).trunc⟩
  unfold roundHalfAway at h ⊢
  dsimp only at h ⊢
  -- The whole part is moved by 1 away from zero, or stays.
  split_ifs at h ⊢
  · obtain ⟨k, hk⟩ := hwhole (isFinite_of_isFinite_add h).1
    have hsum := hk.add_of_isFinite hone h
    obtain ⟨l, hl⟩ := exists_nearest_intCast (k + 1)
    rw [← Int.cast_add, hl] at hsum
    exact ⟨l, hsum⟩
  · obtain ⟨k, hk⟩ := hwhole (isFinite_of_isFinite_sub h).1
    have hdiff := hk.sub_of_isFinite hone h
    obtain ⟨l, hl⟩ := exists_nearest_intCast (k - 1)
    rw [← Int.cast_sub, hl] at hdiff
    exact ⟨l, hdiff⟩
  · exact hwhole h

/-- A count that a double is rounded to is a natural number. -/
theorem exists_hasValue_natCast {x : Float} (hnonneg : Float.ofNat 0 ≤ roundHalfAway x)
    (hfin : (roundHalfAway x).isFinite) : ∃ n : ℕ, HasValue (roundHalfAway x) n := by
  obtain ⟨k, hk⟩ := exists_hasValue_roundHalfAway hfin
  have hzero := hasValue_ofNat_of_le (n := 0) (by norm_num)
  have hle : 0 ≤ k := by exact_mod_cast (hzero.le_iff hk).mp hnonneg
  obtain ⟨n, rfl⟩ := Int.eq_ofNat_of_zero_le hle
  exact ⟨n, by exact_mod_cast hk⟩

/-- A count becomes a word as it is, unless no word holds it. -/
theorem HasValue.toWord_natCast {x : Float} {n : ℕ} (h : HasValue x n) :
    toWord x = min n wordMax := by
  have hwhole : wholePart (n : ℚ) = n := by exact_mod_cast wholePart_intCast n
  rw [h.toWord_eq, hwhole, Int.toNat_natCast]

/-- Rounding moves no count to the other side of one of at most 53 bits. -/
theorem nearest_natCast_lt_iff {n m : ℕ} (hm : m ≤ 2 ^ 53) : nearest n < m ↔ n < m := by
  have hrep {k : ℕ} (hk : k ≤ 2 ^ 53) : nearest k = k := (representable_natCast hk).nearest_eq
  obtain hlt | hge := lt_or_ge n m
  · rw [hrep (hlt.le.trans hm)]
    exact Nat.cast_lt
  · refine iff_of_false (not_lt.mpr ?_) hge.not_gt
    calc (m : ℚ) = nearest m := (hrep hm).symm
      _ ≤ nearest n := nearest_mono (by exact_mod_cast hge)

/-! ## Products of counts -/

/-- A word is a finite double. -/
theorem hasValue_ofNat_word {n : ℕ} (h : n ≤ wordMax) : HasValue (Float.ofNat n) (nearest n) := by
  apply hasValue_ofNat
  apply abs_nearest_lt_of_le
  rw [Nat.abs_cast]
  exact_mod_cast h.trans (by norm_num [wordMax])

/-- A product of positive counts that is above a cap of at most 53 bits is not rounded to it. -/
theorem lt_nearest_mul_nearest {m n k : ℕ} (hm : m < 2 ^ 53) (h : m < n * k) :
    (m : ℚ) < nearest (nearest n * nearest k) := by
  have hpos : 0 < n * k := m.zero_le.trans_lt h
  have hn : 0 < n := Nat.pos_of_mul_pos_right hpos
  have hk : 0 < k := Nat.pos_of_mul_pos_left hpos
  have hnonneg (l : ℕ) : (0 : ℚ) ≤ nearest l := nearest_nonneg (Nat.cast_nonneg l)
  have hle (l : ℕ) {b : ℕ} (hb : b ≤ 2 ^ 53) (hbl : b ≤ l) : (b : ℚ) ≤ nearest l := by
    rw [← (representable_natCast hb).nearest_eq]
    exact nearest_mono (by exact_mod_cast hbl)
  -- The next number above the cap is a double, and rounding does not go below it.
  have hproduct : ((m + 1 : ℕ) : ℚ) ≤ nearest n * nearest k := by
    obtain hlarge | hsmall := lt_or_ge (2 ^ 53) n
    · calc ((m + 1 : ℕ) : ℚ) ≤ (2 ^ 53 : ℕ) := by exact_mod_cast hm
        _ = (2 ^ 53 : ℕ) * (1 : ℕ) := by norm_num
        _ ≤ nearest n * nearest k := mul_le_mul (hle n le_rfl hlarge.le) (hle k (by norm_num) hk)
          (by positivity) (hnonneg n)
    obtain hlarge | hsmall' := lt_or_ge (2 ^ 53) k
    · calc ((m + 1 : ℕ) : ℚ) ≤ (2 ^ 53 : ℕ) := by exact_mod_cast hm
        _ = (1 : ℕ) * (2 ^ 53 : ℕ) := by norm_num
        _ ≤ nearest n * nearest k := mul_le_mul (hle n (by norm_num) hn) (hle k le_rfl hlarge.le)
          (by positivity) (hnonneg n)
    · rw [(representable_natCast hsmall).nearest_eq, (representable_natCast hsmall').nearest_eq]
      exact_mod_cast h
  calc (m : ℚ) < (m + 1 : ℕ) := by exact_mod_cast m.lt_succ_self
    _ = nearest ((m + 1 : ℕ) : ℚ) := (representable_natCast hm).nearest_eq.symm
    _ ≤ nearest (nearest n * nearest k) := nearest_mono hproduct

/-- A product of words that a cap of at most 53 bits lets pass as a double is within the cap. -/
theorem mul_le_of_not_lt {m n k : ℕ} (hm : m < 2 ^ 53) (hn : n ≤ wordMax) (hk : k ≤ wordMax)
    (h : ¬ Float.ofNat m < Float.ofNat n * Float.ofNat k) : n * k ≤ m := by
  -- Rounded words are at most `2 ^ 64`, so their product is far from overflowing.
  have hle (l : ℕ) (hl : l ≤ wordMax) : |nearest (l : ℚ)| ≤ 2 ^ (64 : ℤ) := by
    refine abs_nearest_le ⟨1, 64, by norm_num, by norm_num, by norm_num⟩ ?_
    rw [Nat.abs_cast]
    exact_mod_cast hl.trans (by norm_num [wordMax])
  have hlarge : (2 : ℚ) ^ (128 : ℤ) ≤ maxFinite := by
    calc (2 : ℚ) ^ (128 : ℤ) ≤ 1 * 2 ^ (971 : ℤ) := by
          rw [one_mul]
          exact zpow_le_zpow_right₀ one_le_two (by norm_num)
      _ ≤ maxFinite := by
        unfold maxFinite
        gcongr
        norm_num
  have hfit : |nearest (n : ℚ) * nearest k| ≤ maxFinite + 2 ^ (65 : ℤ) := by
    calc |nearest (n : ℚ) * nearest k| ≤ 2 ^ (64 : ℤ) * 2 ^ (64 : ℤ) := by
          rw [abs_mul]
          exact mul_le_mul (hle n hn) (hle k hk) (abs_nonneg _) (by positivity)
      _ = 2 ^ (128 : ℤ) := by rw [← zpow_add₀ two_ne_zero]; norm_num
      _ ≤ maxFinite + 2 ^ (65 : ℤ) := hlarge.trans (le_add_of_nonneg_right (by positivity))
  have hvalue := (hasValue_ofNat_word hn).mul (hasValue_ofNat_word hk) (abs_nearest_lt hfit)
  by_contra hgt
  exact h (((hasValue_ofNat_of_le hm.le).lt_iff hvalue).mpr
    (lt_nearest_mul_nearest hm (not_le.mp hgt)))

end DiceOdds.Binary64
