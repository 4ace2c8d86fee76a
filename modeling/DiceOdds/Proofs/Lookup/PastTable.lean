import DiceOdds.Proofs.Binary64.Overflow
import DiceOdds.Proofs.Lookup.Slots

/-!
# Lookups past the end of a table

Lookup compares the value with the largest one of the table, which is a rounded sum, and reads the
slot at the distance of the value to the constant, which is a rounded difference. With a constant
of large magnitude the largest value can be rounded up so far that its own distance is more than the
table has slots. That value alone is then looked up past the end (`pastTable_iff_overruns`). Below
`2 ^ 53` the sum is rounded by at most one half, and nothing is read past the end
(`not_overshoots`).
-/

namespace DiceOdds.Distribution

open Arithmetic Binary64

/-! ## The fault -/

section Fault

variable {α : Type} {d : Distribution α} {v : α}

/-- A slot from the size on is past the end. -/
theorem weightAt_of_size_le {i : ℕ} (hi : d.size ≤ i) :
    d.weightAt i = .error (.fault (.pastTable i d.size)) := by
  rw [weightAt, Array.getElem?_eq_none hi]

variable [Arithmetic α]

/-- Whether looking up `v` in `d` reads a slot past the end of the table. -/
def ReadsPast (d : Distribution α) (v : α) : Prop :=
  ∃ i n, d.probabilityOf v = .error (.fault (.pastTable i n))

/-- A lookup that reads past the end has passed the tests on its value. -/
theorem readsPast_iff : d.ReadsPast v ↔
    d.isUncertain ∧ isPositiveFinite d.totalWeight ∧
      (ofNat 0 < v - d.constant ∧ v ≤ d.maxValue ∧ isWhole (v - d.constant)) ∧
      d.size ≤ toWord (v - d.constant) - 1 := by
  have hok {p : α} : ¬ ∃ i n,
      (.ok p : Except (DistributionError α) α) = .error (.fault (.pastTable i n)) := by
    rintro ⟨i, n, h⟩
    cases h
  unfold ReadsPast
  cases hc : d.isCertain with
  | true =>
    rw [isUncertain, hc, probabilityOf, hc, if_pos rfl]
    exact iff_of_false hok fun h => by simp at h
  | false =>
    have hu : d.isUncertain = true := by rw [isUncertain, hc]; rfl
    rw [probabilityOf_of_isUncertain hc, and_iff_right hu]
    by_cases htests : ofNat 0 < v - d.constant ∧ v ≤ d.maxValue ∧ isWhole (v - d.constant)
    · rw [if_pos htests, and_iff_right htests, normalizer]
      by_cases ht : isPositiveFinite d.totalWeight = true
      · rw [if_pos ht, and_iff_right ht]
        obtain hi | hi := lt_or_ge (toWord (v - d.constant) - 1) d.size
        · rw [weightAt, Array.getElem?_eq_getElem hi]
          exact iff_of_false hok (not_le.mpr hi)
        · rw [weightAt_of_size_le hi]
          exact iff_of_true ⟨_, _, rfl⟩ hi
      · rw [if_neg ht]
        refine iff_of_false ?_ fun h => ht h.1
        rintro ⟨i, n, h⟩
        cases h
    · rw [if_neg htests]
      exact iff_of_false hok fun h => htests h.2.1

end Fault

/-! ## Values above the largest -/

/-- Whether the largest value of a table of `size` slots above `c` is so far from `c`, as rounded,
that no slot is at that distance. -/
def Overshoots (c : ℚ) (size : ℕ) : Prop :=
  ∃ k : ℕ, size < k ∧ nearest (topValue c size - c) = k

/-- Only the largest value can be further from the constant than the table has slots. -/
theorem eq_topValue {c q : ℚ} {size : ℕ} (hsize : size ≤ 2 ^ 53) (hq : nearest q = q)
    (hle : q ≤ topValue c size) (hpast : size < nearest (q - c)) : q = topValue c size := by
  have hnat : nearest size = size := (representable_natCast hsize).nearest_eq
  refine le_antisymm hle ?_
  by_contra hlt
  rw [not_le] at hlt
  -- A smaller value is below the exact sum, and its distance is rounded to the size at most.
  obtain hge | hbelow := le_or_gt (size + c) q
  · have : topValue c size ≤ q := by
      calc topValue c size = nearest (size + c) := by rw [topValue, hnat]
        _ ≤ nearest q := nearest_mono hge
        _ = q := hq
    exact absurd hlt this.not_gt
  · have : nearest (q - c) ≤ size := by
      calc nearest (q - c) ≤ nearest size := nearest_mono (by linarith)
        _ = size := hnat
    exact absurd hpast this.not_gt

/-- A constant below `2 ^ 53` less the size of the table leaves every slot within the table. -/
theorem not_overshoots {c : ℚ} {size : ℕ} (hc : |c| + size < 2 ^ 53) (hsize : size < 2 ^ 52) :
    ¬ Overshoots c size := by
  rintro ⟨k, hk, hdistance⟩
  have hnat : nearest size = size := (representable_natCast (by omega)).nearest_eq
  have hsum : |size + c| < 2 ^ 53 := by
    calc |size + c| ≤ |(size : ℚ)| + |c| := abs_add_le _ _
      _ < 2 ^ 53 := by rwa [Nat.abs_cast, add_comm]
  have htop := (abs_le.mp (abs_sub_nearest_le_half hsum)).1
  have hhalf : Representable (size + 1 / 2) := by
    refine ⟨2 * size + 1, -1, ?_, by norm_num, ?_⟩
    · rw [abs_of_nonneg (by positivity)]
      omega
    · push_cast
      rw [zpow_neg_one]
      ring
  have hle : (k : ℚ) ≤ size + 1 / 2 := by
    calc (k : ℚ) = nearest (topValue c size - c) := hdistance.symm
      _ ≤ nearest (size + 1 / 2) := nearest_mono (by rw [topValue, hnat]; linarith)
      _ = size + 1 / 2 := hhalf.nearest_eq
  have hnext : ((size + 1 : ℕ) : ℚ) ≤ k := by exact_mod_cast hk
  push_cast at hnext
  linarith

/-- The distance of the largest value to the constant does not overflow. -/
theorem abs_nearest_topValue_sub_lt {c : ℚ} {size : ℕ} (hsize : size ≤ 2 ^ 53)
    (hc : nearest c = c) (hmax : |c| ≤ maxFinite) (htop : |topValue c size| ≤ maxFinite) :
    |nearest (topValue c size - c)| < 2 ^ (1024 : ℤ) := by
  have hnat : nearest size = size := (representable_natCast hsize).nearest_eq
  have hge : c ≤ topValue c size := by
    calc c = nearest c := hc.symm
      _ ≤ topValue c size := nearest_mono (by rw [hnat]; linarith [size.cast_nonneg (α := ℚ)])
  have hsize' : (size : ℚ) ≤ 2 ^ (65 : ℤ) := by
    exact_mod_cast hsize.trans (by norm_num)
  apply abs_nearest_lt
  rw [abs_of_nonneg (sub_nonneg.mpr hge)]
  obtain hneg | hpos := le_total c 0
  · have : topValue c size ≤ size := by
      calc topValue c size ≤ nearest size := nearest_mono (by rw [hnat]; linarith)
        _ = size := hnat
    linarith [neg_le_abs c]
  · have : (0 : ℚ) < 2 ^ (65 : ℤ) := by positivity
    linarith [le_abs_self (topValue c size)]

/-! ## Doubles -/

variable {d : Distribution Float} {v : Float}

/-- Whether `v` is the largest value of a table and its slot is past the end. -/
structure Overruns (d : Distribution Float) (v : Float) : Prop where
  /-- There are slots. -/
  uncertain : d.isUncertain
  /-- The weights can be divided by their total. -/
  total_pos : isPositiveFinite d.totalWeight
  /-- The constant is a number. -/
  constant_finite : d.constant.isFinite
  /-- The value is a number. -/
  value_finite : v.isFinite
  /-- The value is the largest that is computed for the table. -/
  value_eq : value v = topValue (value d.constant) d.size
  /-- The largest value is too far from the constant. -/
  overshoots : Overshoots (value d.constant) d.size

/-- Lookup in a table of no more slots than 53 bits can number reads past its end for no value but
the largest, and for that if it is rounded too far from the constant. -/
theorem readsPast_iff_overruns (hsize : d.size ≤ 2 ^ 53) : d.ReadsPast v ↔ d.Overruns v := by
  have hword : 2 ^ 53 < wordMax := by decide
  have hzero : HasValue (ofNat 0 : Float) (0 : ℕ) := hasValue_ofNat_of_le (by norm_num)
  rw [readsPast_iff]
  constructor
  · rintro ⟨hu, ht, ⟨hpos, hle, hwhole⟩, hpast⟩
    have hfinite := isFinite_of_isWhole hwhole
    obtain ⟨hvfinite, hcfinite⟩ := isFinite_of_isFinite_sub hfinite
    have hv := hasValue_value hvfinite
    have hc := hasValue_value hcfinite
    have hdistance := hv.sub_of_isFinite hc hfinite
    rw [hzero.lt_iff hdistance, Nat.cast_zero] at hpos
    rw [hv.le_iff (hasValue_maxValue hc (by omega))] at hle
    rw [hdistance.isWhole_iff] at hwhole
    rw [hdistance.toWord_eq] at hpast
    generalize wholePart (nearest (value v - value d.constant)) = k at *
    rw [hwhole] at hpos
    have hk : 0 < k := by exact_mod_cast hpos
    obtain ⟨k, rfl⟩ := Int.eq_ofNat_of_zero_le hk.le
    rw [Int.toNat_natCast] at hpast
    have hlt : d.size < k := by omega
    have hvalue : value v = topValue (value d.constant) d.size := by
      refine eq_topValue hsize hv.nearest_eq hle ?_
      rw [hwhole]
      exact_mod_cast hlt
    refine ⟨hu, ht, hcfinite, hvfinite, hvalue, k, hlt, ?_⟩
    rw [← hvalue, hwhole, Int.cast_natCast]
  · rintro ⟨hu, ht, hcfinite, hvfinite, hvalue, k, hlt, hdistance⟩
    have hv := hasValue_value hvfinite
    have hc := hasValue_value hcfinite
    have hsub := hv.sub hc (by
      rw [hvalue]
      exact abs_nearest_topValue_sub_lt hsize hc.nearest_eq hc.abs_le (hvalue ▸ hv.abs_le))
    rw [hvalue, hdistance] at hsub
    have hwhole : wholePart (k : ℚ) = k := by exact_mod_cast wholePart_intCast k
    rw [hzero.lt_iff hsub, hv.le_iff (hasValue_maxValue hc (by omega)), hsub.isWhole_iff,
      hsub.toWord_eq, hwhole, Int.toNat_natCast, Int.cast_natCast, Nat.cast_zero]
    refine ⟨hu, ht, ⟨?_, hvalue.le, rfl⟩, by omega⟩
    exact_mod_cast (Nat.zero_le _).trans_lt hlt

end DiceOdds.Distribution
