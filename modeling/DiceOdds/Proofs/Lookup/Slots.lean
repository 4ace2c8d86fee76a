import DiceOdds.Distribution.Lookup
import DiceOdds.Proofs.Binary64.Whole
import DiceOdds.Proofs.Lookup.RoundTrip
import DiceOdds.Proofs.Rolling
import DiceOdds.Proofs.Sampling.Splits

/-!
# The slots that lookup finds

Lookup of a slot's outcome gives the share of that slot exactly if the distance of the outcome to
the constant is rounded to the number of the slot, and the outcome is not above the largest one
computed for the table. That this is needed is seen from the table in which only the slot itself
weighs anything.
-/

namespace DiceOdds.Distribution

open Arithmetic Binary64

/-! ## Lookup -/

/-- Lookup gives the share of the slot at the distance of a value, if that is a whole number of
the table, and 0 otherwise. -/
theorem probabilityOf_eq {α : Type} [Arithmetic α] {d : Distribution α} (hu : d.isUncertain)
    (ht : isPositiveFinite d.totalWeight) (v : α) :
    d.probabilityOf v =
      if ofNat 0 < v - d.constant ∧ v ≤ d.maxValue ∧ isWhole (v - d.constant) then
        (d.weightAt (toWord (v - d.constant) - 1)).map (· / d.totalWeight)
      else .ok (ofNat 0) := by
  have hcertain : d.isCertain = false := by simpa [isUncertain] using hu
  have hnormalizer : d.normalizer = .ok d.totalWeight := if_pos ht
  rw [probabilityOf_of_isUncertain hcertain, hnormalizer]
  rfl

/-! ## Tables -/

variable {d : Distribution Float}

/-- Whether `d` is a table of outcomes to draw from: the constant and the weights are finite, no
weight is negative, the total can be divided by, and no two slots have the same outcome. -/
structure IsTable (d : Distribution Float) : Prop where
  /-- There are slots. -/
  uncertain : d.isUncertain
  /-- The constant is a number. -/
  constant_finite : d.constant.isFinite
  /-- The weights are numbers that are not negative. -/
  weights_nonneg : ∀ w ∈ d.weights, w.isFinite ∧ ofNat 0 ≤ w
  /-- The weights can be divided by their total. -/
  total_pos : isPositiveFinite d.totalWeight
  /-- The outcomes are distinct numbers. -/
  distinct : ∀ i < d.size, ∀ j < d.size, d.outcome i == d.outcome j → i = j

/-- Whether the outcome of slot `i` is found to have the share of slot `i` in the total. -/
def FindsSlot (d : Distribution Float) (i : ℕ) : Prop :=
  ∃ w, d.weights[i]? = some w ∧ d.probabilityOf (d.outcome i) = .ok (w / d.totalWeight)

/-- A table has fewer slots than a word can number, as there are no more finite doubles. -/
theorem IsTable.size_lt (hd : d.IsTable) : d.size < wordMax := by
  have hword : wordMax < 2 ^ 64 := by decide
  have hc := hasValue_value hd.constant_finite
  by_contra hge
  have houtcome {i : ℕ} (hi : i < wordMax) :
      HasValue (d.outcome i) (slotValue (value d.constant) i) :=
    hasValue_outcome hc (by omega)
  -- With as many slots as there are words, distinct outcomes would be distinct finite doubles.
  have hcard : (Finset.range wordMax).card ≤ finiteWords.card := by
    apply Finset.card_le_card_of_injOn fun i => (d.outcome i).toBits.toNat
    · intro i hi
      rw [Finset.coe_range, Set.mem_Iio] at hi
      exact toNat_toBits_mem_finiteWords (houtcome hi).isFinite
    · intro i hi j hj heq
      rw [Finset.coe_range, Set.mem_Iio] at hi hj
      have hsame : d.outcome i = d.outcome j :=
        Float.toBits_inj.mp (UInt64.toNat_inj.mp heq)
      apply hd.distinct i (by omega) j (by omega)
      rw [hsame]
      exact ((houtcome hj).beq_iff (houtcome hj)).mpr rfl
  rw [Finset.card_range] at hcard
  exact absurd card_finiteWords (not_lt.mpr hcard)

/-- The tests of lookup pass and lead to slot `i` exactly if the way back over the rational numbers
ends there. -/
theorem IsTable.tests_iff (hd : d.IsTable) {i : ℕ} (hi : i < d.size) :
    (ofNat 0 < d.outcome i - d.constant ∧ d.outcome i ≤ d.maxValue ∧
      isWhole (d.outcome i - d.constant)) ∧ toWord (d.outcome i - d.constant) - 1 = i ↔
      RoundTrips (value d.constant) d.size i := by
  have hsize := hd.size_lt
  have hword : wordMax < 2 ^ 64 := by decide
  have hc := hasValue_value hd.constant_finite
  have hzero : HasValue (ofNat 0 : Float) (0 : ℕ) := hasValue_ofNat_of_le (by norm_num)
  have hdistance := hasValue_distance hc (i := i) (by omega)
  have houtcome := hasValue_outcome hc (i := i) (by omega)
  have hmax := hasValue_maxValue hc (by omega)
  rw [hzero.lt_iff hdistance, houtcome.le_iff hmax, hdistance.isWhole_iff, hdistance.toWord_eq,
    Nat.cast_zero]
  constructor
  · rintro ⟨⟨hpos, hle, hwhole⟩, hslot⟩
    refine ⟨?_, hle⟩
    rw [hwhole] at hpos ⊢
    have hpart : 0 < wholePart (nearest (slotValue (value d.constant) i - value d.constant)) := by
      exact_mod_cast hpos
    -- The distance is not cut at the largest word, as the slot would be past the table.
    have hnumber : wholePart (nearest (slotValue (value d.constant) i - value d.constant)) =
        i + 1 := by
      omega
    rw [hnumber]
    push_cast
    rfl
  · rintro ⟨hdist, hle⟩
    have hwhole : wholePart ((i : ℚ) + 1) = ((i + 1 : ℕ) : ℤ) := by
      rw [← wholePart_intCast (i + 1 : ℕ)]
      push_cast
      rfl
    rw [hdist, hwhole]
    refine ⟨⟨by positivity, hle, by push_cast; rfl⟩, ?_⟩
    rw [Int.toNat_natCast]
    omega

/-- A slot is found if the way to its value and back ends there. -/
theorem IsTable.findsSlot (hd : d.IsTable) {i : ℕ} (hi : i < d.size)
    (h : RoundTrips (value d.constant) d.size i) : d.FindsSlot i := by
  obtain ⟨htests, hslot⟩ := (hd.tests_iff hi).mpr h
  refine ⟨d.weights[i], Array.getElem?_eq_getElem hi, ?_⟩
  rw [probabilityOf_eq hd.uncertain hd.total_pos, if_pos htests, hslot, weightAt,
    Array.getElem?_eq_getElem hi]
  rfl

/-! ## Tables of one weight -/

/-- The table of which only slot `i` weighs anything. -/
def unitTable (c : Float) (size i : ℕ) : Distribution Float :=
  ⟨c, (List.replicate i (ofNat 0) ++ ofNat 1 :: List.replicate (size - 1 - i) (ofNat 0)).toArray⟩

/-- The table of one slot that weighs anything has the slots of the table it is made for. -/
theorem size_unitTable (c : Float) {size i : ℕ} (h : i < size) :
    (unitTable c size i).size = size := by
  simp [unitTable, Distribution.size]
  omega

/-- Its weights are 1 in that slot and 0 in the others. -/
theorem getElem?_unitTable (c : Float) {size i j : ℕ} (hj : j < size) :
    (unitTable c size i).weights[j]? = some (if j = i then ofNat 1 else ofNat 0) := by
  have hlist : (unitTable c size i).weights[j]? =
      (List.replicate i (ofNat 0) ++ ofNat 1 :: List.replicate (size - 1 - i) (ofNat 0))[j]? :=
    List.getElem?_toArray
  rw [hlist]
  obtain hlt | rfl | hgt := lt_trichotomy j i
  · rw [if_neg hlt.ne, List.getElem?_append_left (by simpa using hlt),
      List.getElem?_replicate_of_lt hlt]
  · rw [if_pos rfl, List.getElem?_append_right (by simp)]
    simp
  · obtain ⟨k, rfl⟩ := Nat.exists_eq_add_of_lt hgt
    rw [if_neg hgt.ne', List.getElem?_append_right (by simp; omega), List.length_replicate,
      show i + k + 1 - i = k + 1 by omega, List.getElem?_cons_succ,
      List.getElem?_replicate_of_lt (by omega)]

/-- Zeros add nothing to a sum that is not a negative zero. -/
theorem foldl_replicate_zero {x : Float} (h : x + ofNat 0 = x) (n : ℕ) :
    (List.replicate n (ofNat 0)).foldl (· + ·) x = x := by
  induction n with
  | zero => rfl
  | succ n ih => rw [List.replicate_succ, List.foldl_cons, h, ih]

/-- Its total is 1. -/
theorem totalWeight_unitTable (c : Float) (size i : ℕ) :
    (unitTable c size i).totalWeight = ofNat 1 := by
  -- The empty sum is a negative zero, which the first weight makes a positive one.
  have hfirst : (List.replicate i (ofNat 0)).foldl (· + ·) (emptySum : Float) + ofNat 1 =
      ofNat 1 := by
    cases i with
    | zero => decide +kernel
    | succ i =>
      have hzero : (emptySum : Float) + ofNat 0 = ofNat 0 := by decide +kernel
      rw [List.replicate_succ, List.foldl_cons, hzero, foldl_replicate_zero (by decide +kernel)]
      decide +kernel
  have hsum : (unitTable c size i).totalWeight =
      (List.replicate i (ofNat 0) ++ ofNat 1 :: List.replicate (size - 1 - i) (ofNat 0)).foldl
        (· + ·) emptySum := by
    rw [totalWeight, sum, ← Array.foldl_toList]
    rfl
  rw [hsum, List.foldl_append, List.foldl_cons, hfirst, foldl_replicate_zero (by decide +kernel)]

/-- It is a table if the outcomes are those of one. -/
theorem isTable_unitTable (hd : d.IsTable) {i : ℕ} (hi : i < d.size) :
    (unitTable d.constant d.size i).IsTable where
  uncertain := by simp [isUncertain, isCertain, unitTable]
  constant_finite := hd.constant_finite
  weights_nonneg := by
    have hzero : (ofNat 0 : Float).isFinite ∧ (ofNat 0 : Float) ≤ ofNat 0 := by decide +kernel
    have hone : (ofNat 1 : Float).isFinite ∧ (ofNat 0 : Float) ≤ ofNat 1 := by decide +kernel
    intro w hw
    obtain ⟨j, hj, rfl⟩ := Array.mem_iff_getElem.mp hw
    have hj' : j < d.size := by
      rw [← size_unitTable d.constant hi]
      exact hj
    have hweight := getElem?_unitTable d.constant (i := i) hj'
    rw [Array.getElem?_eq_getElem hj, Option.some_inj] at hweight
    rw [hweight]
    split_ifs
    · exact hone
    · exact hzero
  total_pos := by
    rw [totalWeight_unitTable]
    decide +kernel
  distinct := by
    rw [size_unitTable d.constant hi]
    exact hd.distinct

/-- The share 1 is read from that slot and from no other. -/
theorem eq_of_weightAt_unitTable (c : Float) {size i j : ℕ} (hi : i < size)
    (h : ((unitTable c size i).weightAt j).map (· / ofNat 1) = .ok (ofNat 1 / ofNat 1)) :
    j = i := by
  have hne : (ofNat 0 : Float) / ofNat 1 ≠ ofNat 1 / ofNat 1 := by decide +kernel
  by_contra hji
  rw [weightAt] at h
  by_cases hj : j < size
  · rw [getElem?_unitTable c hj, if_neg hji] at h
    exact hne (Except.ok.inj h)
  · have hnone : (unitTable c size i).weights[j]? = none := by
      rw [Array.getElem?_eq_none_iff]
      exact (size_unitTable c hi).trans_le (not_lt.mp hj)
    rw [hnone] at h
    cases h

/-- The way to the value of a slot and back ends there if the slot is found when it has all the
weight. -/
theorem IsTable.roundTrips (hd : d.IsTable) {i : ℕ} (hi : i < d.size)
    (h : (unitTable d.constant d.size i).FindsSlot i) :
    RoundTrips (value d.constant) d.size i := by
  have hunit := isTable_unitTable hd hi
  have hmaxValue : (unitTable d.constant d.size i).maxValue = d.maxValue := by
    rw [maxValue, size_unitTable d.constant hi]
    rfl
  obtain ⟨w, hw, hfound⟩ := h
  rw [getElem?_unitTable d.constant hi, if_pos rfl, Option.some_inj] at hw
  rw [← hw, probabilityOf_eq hunit.uncertain hunit.total_pos, totalWeight_unitTable,
    hmaxValue] at hfound
  split_ifs at hfound with htests
  · exact (hd.tests_iff hi).mp ⟨htests, eq_of_weightAt_unitTable d.constant hi hfound⟩
  · exact absurd (Except.ok.inj hfound) (by decide +kernel)

/-! ## Sampling -/

/-- A sample of a table is the outcome of the slot that is drawn. -/
theorem IsTable.sample_eq_ok (hd : d.IsTable) {r r' : Roller} {v : Float}
    (h : d.sample r = (.ok v, r')) :
    ∃ i < d.size, sampleIndex d.weights r = (.ok i, r') ∧ v = d.outcome i := by
  have hcertain : d.isCertain = false := by simpa [isUncertain] using hd.uncertain
  have hsize : 0 < d.weights.size := by
    simpa [isCertain, Array.size_pos_iff] using hcertain
  unfold sample at h
  rw [hcertain, if_neg Bool.false_ne_true] at h
  obtain ⟨i, s, hindex, hpure⟩ := Rolling.bind_eq_ok.mp h
  obtain ⟨rfl, rfl⟩ := Rolling.pure_eq_ok.mp hpure
  exact ⟨i, lt_of_sampleIndex_eq_ok hsize hindex, hindex, rfl⟩

/-- Lookup finds the slot of an outcome exactly if rounding leaves the way back to the slot as it
is: a slot is found in all tables with the same outcomes if and only if its distance to the
constant is rounded to its number and its value is not above the largest one. Whatever is sampled
has then the share of the slot that was drawn. With a constant of `k` bits of fraction every slot
is found, as long as the constant and the number of slots take at most 53 bits. -/
theorem IsTable.findsSlot_iff_roundTrips (hd : d.IsTable) :
    (∀ i < d.size, (∀ e : Distribution Float, e.IsTable → e.constant = d.constant →
      e.size = d.size → e.FindsSlot i) ↔ RoundTrips (value d.constant) d.size i) ∧
    (∀ r v r', d.sample r = (.ok v, r') → ∃ i < d.size, sampleIndex d.weights r = (.ok i, r') ∧
      (RoundTrips (value d.constant) d.size i → ∃ w, d.weights[i]? = some w ∧
        d.probabilityOf v = .ok (w / d.totalWeight))) ∧
    (∀ (k : ℕ) (m : ℤ), k ≤ 1074 → value d.constant = m / 2 ^ k →
      |m| + d.size * 2 ^ k ≤ 2 ^ 53 → ∀ i < d.size, d.FindsSlot i) := by
  refine ⟨fun i hi => ⟨fun h => ?_, fun h e he hconstant hsize => ?_⟩, ?_, ?_⟩
  · -- The table with all the weight in slot `i` tells its share from every other result of lookup.
    have hunit := isTable_unitTable hd hi
    exact hd.roundTrips hi (h _ hunit rfl (size_unitTable d.constant hi))
  · rw [← hconstant, ← hsize] at h
    exact he.findsSlot (hsize ▸ hi) h
  · intro r v r' hsample
    obtain ⟨i, hi, hindex, rfl⟩ := hd.sample_eq_ok hsample
    exact ⟨i, hi, hindex, hd.findsSlot hi⟩
  · intro k m hk hvalue hbits i hi
    apply hd.findsSlot hi
    rw [hvalue]
    exact roundTrips_of_bits hk hbits hi

/-- Two slots above 0.5 are both found. -/
theorem findsSlot_above_half :
    (⟨Float.ofBits 0x3fe0000000000000, #[ofNat 1, ofNat 3]⟩ : Distribution Float).IsTable ∧
    ∀ i < 2, FindsSlot ⟨Float.ofBits 0x3fe0000000000000, #[ofNat 1, ofNat 3]⟩ i := by
  have htable : (⟨Float.ofBits 0x3fe0000000000000, #[ofNat 1, ofNat 3]⟩ :
      Distribution Float).IsTable :=
    ⟨by decide, by decide +kernel, by decide +kernel, by decide +kernel, by decide +kernel⟩
  have hvalue : value (Float.ofBits 0x3fe0000000000000) = ((1 : ℤ) : ℚ) / 2 ^ 1 := by
    decide +kernel
  exact ⟨htable, htable.findsSlot_iff_roundTrips.2.2 1 1 (by norm_num) hvalue (by decide)⟩

/-- The only slot above 0.4 is missed: its value is rounded to 1.4, and the distance of that to
0.4 is rounded to a number below 1. -/
theorem not_forall_findsSlot :
    ¬ ∀ d : Distribution Float, d.IsTable → ∀ i < d.size, d.FindsSlot i := by
  intro h
  have htable : (⟨Float.ofBits 0x3fd999999999999a, #[ofNat 1]⟩ : Distribution Float).IsTable :=
    ⟨by decide, by decide +kernel, by decide +kernel, by decide +kernel, by decide +kernel⟩
  have hmissed : probabilityOf ⟨Float.ofBits 0x3fd999999999999a, #[ofNat 1]⟩
      (outcome ⟨Float.ofBits 0x3fd999999999999a, #[ofNat 1]⟩ 0) = .ok (ofNat 0) := by
    decide +kernel
  obtain ⟨w, hw, hfound⟩ := h _ htable 0 (by decide)
  have hone : w = ofNat 1 := (Option.some_inj.mp hw).symm
  rw [hmissed, hone] at hfound
  exact absurd (Except.ok.inj hfound) (by decide +kernel)

end DiceOdds.Distribution
