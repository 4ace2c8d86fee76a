import DiceOdds.Proofs.Binary64.Infinity
import DiceOdds.Proofs.Binary64.Sums
import DiceOdds.Proofs.Combination
import DiceOdds.Proofs.Lookup.RoundTrip

/-!
# Products past the end of their table

The table of a product has room for the product of the largest outcomes, where the largest outcome
of a table is computed in one sum, from the number of slots and the constant. The outcomes that are
multiplied are computed in two, from the constant up, and rounding twice may carry the last of them
above the largest. Then the last product of two tables can have a whole part for which the table of
the product has no slot, and only then does a product of outcomes from 1 up fail for that reason
(`times_out_of_range_iff`). With constants of few enough bits nothing is rounded and every product
has a slot.
-/

namespace DiceOdds.Distribution

open Arithmetic Binary64

/-- The outcome of the last slot, or the constant where there are no slots. -/
def lastOutcome {α : Type} [Arithmetic α] (d : Distribution α) : α :=
  if d.isCertain then d.constant else d.outcome (d.size - 1)

/-! ## Values over the rational numbers -/

variable {c : ℚ} {i size : ℕ}

/-- Later slots have no smaller values. -/
theorem slotValue_mono (c : ℚ) : Monotone (slotValue c) := by
  intro i j hij
  have hnat : nearest i ≤ nearest j := nearest_mono (by exact_mod_cast hij)
  have hfirst : nearest (c + nearest i) ≤ nearest (c + nearest j) := nearest_mono (by linarith)
  exact nearest_mono (by linarith)

/-- Above a constant that is not negative all slots have values from 1 up. -/
theorem one_le_slotValue (hc : 0 ≤ c) (i : ℕ) : 1 ≤ slotValue c i := by
  have hnat : 0 ≤ nearest (i : ℚ) := nearest_nonneg (Nat.cast_nonneg i)
  have hfirst : 0 ≤ nearest (c + nearest i) := nearest_nonneg (add_nonneg hc hnat)
  exact one_le_nearest (by linarith)

/-- The value of the last of `size` slots above the constant `c`, or the constant if there are
none. -/
def lastValue (c : ℚ) (size : ℕ) : ℚ := if size = 0 then c else slotValue c (size - 1)

/-- What the numbers that a table is made of must be for all outcomes to be at least 1. -/
def FromOne (c : ℚ) (size : ℕ) : Prop := if size = 0 then 1 ≤ c else 0 ≤ c

/-- The largest value is from 1 up. -/
theorem FromOne.one_le_topValue (h : FromOne c size) : 1 ≤ topValue c size := by
  have hsum : 1 ≤ nearest size + c := by
    unfold FromOne at h
    split at h
    next hzero =>
      rw [hzero, Nat.cast_zero, nearest_zero, zero_add]
      exact h
    next hpos =>
      have hone : 1 ≤ nearest (size : ℚ) :=
        one_le_nearest (by exact_mod_cast Nat.one_le_iff_ne_zero.mpr hpos)
      linarith
  exact one_le_nearest hsum

/-- If the largest value is not large, neither is the constant. -/
theorem le_of_topValue_le (hrep : nearest c = c) (h : topValue c size ≤ 2 ^ 60) : c ≤ 2 ^ 60 := by
  have hnat : 0 ≤ nearest (size : ℚ) := nearest_nonneg (Nat.cast_nonneg size)
  calc c = nearest c := hrep.symm
    _ ≤ topValue c size := nearest_mono (by linarith)
    _ ≤ 2 ^ 60 := h

/-- If the constant is not large, neither is the value of a slot that a word can number. -/
theorem slotValue_le_of_le (hc : c ≤ 2 ^ 60) (hi : i ≤ 2 ^ 64) : slotValue c i ≤ 2 ^ 66 := by
  have hnat : nearest (i : ℚ) ≤ 2 ^ 64 := by
    rw [← nearest_two_pow 64]
    exact nearest_mono (by exact_mod_cast hi)
  have hfirst : nearest (c + nearest i) ≤ 2 ^ 65 := by
    rw [← nearest_two_pow 65]
    exact nearest_mono (by linarith)
  rw [slotValue, ← nearest_two_pow 66]
  exact nearest_mono (by linarith)

/-- A number whose rounded whole part is below `2 ^ 60` is not above that. -/
theorem le_of_wholePart_lt {p : ℚ} (h : wholePart (nearest p) < 2 ^ 60) : p ≤ 2 ^ 60 := by
  by_contra hgt
  have hge : ((2 ^ 60 : ℤ) : ℚ) ≤ nearest p := by
    calc ((2 ^ 60 : ℤ) : ℚ) = nearest (2 ^ 60) := by
          rw [nearest_two_pow]
          norm_num
      _ ≤ nearest p := nearest_mono (not_le.mp hgt).le
  have hpart := wholePart_mono (by norm_num) hge
  rw [wholePart_intCast] at hpart
  omega

/-! ## Slots of products -/

/-- A product of doubles from 1 up has a slot exactly if its whole part is a number of the table. -/
theorem productSlot?_ne_none_iff_wholePart {x : Float} {q : ℚ} (hx : HasValue x q) (hone : 1 ≤ q)
    (hsize : size ≤ 2 ^ 53) : productSlot? size x ≠ none ↔ wholePart q ≤ size := by
  have hnum {n : ℕ} (hn : n ≤ 2 ^ 53) : HasValue (ofNat n : Float) n := hasValue_ofNat_of_le hn
  -- The whole part is one more than the number of its slot.
  obtain ⟨n, hn⟩ : ∃ n : ℕ, wholePart q = n + 1 := by
    have hpart := one_le_wholePart hone
    exact ⟨(wholePart q - 1).toNat, by omega⟩
  have hsub : (wholePart q : ℚ) - (1 : ℕ) = n := by
    rw [hn]
    push_cast
    ring
  have hindex : HasValue (Arithmetic.trunc x - ofNat 1) (nearest n) := by
    have hmax := (le_abs_self _).trans hx.trunc.abs_le
    rw [← hsub]
    refine hx.trunc.sub (hnum (by norm_num)) (abs_nearest_lt ?_)
    rw [hsub, Nat.abs_cast, ← hsub, Nat.cast_one]
    linarith [show (0 : ℚ) ≤ 2 ^ (65 : ℤ) by positivity]
  have hnonneg : (ofNat 0 : Float) ≤ Arithmetic.trunc x - ofNat 1 := by
    refine ((hnum (by norm_num)).le_iff hindex).mpr ?_
    rw [Nat.cast_zero]
    exact nearest_nonneg (Nat.cast_nonneg n)
  have hlt : Arithmetic.trunc x - ofNat 1 < ofNat size ↔ wholePart q ≤ size := by
    rw [hindex.lt_iff (hnum hsize), nearest_natCast_lt_iff hsize]
    omega
  unfold productSlot?
  simp only [hnonneg, hlt, decide_true, Bool.true_and, decide_eq_true_eq]
  split
  next h => exact iff_of_true (Option.some_ne_none _) h
  next h => exact iff_of_false (not_not_intro rfl) h

/-! ## Factors -/

/-- Whether all outcomes of `d` are at least 1 and have probabilities: the weights are numbers that
are not negative and have a total to divide by, and the constant is not negative if it is one below
the first outcome, and from 1 up if it is the only outcome. -/
structure IsFactor (d : Distribution Float) : Prop where
  /-- There are no more slots than a word can number. -/
  size_le : d.size ≤ wordMax
  /-- The weights are numbers that are not negative. -/
  weights_nonneg : ∀ w ∈ d.weights, w.isFinite ∧ ofNat 0 ≤ w
  /-- The weights of a table can be divided by their total. -/
  total_pos : d.isUncertain = true → isPositiveFinite d.totalWeight = true
  /-- The outcomes of a table are more than 0. -/
  constant_nonneg : d.isUncertain = true → ofNat 0 ≤ d.constant
  /-- A certain outcome is at least 1. -/
  one_le_constant : d.isCertain = true → ofNat 1 ≤ d.constant

variable {d e : Distribution Float} {c c' : ℚ}

/-- Whether `d` has a table of outcomes from 1 up above the number `c`, or is certainly that
number. -/
structure StartsAt (d : Distribution Float) (c : ℚ) : Prop where
  /-- The constant stands for the number. -/
  constant : HasValue d.constant c
  /-- The number is not negative. -/
  nonneg : 0 ≤ c
  /-- All outcomes are from 1 up. -/
  fromOne : FromOne c d.size
  /-- A word can number the slots. -/
  size_le : d.size ≤ 2 ^ 64

/-- The constant of a factor is infinite or a number. -/
theorem IsFactor.constant_cases (hd : d.IsFactor) :
    IsInfinity d.constant ∨ ∃ c, d.StartsAt c := by
  have hsize : d.size ≤ 2 ^ 64 := hd.size_le.trans (by decide)
  cases hc : d.isCertain with
  | true =>
    have hone := (ofNat_le_iff (by norm_num)).mp (hd.one_le_constant hc)
    refine hone.imp_right fun ⟨c, hvalue, hle⟩ => ⟨c, ?_⟩
    rw [Nat.cast_one] at hle
    refine ⟨hvalue, zero_le_one.trans hle, ?_, hsize⟩
    rwa [FromOne, if_pos (isCertain_iff.mp hc)]
  | false =>
    have hnonneg := (ofNat_le_iff (by norm_num)).mp
      (hd.constant_nonneg (by rw [isUncertain, hc, Bool.not_false]))
    refine hnonneg.imp_right fun ⟨c, hvalue, hle⟩ => ⟨c, ?_⟩
    rw [Nat.cast_zero] at hle
    refine ⟨hvalue, hle, ?_, hsize⟩
    rwa [FromOne, if_neg (size_pos_of_isUncertain hc).ne']

/-- The largest outcome of a factor is from 1 up. -/
theorem IsFactor.one_le_maxValue (hd : d.IsFactor) : (ofNat 1 : Float) ≤ d.maxValue := by
  refine (ofNat_le_iff (n := 1) (by norm_num)).mpr ?_
  rw [Nat.cast_one]
  refine hd.constant_cases.imp (fun hinf => ?_) fun ⟨c, hc⟩ => ?_
  · exact hinf.add_of_hasValue (hasValue_slot (hd.size_le.trans (by decide)))
  · exact ⟨_, hasValue_maxValue hc.constant hc.size_le, hc.fromOne.one_le_topValue⟩

/-- The normalized outcomes of a factor exist. -/
theorem IsFactor.exists_normalizedOutcomes (hd : d.IsFactor) :
    ∃ entries, d.normalizedOutcomes = .ok entries := by
  cases hc : d.isCertain with
  | true => exact ⟨_, normalizedOutcomes_of_isCertain hc⟩
  | false =>
    have htotal := hd.total_pos (by rw [isUncertain, hc, Bool.not_false])
    rw [normalizedOutcomes_of_isUncertain hc, normalizer, if_pos htotal]
    exact ⟨_, rfl⟩

/-- The last outcome stands for the last value. -/
theorem StartsAt.hasValue_lastOutcome (hd : d.StartsAt c) :
    HasValue d.lastOutcome (lastValue c d.size) := by
  have hsize := hd.size_le
  unfold lastOutcome lastValue
  cases hcertain : d.isCertain with
  | true =>
    rw [if_pos rfl, if_pos (isCertain_iff.mp hcertain)]
    exact hd.constant
  | false =>
    rw [if_neg Bool.false_ne_true, if_neg (size_pos_of_isUncertain hcertain).ne']
    exact hasValue_outcome hd.constant (by omega)

/-- The normalized outcomes lie between 1 and the last one, which is one of them. -/
theorem StartsAt.between_normalizedOutcomes (hd : d.StartsAt c) {entries : Array (Float × Float)}
    (h : d.normalizedOutcomes = .ok entries) :
    (∀ a ∈ entries, Between 1 (lastValue c d.size) a.1) ∧ ∃ a ∈ entries, a.1 = d.lastOutcome := by
  have hmem := exists_mem_normalizedOutcomes_iff h
  have hfrom := hd.fromOne
  have hsize := hd.size_le
  unfold FromOne at hfrom
  unfold lastOutcome lastValue
  cases hcertain : d.isCertain with
  | true =>
    rw [if_pos (isCertain_iff.mp hcertain)] at hfrom ⊢
    simp only [hcertain, if_true] at hmem ⊢
    refine ⟨fun a ha => ?_, (hmem d.constant).mpr rfl⟩
    rw [(hmem a.1).mp ⟨a, ha, rfl⟩]
    exact ⟨c, hd.constant, hfrom, le_rfl⟩
  | false =>
    have hpos := size_pos_of_isUncertain hcertain
    rw [if_neg hpos.ne']
    simp only [hcertain, Bool.false_eq_true, if_false] at hmem ⊢
    refine ⟨fun a ha => ?_, (hmem _).mpr ⟨d.size - 1, by omega, rfl⟩⟩
    obtain ⟨i, hi, hout⟩ := (hmem a.1).mp ⟨a, ha, rfl⟩
    rw [hout]
    exact ⟨_, hasValue_outcome hd.constant (by omega), one_le_slotValue hd.nonneg i,
      slotValue_mono c (by omega)⟩

/-- If the largest value is not large, neither is the last one. -/
theorem StartsAt.lastValue_mem (hd : d.StartsAt c) (h : topValue c d.size ≤ 2 ^ 60) :
    1 ≤ lastValue c d.size ∧ lastValue c d.size ≤ 2 ^ 66 := by
  have hc := le_of_topValue_le hd.constant.nearest_eq h
  have hsize := hd.size_le
  have hfrom := hd.fromOne
  unfold FromOne at hfrom
  unfold lastValue
  split
  next hzero =>
    rw [if_pos hzero] at hfrom
    exact ⟨hfrom, hc.trans (by norm_num)⟩
  next hpos => exact ⟨one_le_slotValue hd.nonneg _, slotValue_le_of_le hc (by omega)⟩

/-! ## Products -/

/-- The table of a product is filled to the end exactly if it has a slot for the last product. -/
theorem exists_productTable_eq_ok_iff_last (hd : d.StartsAt c) (he : e.StartsAt c')
    (hlast : lastValue c d.size ≤ 2 ^ 66) (hlast' : lastValue c' e.size ≤ 2 ^ 66)
    {left right : Array (Float × Float)} (hleft : d.normalizedOutcomes = .ok left)
    (hright : e.normalizedOutcomes = .ok right) (hsize : size ≤ 2 ^ 53) :
    (∃ table, productTable size left right = .ok table) ↔
      wholePart (nearest (lastValue c d.size * lastValue c' e.size)) ≤ size := by
  obtain ⟨hbetween, a, ha, halast⟩ := hd.between_normalizedOutcomes hleft
  obtain ⟨hbetween', b, hb, hblast⟩ := he.between_normalizedOutcomes hright
  rw [exists_productTable_eq_ok_iff]
  constructor
  · intro h
    have hslot := h a ha b hb
    obtain ⟨r, hr, hr1, -⟩ :=
      Between.mul_of_one_le hlast hlast' (hbetween a ha) (hbetween' b hb)
    rw [productSlot?_ne_none_iff_wholePart hr hr1 hsize] at hslot
    have hproduct : HasValue (a.1 * b.1) (nearest (lastValue c d.size * lastValue c' e.size)) := by
      rw [halast, hblast] at hr ⊢
      exact hd.hasValue_lastOutcome.mul_of_isFinite he.hasValue_lastOutcome hr.isFinite
    rwa [← hproduct.value_eq, hr.value_eq]
  · intro h a ha b hb
    obtain ⟨r, hr, hr1, hrlast⟩ :=
      Between.mul_of_one_le hlast hlast' (hbetween a ha) (hbetween' b hb)
    rw [productSlot?_ne_none_iff_wholePart hr hr1 hsize]
    exact (wholePart_mono (zero_le_one.trans hr1) hrlast).trans h

/-- A bound below the largest word is the whole part of the product of the largest values. -/
theorem exists_hasValue_productBound (hd : d.IsFactor) (he : e.IsFactor)
    (h : productBound d e < ofNat wordMax) :
    ∃ c c', d.StartsAt c ∧ e.StartsAt c' ∧ HasValue (productBound d e)
      (wholePart (nearest (topValue c d.size * topValue c' e.size))) := by
  have hone : (ofNat 1 : Float) ≤ productBound d e :=
    one_le_trunc (one_le_mul hd.one_le_maxValue he.one_le_maxValue)
  have hfinite : (d.maxValue * e.maxValue).isFinite :=
    isFinite_of_isFinite_trunc (isFinite_of_le_of_lt (n := 1) (by norm_num) hone h)
  obtain ⟨hdmax, hemax⟩ := isFinite_of_isFinite_mul hfinite
  obtain ⟨c, hc⟩ := hd.constant_cases.resolve_left fun hinf =>
    hinf.not_isFinite (isFinite_of_isFinite_add hdmax).2
  obtain ⟨c', hc'⟩ := he.constant_cases.resolve_left fun hinf =>
    hinf.not_isFinite (isFinite_of_isFinite_add hemax).2
  have hproduct := (hasValue_maxValue hc.constant hc.size_le).mul_of_isFinite
    (hasValue_maxValue hc'.constant hc'.size_le) hfinite
  exact ⟨c, c', hc, hc', hproduct.trunc⟩

/-- Whether the table of a product has as many slots as memory holds. -/
def HasRoom [Memory] (d e : Distribution Float) : Prop :=
  productBound d e < ofNat wordMax ∧ productSize d e ≤ tableCapacity

/-- Whether the last product of two tables has a whole part above the bound. -/
def ProductOverruns (d e : Distribution Float) : Prop :=
  productBound d e < Arithmetic.trunc (d.lastOutcome * e.lastOutcome)

/-- A table within memory has the bound for its size, and the largest values are not large. -/
theorem productSize_eq [Memory] (hd : d.StartsAt c) (he : e.StartsAt c')
    (hsize : productSize d e ≤ tableCapacity) (hbound : HasValue (productBound d e)
      (wholePart (nearest (topValue c d.size * topValue c' e.size)))) :
    (productSize d e : ℤ) = wholePart (nearest (topValue c d.size * topValue c' e.size)) ∧
      topValue c d.size ≤ 2 ^ 60 ∧ topValue c' e.size ≤ 2 ^ 60 := by
  have htop := hd.fromOne.one_le_topValue
  have htop' := he.fromOne.one_le_topValue
  have hpart : 1 ≤ wholePart (nearest (topValue c d.size * topValue c' e.size)) :=
    one_le_wholePart (one_le_nearest (one_le_mul_of_one_le_of_one_le htop htop'))
  have hzero : HasValue (ofNat 0 : Float) (0 : ℕ) := hasValue_ofNat_of_le (by norm_num)
  have hpos : (ofNat 0 : Float) < productBound d e := by
    refine (hzero.lt_iff hbound).mpr ?_
    rw [Nat.cast_zero]
    exact_mod_cast hpart
  have hword := tableCapacity_lt_wordMax
  have hcapacity := tableCapacity_lt
  have hcast : (productSize d e : ℤ) =
      wholePart (nearest (topValue c d.size * topValue c' e.size)) := by
    rw [productSize, if_pos hpos, hbound.toWord_eq, wholePart_intCast] at hsize ⊢
    omega
  have hlarge := le_of_wholePart_lt (p := topValue c d.size * topValue c' e.size) (by omega)
  exact ⟨hcast, (le_mul_of_one_le_right (zero_le_one.trans htop) htop').trans hlarge,
    (le_mul_of_one_le_left (zero_le_one.trans htop') htop).trans hlarge⟩

/-- The last product overruns the table according to the values, unless these are large. -/
theorem productOverruns_iff (hd : d.StartsAt c) (he : e.StartsAt c')
    (htop : topValue c d.size ≤ 2 ^ 60) (htop' : topValue c' e.size ≤ 2 ^ 60)
    (hbound : HasValue (productBound d e)
      (wholePart (nearest (topValue c d.size * topValue c' e.size)))) :
    ProductOverruns d e ↔ wholePart (nearest (topValue c d.size * topValue c' e.size)) <
      wholePart (nearest (lastValue c d.size * lastValue c' e.size)) := by
  obtain ⟨hlast1, hlast⟩ := hd.lastValue_mem htop
  obtain ⟨hlast1', hlast'⟩ := he.lastValue_mem htop'
  obtain ⟨r, hr, -⟩ := Between.mul_of_one_le hlast hlast'
    ⟨_, hd.hasValue_lastOutcome, hlast1, le_rfl⟩ ⟨_, he.hasValue_lastOutcome, hlast1', le_rfl⟩
  have hproduct := hd.hasValue_lastOutcome.mul_of_isFinite he.hasValue_lastOutcome hr.isFinite
  rw [ProductOverruns]
  exact (hbound.lt_iff hproduct.trunc).trans Int.cast_lt

/-- What the product of two factors is, if one of them has a table: too large for memory, or out of
range if the last product overruns the table, or there. -/
theorem times_cases_of_isFactor [Memory] (hmemory : tableCapacity ≤ 2 ^ 53) (hd : d.IsFactor)
    (he : e.IsFactor) (huncertain : d.isUncertain = true ∨ e.isUncertain = true) :
    (¬ HasRoom d e ∧ ∃ n, d.times e = .error (.tableTooLarge n)) ∨
      (HasRoom d e ∧ ProductOverruns d e ∧
        ∃ value, d.times e = .error (.productOutOfRange value (productSize d e))) ∨
      (HasRoom d e ∧ ¬ ProductOverruns d e ∧ ∃ x, d.times e = .ok x) := by
  have hzero {f : Distribution Float} (hf : f.IsFactor) :
      (f.isCertain && f.constant == ofNat 0) = false := by
    by_contra h
    rw [Bool.not_eq_false, Bool.and_eq_true] at h
    exact Bool.false_ne_true ((beq_zero_of_one_le (hf.one_le_constant h.1)).symm.trans h.2)
  obtain ⟨hdc, hec, -⟩ | ⟨-, hzero', -⟩ | ⟨-, -, ⟨hroom, hlarge⟩ | ⟨hword, hsize, htimes⟩⟩ :=
    times_cases d e
  · simp [isUncertain, hdc, hec] at huncertain
  · rw [hzero hd, hzero he] at hzero'
    cases hzero'
  · exact .inl ⟨hroom, hlarge⟩
  · refine .inr ?_
    obtain ⟨c, c', hc, hc', hbound⟩ := exists_hasValue_productBound hd he hword
    obtain ⟨hcast, htop, htop'⟩ := productSize_eq hc hc' hsize hbound
    obtain ⟨left, hleft⟩ := hd.exists_normalizedOutcomes
    obtain ⟨right, hright⟩ := he.exists_normalizedOutcomes
    have hfilled := exists_productTable_eq_ok_iff_last hc hc' (hc.lastValue_mem htop).2
      (hc'.lastValue_mem htop').2 hleft hright (hsize.trans hmemory)
    have hoverruns := productOverruns_iff hc hc' htop htop' hbound
    rw [← hcast] at hoverruns
    rw [← not_lt, ← hoverruns] at hfilled
    rw [hright, hleft] at htimes
    change d.times e = (do return ⟨ofNat 0, ← productTable (productSize d e) left right⟩) at htimes
    rcases htable : productTable (productSize d e) left right with err | table
    · rw [htable] at hfilled htimes
      obtain ⟨value, rfl⟩ := exists_of_productTable_eq_error htable
      exact .inl ⟨⟨hword, hsize⟩, not_not.mp (mt hfilled.mpr nofun), value, htimes⟩
    · rw [htable] at hfilled htimes
      exact .inr ⟨⟨hword, hsize⟩, hfilled.mp ⟨_, rfl⟩, _, htimes⟩

/-- Whether 53 bits have room for the constant, with `k` bits of fraction, and the number of
slots. -/
def FewBits (d : Distribution Float) : Prop :=
  ∃ (k : ℕ) (m : ℤ), k ≤ 1074 ∧ value d.constant = m / 2 ^ k ∧ |m| + d.size * 2 ^ k ≤ 2 ^ 53

/-- The last value is not above the largest if there are no slots, or if no bits are lost. -/
theorem StartsAt.lastValue_le_topValue (hd : d.StartsAt c)
    (hbits : d.isUncertain = true → d.FewBits) : lastValue c d.size ≤ topValue c d.size := by
  cases hcertain : d.isCertain with
  | true =>
    rw [isCertain_iff.mp hcertain, lastValue, if_pos rfl, topValue, Nat.cast_zero, nearest_zero,
      zero_add, hd.constant.nearest_eq]
  | false =>
    have hpos := size_pos_of_isUncertain hcertain
    obtain ⟨k, m, hk, hvalue, hm⟩ := hbits (by rw [isUncertain, hcertain, Bool.not_false])
    rw [← hd.constant.value_eq, hvalue, lastValue, if_neg hpos.ne']
    exact (roundTrips_of_bits hk hm (by omega)).le_top

/-- With constants of few bits no product overruns its table. -/
theorem not_productOverruns_of_fewBits [Memory] (hd : d.IsFactor) (he : e.IsFactor)
    (hbits : d.isUncertain = true → d.FewBits) (hbits' : e.isUncertain = true → e.FewBits)
    (hroom : HasRoom d e) : ¬ ProductOverruns d e := by
  obtain ⟨c, c', hc, hc', hbound⟩ := exists_hasValue_productBound hd he hroom.1
  obtain ⟨-, htop, htop'⟩ := productSize_eq hc hc' hroom.2 hbound
  have hlast := (hc.lastValue_mem htop).1
  have hlast' := (hc'.lastValue_mem htop').1
  have hle := hc.lastValue_le_topValue hbits
  have hle' := hc'.lastValue_le_topValue hbits'
  rw [productOverruns_iff hc hc' htop htop' hbound, not_lt]
  refine wholePart_mono (nearest_nonneg (by positivity)) (nearest_mono ?_)
  exact mul_le_mul hle hle' (by linarith) (by linarith)

/-- Where memory holds no table of more slots than 53 bits can number, a product of two factors is
out of range exactly if memory has room for its table and the last product has a whole part above
the bound. Its table is too large exactly if memory has no room for it, and in all other cases the
product exists. If the constants of the tables have few bits, it is never out of range. -/
theorem times_out_of_range_iff [Memory] (hmemory : tableCapacity ≤ 2 ^ 53) (hd : d.IsFactor)
    (he : e.IsFactor) (huncertain : d.isUncertain = true ∨ e.isUncertain = true) :
    ((∃ value size, d.times e = .error (.productOutOfRange value size)) ↔
      HasRoom d e ∧ ProductOverruns d e) ∧
    ((∃ n, d.times e = .error (.tableTooLarge n)) ↔ ¬ HasRoom d e) ∧
    ((∃ x, d.times e = .ok x) ↔ HasRoom d e ∧ ¬ ProductOverruns d e) ∧
    ((d.isUncertain = true → d.FewBits) → (e.isUncertain = true → e.FewBits) →
      ∀ value size, d.times e ≠ .error (.productOutOfRange value size)) := by
  have hfew := not_productOverruns_of_fewBits hd he
  obtain ⟨hroom, n, htimes⟩ | ⟨hroom, hover, value, htimes⟩ | ⟨hroom, hover, x, htimes⟩ :=
    times_cases_of_isFactor hmemory hd he huncertain
  · simp [htimes, hroom]
  · simp only [htimes, hroom, hover]
    refine ⟨by simp, by simp, by simp, fun hbits hbits' => ?_⟩
    exact absurd hover (hfew hbits hbits' hroom)
  · simp [htimes, hroom, hover]

/-- A coin above 0.5 has only products with 2 that the table has slots for. -/
theorem times_out_of_range_iff_half :
    IsFactor ⟨Float.ofBits 0x3fe0000000000000, #[ofNat 1, ofNat 1]⟩ ∧ IsFactor (certain (ofNat 2)) ∧
      ∀ value size, times ⟨Float.ofBits 0x3fe0000000000000, #[ofNat 1, ofNat 1]⟩
        (certain (ofNat 2)) ≠ .error (.productOutOfRange value size) := by
  have hcoin : IsFactor ⟨Float.ofBits 0x3fe0000000000000, #[ofNat 1, ofNat 1]⟩ :=
    ⟨by decide, by decide +kernel, by decide +kernel, by decide +kernel, by decide⟩
  have htwo : IsFactor (certain (ofNat 2)) :=
    ⟨by decide, by decide, by decide, by decide, by decide +kernel⟩
  have hvalue : value (Float.ofBits 0x3fe0000000000000) = ((1 : ℤ) : ℚ) / 2 ^ 1 := by
    decide +kernel
  have hbits : FewBits ⟨Float.ofBits 0x3fe0000000000000, #[ofNat 1, ofNat 1]⟩ :=
    ⟨1, 1, by norm_num, hvalue, by decide⟩
  exact ⟨hcoin, htwo,
    (times_out_of_range_iff (by decide) hcoin htwo (.inl rfl)).2.2.2 (fun _ => hbits) nofun⟩

/-- The last outcome of a coin above a constant just below 0.5 is rounded up to 2.5, and the largest
outcome is not. So 5, which is twice the last outcome, has no slot. -/
theorem not_forall_times_in_range :
    ¬ ∀ d e : Distribution Float, d.IsFactor → e.IsFactor →
      d.isUncertain = true ∨ e.isUncertain = true →
        (∃ x, d.times e = .ok x) ∨ ∃ n, d.times e = .error (.tableTooLarge n) := by
  intro hall
  have hcoin : IsFactor ⟨Float.ofBits 0x3fdffffffffffffb, #[ofNat 1, ofNat 1]⟩ :=
    ⟨by decide, by decide +kernel, by decide +kernel, by decide +kernel, by decide⟩
  have htwo : IsFactor (certain (ofNat 2)) :=
    ⟨by decide, by decide, by decide, by decide, by decide +kernel⟩
  have hover : ProductOverruns ⟨Float.ofBits 0x3fdffffffffffffb, #[ofNat 1, ofNat 1]⟩
      (certain (ofNat 2)) := by
    unfold ProductOverruns
    decide +kernel
  have hroom : HasRoom ⟨Float.ofBits 0x3fdffffffffffffb, #[ofNat 1, ofNat 1]⟩
      (certain (ofNat 2)) := by
    unfold HasRoom
    decide +kernel
  obtain ⟨hnot, -⟩ | ⟨-, -, value, htimes⟩ | ⟨-, hnot, -⟩ :=
    times_cases_of_isFactor (by decide) hcoin htwo (.inl rfl)
  · exact hnot hroom
  · obtain ⟨x, hx⟩ | ⟨n, hn⟩ := hall _ _ hcoin htwo (.inl rfl)
    · cases htimes.symm.trans hx
    · cases htimes.symm.trans hn
  · exact hnot hover

end DiceOdds.Distribution
