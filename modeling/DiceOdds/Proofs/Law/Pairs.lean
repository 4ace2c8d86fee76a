import DiceOdds.Proofs.Law.Nonneg
import DiceOdds.Proofs.Law.Support

/-!
# Sums and products, pair by pair

What a sum or a product gives to a value is what the pairs of outcomes with that value add up to
(`pairProbability`). A sum exists unless both operands have a table and one of the tables cannot be
normalized, and the outcomes of its table are then those of the pairs (`isSum_add`). A product cuts
every pair to a whole number and counts it in the slot of that number. The table is made for the
pair of the largest outcomes, and the product exists exactly if no pair falls outside the table
(`isCutProduct_times`): with constants that are negative or have a fraction the pair of the largest
outcomes need not have the largest product.
-/

namespace DiceOdds.Distribution

open Finset Arithmetic

variable {d e x : Distribution ℚ}

/-! ## Pairs of outcomes -/

/-- The outcomes of a distribution: its constant if it is certain, and otherwise those of its slots,
whether or not these weigh anything. -/
def outcomeSet (d : Distribution ℚ) : Finset ℚ :=
  if d.isCertain then {d.constant} else (range d.size).image d.outcome

/-- The probability that independent outcomes of two distributions combine to `v`: every pair that
does adds the product of its probabilities. -/
def pairProbability (op : ℚ → ℚ → ℚ) (d e : Distribution ℚ) (v : ℚ) : ℚ :=
  ∑ a ∈ d.outcomeSet, ∑ b ∈ e.outcomeSet,
    if op a b = v then d.probabilityAt a * e.probabilityAt b else 0

/-- The outcomes that a product multiplies are the outcomes. -/
theorem mem_outcomeSet {v : ℚ} : v ∈ d.outcomeSet ↔ d.HasOutcome v := by
  unfold outcomeSet HasOutcome
  cases d.isCertain with
  | true => simp
  | false => simp [eq_comm]

/-- Every distribution has an outcome. -/
theorem outcomeSet_nonempty (d : Distribution ℚ) : d.outcomeSet.Nonempty := by
  cases hd : d.isCertain with
  | true => exact ⟨d.constant, mem_outcomeSet.mpr (.inl ⟨hd, rfl⟩)⟩
  | false =>
    have hpos := size_pos_of_isUncertain hd
    exact ⟨d.outcome 0, mem_outcomeSet.mpr (.inr ⟨hd, 0, hpos, rfl⟩)⟩

/-- Only outcomes have a probability. -/
theorem support_law_subset (d : Distribution ℚ) : d.law.support ⊆ d.outcomeSet := by
  intro v hv
  rw [Finsupp.mem_support_iff] at hv
  by_contra hnot
  rw [mem_outcomeSet] at hnot
  refine hv ?_
  cases hd : d.isCertain with
  | true =>
    have hne : d.constant ≠ v := fun h => hnot (.inl ⟨hd, h.symm⟩)
    rw [law_of_isCertain hd, Law.point, Finsupp.single_apply, if_neg hne]
  | false => exact law_eq_zero hd fun i hi h => hnot (.inr ⟨hd, i, hi, h.symm⟩)

/-- The law of independent operands adds up pairs of outcomes. -/
theorem combine_law_apply (op : ℚ → ℚ → ℚ) (d e : Distribution ℚ) (v : ℚ) :
    Law.combine op d.law e.law v = pairProbability op d e v := by
  -- An outcome outside the support of a law has probability 0 and adds nothing.
  have hright (a : ℚ) : (∑ b ∈ e.law.support, if op a b = v then d.law a * e.law b else 0) =
      ∑ b ∈ e.outcomeSet, if op a b = v then d.law a * e.law b else 0 := by
    refine sum_subset e.support_law_subset fun b _ hb => ?_
    rw [Finsupp.notMem_support_iff.mp hb, mul_zero, ite_self]
  unfold pairProbability
  simp only [Law.combine_apply, probabilityAt_eq_law, hright]
  refine sum_subset d.support_law_subset fun a _ ha => sum_eq_zero fun b _ => ?_
  rw [Finsupp.notMem_support_iff.mp ha, zero_mul, ite_self]

/-! ## Sums -/

/-- What makes a distribution the sum of two others. -/
structure IsSum (d e x : Distribution ℚ) : Prop where
  /-- The constants add up. -/
  constant : x.constant = d.constant + e.constant
  /-- So do the numbers of slots. -/
  size : x.size = d.size + e.size
  /-- The probability of a value is that of the pairs of outcomes that add up to it. -/
  probability : ∀ v, x.probabilityAt v = pairProbability (· + ·) d e v
  /-- The weights of the sum of two tables are its probabilities. -/
  total : d.isUncertain = true → e.isUncertain = true → x.totalWeight = 1
  /-- The lowest slot of the sum of two tables is empty. -/
  lowest : d.isUncertain = true → e.isUncertain = true → x.weights[0]? = some 0

/-- Whatever addition gives is the sum. -/
theorem isSum_of_add_eq_ok [Memory] (h : d.add e = .ok x) : IsSum d e x := by
  have hsize := size_add h
  have hprobability (v : ℚ) : x.probabilityAt v = pairProbability (· + ·) d e v := by
    rw [probabilityAt_eq_law, law_add h, combine_law_apply]
  obtain ⟨hd, he, hdpos, hepos, -, rfl⟩ | ⟨hd, rfl⟩ | ⟨-, he, rfl⟩ := add_eq_ok h
  · have hpos : 0 < (convolution d.shares e.shares).size := by
      rw [size_convolution, size_shares, Nat.add_pos_iff_pos_or_pos]
      exact .inl (size_pos_of_isUncertain hd)
    have hslot : (convolution d.shares e.shares)[0] = convolutionAt d.shares e.shares 0 :=
      Array.getElem_ofFn _
    refine ⟨rfl, hsize, hprobability, fun _ _ => sum_convolution_shares hdpos hepos, fun _ _ => ?_⟩
    rw [Array.getElem?_eq_getElem hpos, hslot, convolutionAt_zero]
    rfl
  · have hnot : ¬ d.isUncertain = true := by simp [isUncertain, hd]
    exact ⟨rfl, hsize, hprobability, fun h => absurd h hnot, fun h => absurd h hnot⟩
  · have hnot : ¬ e.isUncertain = true := by simp [isUncertain, he]
    exact ⟨rfl, hsize, hprobability, fun _ h => absurd h hnot, fun _ h => absurd h hnot⟩

/-- Whether both operands of a sum have a table, and one of the tables has no positive total. -/
def LackWeight (d e : Distribution ℚ) : Prop :=
  d.isUncertain = true ∧ e.isUncertain = true ∧ (d.totalWeight ≤ 0 ∨ e.totalWeight ≤ 0)

/-- With room for the table, addition fails for the lack of weight or not at all. -/
theorem add_eq_error_or_ok [Memory]
    (hroom : d.isUncertain = true → e.isUncertain = true → d.size + e.size ≤ tableCapacity) :
    (LackWeight d e ∧ ∃ total, d.add e = .error (.zeroWeight total)) ∨
      ¬ LackWeight d e ∧ ∃ x, d.add e = .ok x := by
  obtain ⟨hd, hadd⟩ | ⟨-, he, hadd⟩ | ⟨hd, he, hadd⟩ := add_cases d e
  · exact .inr ⟨by simp [LackWeight, isUncertain, hd], _, hadd⟩
  · exact .inr ⟨by simp [LackWeight, isUncertain, he], _, hadd⟩
  have hdu : d.isUncertain = true := by simp [isUncertain, hd]
  have heu : e.isUncertain = true := by simp [isUncertain, he]
  rw [normalizer_rat, normalizer_rat] at hadd
  by_cases hdpos : 0 < d.totalWeight
  · rw [if_pos hdpos] at hadd
    by_cases hepos : 0 < e.totalWeight
    · rw [if_pos hepos] at hadd
      refine .inr ⟨fun h => h.2.2.elim hdpos.not_ge hepos.not_ge,
        ⟨d.constant + e.constant, convolution d.shares e.shares⟩, hadd.trans ?_⟩
      exact if_neg (not_lt.mpr (hroom hdu heu))
    · rw [if_neg hepos] at hadd
      exact .inl ⟨⟨hdu, heu, .inr (not_lt.mp hepos)⟩, _, hadd⟩
  · rw [if_neg hdpos] at hadd
    exact .inl ⟨⟨hdu, heu, .inl (not_lt.mp hdpos)⟩, _, hadd⟩

/-- Addition fails exactly if both operands have a table and one of the tables has no positive
total, for that reason; everything else has a sum. -/
theorem isSum_add [Memory] (d e : Distribution ℚ)
    (hroom : d.isUncertain = true → e.isUncertain = true → d.size + e.size ≤ tableCapacity) :
    ((∃ err, d.add e = .error err) ↔ LackWeight d e) ∧
      (∀ err, d.add e = .error err → ∃ total, err = .zeroWeight total) ∧
      (¬ LackWeight d e → ∃ x, d.add e = .ok x ∧ IsSum d e x) := by
  obtain ⟨hweightless, total, herr⟩ | ⟨hweight, x, hok⟩ := add_eq_error_or_ok hroom
  · refine ⟨iff_of_true ⟨_, herr⟩ hweightless, fun err h => ?_, fun h => absurd hweightless h⟩
    exact ⟨total, Except.error.inj (h.symm.trans herr)⟩
  · have hnone (err) : d.add e ≠ .error err := by
      rw [hok]
      exact nofun
    exact ⟨iff_of_false (fun ⟨err, h⟩ => hnone err h) hweight, fun err h => absurd h (hnone err),
      fun _ => ⟨x, hok, isSum_of_add_eq_ok hok⟩⟩

/-- A loaded coin above a constant with a fraction, and a fair one. -/
theorem isSum_add_loaded_coin :
    ∃ x, add ⟨1 / 2, #[5, 15]⟩ ⟨2, #[1 / 2, 1 / 2]⟩ = .ok x ∧
      IsSum ⟨1 / 2, #[5, 15]⟩ ⟨2, #[1 / 2, 1 / 2]⟩ x := by
  refine (isSum_add ⟨1 / 2, #[5, 15]⟩ ⟨2, #[1 / 2, 1 / 2]⟩ fun _ _ => by decide).2.2 ?_
  simp only [LackWeight, totalWeight, sum_rat]
  norm_num

/-! ## Products -/

/-- What makes a distribution the product of two others, cut to whole numbers. -/
structure IsCutProduct (d e x : Distribution ℚ) : Prop where
  /-- The table counts from 1. -/
  constant : x.constant = 0
  /-- There is a slot for every number up to the product of the largest outcomes. -/
  size : (x.size : ℚ) = trunc (d.largestOutcome * e.largestOutcome)
  /-- The weights are probabilities. -/
  total : x.totalWeight = 1
  /-- The weight of a number is that of the pairs of outcomes whose product is cut to it. -/
  weight : ∀ k : ℕ, slotWeight x.weights k = pairProbability (fun a b => trunc (a * b)) d e (k + 1)
  /-- So is the probability of any value. -/
  probability : ∀ v, x.probabilityAt v = pairProbability (fun a b => trunc (a * b)) d e v

/-- Whether the product of two outcomes, cut to a whole number, is one that the product of two
distributions has a slot for. -/
def Fits (d e : Distribution ℚ) (v : ℚ) : Prop :=
  1 ≤ trunc v ∧ trunc v ≤ trunc (d.largestOutcome * e.largestOutcome)

/-- Whether a product fits can be decided. -/
instance (d e : Distribution ℚ) (v : ℚ) : Decidable (Fits d e v) :=
  inferInstanceAs (Decidable (_ ∧ _))

/-- With room for the table, a product has a slot exactly if it fits. -/
theorem productSlot?_ne_none_iff_fits (hroom : productBound d e < (wordMax : ℚ)) {v : ℚ} :
    productSlot? (productSize d e) v ≠ none ↔ Fits d e v := by
  rw [productSlot?_ne_none_iff, productSize_cast hroom]
  refine and_congr_right fun hone => ?_
  -- A number from 1 up is not below an empty table.
  rw [le_max_iff, or_iff_right (by linarith), productBound_rat]

/-- What has a positive total where it has a table can be normalized, and the entries stand for its
outcomes. -/
theorem exists_normalizedOutcomes_eq_ok (hd : d.isCertain = false → 0 < d.totalWeight) :
    ∃ entries, d.normalizedOutcomes = .ok entries ∧
      ∀ v, v ∈ d.outcomeSet ↔ ∃ a ∈ entries, a.1 = v := by
  have hok : ∃ entries, d.normalizedOutcomes = .ok entries := by
    cases hcertain : d.isCertain with
    | true => exact ⟨_, normalizedOutcomes_of_isCertain hcertain⟩
    | false =>
      rw [normalizedOutcomes_of_isUncertain hcertain, normalizer_rat, if_pos (hd hcertain)]
      exact ⟨_, rfl⟩
  obtain ⟨entries, hentries⟩ := hok
  refine ⟨entries, hentries, fun v => ?_⟩
  rw [mem_outcomeSet, HasOutcome, exists_mem_normalizedOutcomes_iff hentries]
  cases d.isCertain with
  | true => simp
  | false => simp

/-- If the entries stand for the outcomes, the table is filled exactly if every pair fits. -/
theorem exists_productTable_eq_ok_iff_fits {left right : Array (ℚ × ℚ)}
    (hroom : productBound d e < (wordMax : ℚ))
    (hleft : ∀ v, v ∈ d.outcomeSet ↔ ∃ a ∈ left, a.1 = v)
    (hright : ∀ v, v ∈ e.outcomeSet ↔ ∃ b ∈ right, b.1 = v) :
    (∃ table, productTable (productSize d e) left right = .ok table) ↔
      ∀ a ∈ d.outcomeSet, ∀ b ∈ e.outcomeSet, Fits d e (a * b) := by
  rw [exists_productTable_eq_ok_iff]
  simp only [hleft, hright, productSlot?_ne_none_iff_fits hroom]
  constructor
  · rintro h _ ⟨a, ha, rfl⟩ _ ⟨b, hb, rfl⟩
    exact h a ha b hb
  · exact fun h a ha b hb => h a.1 ⟨a, ha, rfl⟩ b.1 ⟨b, hb, rfl⟩

/-- With room for the table, and with nothing to make it certain, a product multiplies the
normalized outcomes. -/
theorem times_of_isUncertain [Memory]
    (huncertain : d.isUncertain = true ∨ e.isUncertain = true)
    (hdzero : d.isCertain = true → d.constant ≠ 0) (hezero : e.isCertain = true → e.constant ≠ 0)
    (hroom : productBound d e ≤ (tableCapacity : ℚ)) :
    productSize d e ≤ tableCapacity ∧ d.times e = do
      let right ← e.normalizedOutcomes
      let left ← d.normalizedOutcomes
      return ⟨0, ← productTable (productSize d e) left right⟩ := by
  have hword : productBound d e < (wordMax : ℚ) :=
    hroom.trans_lt (Nat.cast_lt.mpr tableCapacity_lt_wordMax)
  have hsize : productSize d e ≤ tableCapacity := by
    have h : (productSize d e : ℚ) ≤ tableCapacity := by
      rw [productSize_cast hword]
      exact max_le (Nat.cast_nonneg _) hroom
    exact_mod_cast h
  obtain ⟨hdc, hec, -⟩ | ⟨-, hzero, -⟩ | ⟨-, -, ⟨hlarge, -⟩ | ⟨-, -, htimes⟩⟩ := times_cases d e
  · simp [isUncertain, hdc, hec] at huncertain
  · simp only [Bool.or_eq_true, Bool.and_eq_true, beq_iff_eq, ofNat_rat, Nat.cast_zero] at hzero
    obtain ⟨hdc, hd⟩ | ⟨hec, he⟩ := hzero
    · exact absurd hd (hdzero hdc)
    · exact absurd he (hezero hec)
  · exact absurd ⟨hword, hsize⟩ hlarge
  · exact ⟨hsize, htimes⟩

/-- The table of products, filled to the end, is the product. -/
theorem isCutProduct_of_productTable_eq_ok {left right : Array (ℚ × ℚ)} {table : Array ℚ}
    (hd : d.isCertain = false → 0 < d.totalWeight) (he : e.isCertain = false → 0 < e.totalWeight)
    (hleft : d.normalizedOutcomes = .ok left) (hright : e.normalizedOutcomes = .ok right)
    (hword : productSize d e ≤ wordMax) (hcast : (productSize d e : ℚ) = productBound d e)
    (htable : productTable (productSize d e) left right = .ok table) :
    IsCutProduct d e ⟨0, table⟩ := by
  obtain ⟨htableSize, hlaw⟩ := productTable_eq_ok hword htable
  rw [normalizedOutcomes_eq_ok hleft, normalizedOutcomes_eq_ok hright] at hlaw
  obtain ⟨-, htotal, hproduct⟩ := law_productTable hd he hlaw
  refine ⟨rfl, ?_, htotal, fun k => ?_, fun v => ?_⟩
  · rw [← productBound_rat, ← hcast, ← htableSize]
    rfl
  · show slotWeight table k = _
    rw [← tableLaw_apply, hlaw, Law.product, combine_law_apply]
  · rw [probabilityAt_eq_law, hproduct, Law.product, combine_law_apply]

/-- A product exists exactly if every pair of outcomes fits, and is then the distribution of the cut
products. If a pair does not fit, that is the error. -/
theorem isCutProduct_times [Memory] (d e : Distribution ℚ)
    (hd : d.isUncertain = true → 0 < d.totalWeight) (he : e.isUncertain = true → 0 < e.totalWeight)
    (huncertain : d.isUncertain = true ∨ e.isUncertain = true)
    (hdzero : d.isCertain = true → d.constant ≠ 0) (hezero : e.isCertain = true → e.constant ≠ 0)
    (hroom : trunc (d.largestOutcome * e.largestOutcome) ≤ (tableCapacity : ℚ)) :
    ((∃ value size, d.times e = .error (.productOutOfRange value size)) ↔
        ∃ a ∈ d.outcomeSet, ∃ b ∈ e.outcomeSet, ¬ Fits d e (a * b)) ∧
      ((∀ a ∈ d.outcomeSet, ∀ b ∈ e.outcomeSet, Fits d e (a * b)) →
        ∃ x, d.times e = .ok x ∧ IsCutProduct d e x) := by
  rw [← productBound_rat] at hroom
  have hword : productBound d e < (wordMax : ℚ) :=
    hroom.trans_lt (Nat.cast_lt.mpr tableCapacity_lt_wordMax)
  replace hd (h : d.isCertain = false) : 0 < d.totalWeight := hd (by simp [isUncertain, h])
  replace he (h : e.isCertain = false) : 0 < e.totalWeight := he (by simp [isUncertain, h])
  obtain ⟨hsize, htimes⟩ := times_of_isUncertain huncertain hdzero hezero hroom
  obtain ⟨left, hleft, hmemLeft⟩ := exists_normalizedOutcomes_eq_ok hd
  obtain ⟨right, hright, hmemRight⟩ := exists_normalizedOutcomes_eq_ok he
  rw [hleft, hright] at htimes
  have hfilled := exists_productTable_eq_ok_iff_fits hword hmemLeft hmemRight
  rcases htable : productTable (productSize d e) left right with err | table
  · rw [htable] at hfilled
    have hnot := hfilled.not.mp (by rintro ⟨table, h⟩; cases h)
    obtain ⟨value, rfl⟩ := exists_of_productTable_eq_error htable
    have herr : d.times e = .error (.productOutOfRange value (productSize d e)) := by
      rw [htimes]
      simp only [htable, bind, Except.bind]
    exact ⟨iff_of_true ⟨_, _, herr⟩ (by simpa using hnot), fun h => absurd h hnot⟩
  · have hall := hfilled.mp ⟨table, htable⟩
    have hok : d.times e = .ok ⟨0, table⟩ := by
      rw [htimes]
      simp only [htable, bind, Except.bind]
      rfl
    have hcast : (productSize d e : ℚ) = productBound d e := by
      obtain ⟨a, ha⟩ := d.outcomeSet_nonempty
      obtain ⟨b, hb⟩ := e.outcomeSet_nonempty
      obtain ⟨hone, hle⟩ := hall a ha b hb
      rw [productSize_cast hword, max_eq_right]
      rw [← productBound_rat] at hle
      exact zero_le_one.trans (hone.trans hle)
    refine ⟨iff_of_false ?_ ?_, fun _ => ⟨_, hok, ?_⟩⟩
    · rintro ⟨value, size, h⟩
      cases hok.symm.trans h
    · rintro ⟨a, ha, b, hb, hnot⟩
      exact hnot (hall a ha b hb)
    · exact isCutProduct_of_productTable_eq_ok hd he hleft hright
        (hsize.trans tableCapacity_lt_wordMax.le) hcast htable

/-- Outcomes above a constant with a fraction, scaled by a number with a fraction. -/
theorem isCutProduct_times_three_halves :
    ∃ x, times ⟨1 / 2, #[1, 3]⟩ (certain (3 / 2)) = .ok x ∧
      IsCutProduct ⟨1 / 2, #[1, 3]⟩ (certain (3 / 2)) x := by
  refine (isCutProduct_times ⟨1 / 2, #[1, 3]⟩ (certain (3 / 2)) (fun _ => ?_) (fun h => by cases h)
    (.inl rfl) (fun h => by cases h) (fun _ => ?_) ?_).2 ?_
  · decide +kernel
  · decide +kernel
  · decide +kernel
  · decide +kernel

end DiceOdds.Distribution
