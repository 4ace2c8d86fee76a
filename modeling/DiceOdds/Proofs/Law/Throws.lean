import DiceOdds.Proofs.Evaluation.TableSize
import DiceOdds.Proofs.Law.Pairs

/-!
# Dice count throws

The law of some dice counts the ways in which they can fall: with `count` dice of `faces` faces each
there are `faces ^ count` throws, all equally likely, and the probability of a sum is the share of
the throws that have it (`Law.dice_apply`). The table of the dice has that law, so every weight in
it is such a count, up to the total that the table was left with (`uniformSum_isDiceTable`). What is
known of throws is then known of the weights: no throw falls below one point a die, every sum from
there up is thrown, and turning all dice over reflects the sums.
-/

namespace DiceOdds

open Finset Arithmetic

/-! ## Throws -/

/-- The throws of `count` dice with `faces` faces: each die shows a number from 1 to `faces`. -/
def throws (count faces : ℕ) : Finset (Fin count → ℕ) :=
  Fintype.piFinset fun _ => Icc 1 faces

/-- The number of throws with sum `k`. -/
def ways (count faces k : ℕ) : ℕ := #{t ∈ throws count faces | ∑ i, t i = k}

variable {count faces k : ℕ}

/-- Every die of a throw shows one of its faces. -/
theorem mem_throws {t : Fin count → ℕ} :
    t ∈ throws count faces ↔ ∀ i, 1 ≤ t i ∧ t i ≤ faces := by
  simp only [throws, Fintype.mem_piFinset, mem_Icc]

/-- One more die shows any of its faces beside any throw of the others. -/
theorem sum_throws_succ {M : Type} [AddCommMonoid M] (g : (Fin (count + 1) → ℕ) → M) :
    ∑ t ∈ throws (count + 1) faces, g t =
      ∑ t ∈ throws count faces, ∑ k ∈ range faces, g (Fin.snoc t (k + 1)) := by
  rw [← sum_product']
  refine (sum_nbij' (fun p : (Fin count → ℕ) × ℕ => (Fin.snoc p.1 (p.2 + 1) : Fin (count + 1) → ℕ))
    (fun t => (Fin.init t, t (Fin.last count) - 1)) ?_ ?_ ?_ ?_ fun _ _ => rfl).symm
  · rintro ⟨t, k⟩ h
    obtain ⟨ht, hk⟩ := mem_product.mp h
    rw [mem_throws] at ht ⊢
    refine Fin.lastCases ?_ fun i => ?_
    · rw [Fin.snoc_last]
      have := mem_range.mp hk
      omega
    · rw [Fin.snoc_castSucc]
      exact ht i
  · intro t ht
    rw [mem_throws] at ht
    refine mem_product.mpr ⟨mem_throws.mpr fun i => ht i.castSucc, mem_range.mpr ?_⟩
    have := ht (Fin.last count)
    omega
  · rintro ⟨t, k⟩ -
    rw [Fin.init_snoc, Fin.snoc_last, Nat.add_sub_cancel]
  · intro t ht
    have hlast := (mem_throws.mp ht (Fin.last count)).1
    rw [Nat.sub_add_cancel hlast, Fin.snoc_init_self]

/-- A throw has a sum of at least 1 for every die. -/
theorem le_sum_of_mem_throws {t : Fin count → ℕ} (h : t ∈ throws count faces) :
    count ≤ ∑ i, t i := by
  simpa using card_nsmul_le_sum univ t 1 fun i _ => (mem_throws.mp h i).1

/-- A sum below the number of dice is not thrown. -/
theorem ways_of_lt (h : k < count) : ways count faces k = 0 := by
  refine card_eq_zero.mpr (filter_eq_empty_iff.mpr fun t ht hsum => ?_)
  have := le_sum_of_mem_throws ht
  omega

/-- Every sum from the lowest to the highest is thrown. -/
theorem exists_mem_throws (hfaces : 0 < faces) (hlo : count ≤ k) (hhi : k ≤ count * faces) :
    ∃ t ∈ throws count faces, ∑ i, t i = k := by
  induction count generalizing k with
  | zero =>
    refine ⟨Fin.elim0, mem_throws.mpr fun i => i.elim0, ?_⟩
    rw [univ_eq_empty, sum_empty]
    omega
  | succ count ih =>
    -- The last die shows as much as the others leave it, if that is one of its faces.
    have hrest : count ≤ k - min faces (k - count) ∧ k - min faces (k - count) ≤ count * faces := by
      have hle : count ≤ count * faces := Nat.le_mul_of_pos_right count hfaces
      rw [Nat.succ_mul] at hhi
      omega
    obtain ⟨t, ht, hsum⟩ := ih hrest.1 hrest.2
    refine ⟨Fin.snoc t (min faces (k - count)), mem_throws.mpr ?_, ?_⟩
    · refine Fin.lastCases ?_ fun i => ?_
      · rw [Fin.snoc_last]
        omega
      · rw [Fin.snoc_castSucc]
        exact mem_throws.mp ht i
    · rw [Fin.sum_univ_castSucc]
      simp only [Fin.snoc_castSucc, Fin.snoc_last, hsum]
      omega

/-- There are ways to throw every sum from the lowest to the highest. -/
theorem ways_pos (hfaces : 0 < faces) (hlo : count ≤ k) (hhi : k ≤ count * faces) :
    0 < ways count faces k := by
  obtain ⟨t, ht, hsum⟩ := exists_mem_throws hfaces hlo hhi
  exact card_pos.mpr ⟨t, mem_filter.mpr ⟨ht, hsum⟩⟩

/-- A throw with all dice turned over: opposite faces add up to one more than there are faces. -/
def turnOver (faces : ℕ) (t : Fin count → ℕ) : Fin count → ℕ := fun i => faces + 1 - t i

/-- Turning the dice over reflects the sum. -/
theorem sum_turnOver_add {t : Fin count → ℕ} (h : t ∈ throws count faces) :
    ∑ i, turnOver faces t i + ∑ i, t i = count * (faces + 1) := by
  have hopposite : ∀ i ∈ univ, turnOver faces t i + t i = faces + 1 := by
    intro i _
    have := mem_throws.mp h i
    rw [turnOver]
    omega
  rw [← sum_add_distrib, sum_congr rfl hopposite]
  simp

/-- Turned over twice, the dice lie as before. -/
theorem turnOver_turnOver {t : Fin count → ℕ} (h : t ∈ throws count faces) :
    turnOver faces (turnOver faces t) = t := by
  funext i
  have := mem_throws.mp h i
  simp only [turnOver]
  omega

/-- Turning all dice over leads from the throws with one sum to those with the reflected one. -/
theorem turnOver_mem {l : ℕ} (h : k + l = count * (faces + 1)) {t : Fin count → ℕ}
    (ht : t ∈ throws count faces ∧ ∑ i, t i = k) :
    turnOver faces t ∈ throws count faces ∧ ∑ i, turnOver faces t i = l := by
  obtain ⟨ht, hsum⟩ := ht
  refine ⟨mem_throws.mpr fun i => ?_, ?_⟩
  · have := mem_throws.mp ht i
    rw [turnOver]
    omega
  · have := sum_turnOver_add ht
    omega

/-- There are as many ways to throw a sum as there are to throw the reflected one. -/
theorem ways_reflect {l : ℕ} (h : k + l = count * (faces + 1)) :
    ways count faces k = ways count faces l :=
  card_nbij' (turnOver faces) (turnOver faces)
    (fun _ ht => mem_filter.mpr (turnOver_mem h (mem_filter.mp ht)))
    (fun _ ht => mem_filter.mpr (turnOver_mem ((add_comm l k).trans h) (mem_filter.mp ht)))
    (fun _ ht => turnOver_turnOver (mem_filter.mp ht).1)
    fun _ ht => turnOver_turnOver (mem_filter.mp ht).1

/-! ## Laws of dice -/

namespace Law

/-- The law of some dice gives every throw the same probability. -/
theorem dice_eq_sum (count faces : ℕ) :
    dice count faces =
      ∑ t ∈ throws count faces, Finsupp.single ((∑ i, t i : ℕ) : ℚ) (1 / (faces : ℚ) ^ count) := by
  induction count with
  | zero =>
    rw [throws, Fintype.piFinset_of_isEmpty, univ_unique, sum_singleton]
    simp [dice, point]
  | succ count ih =>
    rw [dice, ih, die, combine_sum_sum, sum_throws_succ]
    refine sum_congr rfl fun t _ => sum_congr rfl fun k _ => ?_
    rw [Fin.sum_univ_castSucc]
    simp only [Fin.snoc_castSucc, Fin.snoc_last]
    congr 1
    · push_cast
      ring
    · rw [pow_succ, div_mul_div_comm, one_mul]

/-- The probability of a sum is the share of the throws that have it. -/
theorem dice_apply (count faces k : ℕ) :
    dice count faces k = ways count faces k / (faces : ℚ) ^ count := by
  rw [dice_eq_sum, sum_single_apply, ← sum_filter, sum_const, nsmul_eq_mul, mul_one_div, ways]
  simp only [Nat.cast_inj]

end Law

namespace Distribution

/-! ## Tables of dice -/

/-- What the table of `count` dice with `faces` faces is. -/
structure IsDiceTable (count faces : ℕ) (x : Distribution ℚ) : Prop where
  /-- The table counts from 1. -/
  constant : x.constant = 0
  /-- There is a slot for every sum up to the highest. -/
  size : x.size = count * faces
  /-- A single die keeps its weights, and the weights of more dice are their probabilities. -/
  total : x.totalWeight = if count = 1 then (faces : ℚ) else 1
  /-- The share of a sum in the weights is its share in the throws. -/
  share : ∀ k, 1 ≤ k → k ≤ count * faces →
    slotWeight x.weights (k - 1) / x.totalWeight = ways count faces k / (faces : ℚ) ^ count
  /-- No sum is lower than the number of dice. -/
  below : ∀ k, 1 ≤ k → k < count → slotWeight x.weights (k - 1) = 0
  /-- Every sum from there to the highest has weight. -/
  pos : ∀ k, count ≤ k → k ≤ count * faces → 0 < slotWeight x.weights (k - 1)
  /-- Sums that lie as far below the mean as above it have the same weight. -/
  symm : ∀ k l, 1 ≤ k → 1 ≤ l → k + l = count * (faces + 1) →
    slotWeight x.weights (k - 1) = slotWeight x.weights (l - 1)

/-- Copies of a die that weighs something can be added as long as there is room, and any copy leaves
the total at 1. -/
theorem exists_addCopies_eq_ok [Memory] {die : Distribution ℚ}
    (hdie : die.isUncertain = true) (hpos : 0 < die.totalWeight) (n : ℕ)
    {d : Distribution ℚ} (hd : d.isUncertain = true)
    (hdpos : 0 < d.totalWeight) (hroom : d.size + n * die.size ≤ tableCapacity) :
    ∃ x, addCopies die n d = .ok x ∧ x.constant = d.constant + n * die.constant ∧
      x.totalWeight = if n = 0 then d.totalWeight else 1 := by
  induction n generalizing d with
  | zero => exact ⟨d, rfl, by simp, rfl⟩
  | succ n ih =>
    have hroom' : d.size + die.size + n * die.size ≤ tableCapacity := by
      rw [Nat.succ_mul] at hroom
      omega
    obtain ⟨y, hadd, hy⟩ := (isSum_add d die fun _ _ => by omega).2.2
      fun hlack => hlack.2.2.elim hdpos.not_ge hpos.not_ge
    have htotal := hy.total hd hdie
    have huncertain : y.isUncertain = true := by
      rw [isUncertain, Bool.not_eq_true'] at hd ⊢
      rw [isCertain_add hadd, hd, Bool.false_and]
    obtain ⟨x, hx, hconstant, hxtotal⟩ := ih huncertain (by rw [htotal]; exact one_pos)
      (by rw [hy.size]; exact hroom')
    refine ⟨x, Except.bind_eq_ok_iff.mpr ⟨y, hadd, hx⟩, ?_, ?_⟩
    · rw [hconstant, hy.constant]
      push_cast
      ring
    · rw [hxtotal, htotal, ite_self, if_neg n.succ_ne_zero]

/-- With room for the table, some dice are copies of one die. -/
theorem uniformSum_of_le [Memory] (hcount : 0 < count) (hfaces : 0 < faces)
    (hroom : count * faces ≤ tableCapacity) :
    uniformSum (α := ℚ) count faces =
      addCopies ⟨0, Array.replicate faces 1⟩ (count - 1) ⟨0, Array.replicate faces 1⟩ := by
  have hword : count * faces ≤ wordMax := hroom.trans tableCapacity_lt_wordMax.le
  have hflat : faces ≤ tableCapacity := (Nat.le_mul_of_pos_left faces hcount).trans hroom
  unfold uniformSum flat
  rw [if_neg (by simp; omega), if_neg (by omega), if_neg (by omega), ofNat_rat, ofNat_rat,
    Nat.cast_zero, Nat.cast_one]
  rfl

/-- With room for the table, some dice have a sum. Only a single die has another total than 1. -/
theorem exists_uniformSum_eq_ok [Memory] (hcount : 0 < count) (hfaces : 0 < faces)
    (hroom : count * faces ≤ tableCapacity) :
    ∃ x : Distribution ℚ, uniformSum count faces = .ok x ∧ x.constant = 0 ∧
      x.totalWeight = if count = 1 then (faces : ℚ) else 1 := by
  have htotal := totalWeight_replicate_one faces 0
  have hsize : (⟨0, Array.replicate faces 1⟩ : Distribution ℚ).size = faces :=
    Array.size_replicate ..
  have huncertain : (⟨0, Array.replicate faces 1⟩ : Distribution ℚ).isUncertain = true := by
    rw [isUncertain, isCertain_replicate hfaces, Bool.not_false]
  have hpos : 0 < (⟨0, Array.replicate faces 1⟩ : Distribution ℚ).totalWeight := by
    rw [htotal]
    exact_mod_cast hfaces
  have hroom' : faces + (count - 1) * faces ≤ tableCapacity := by
    rwa [add_comm, ← Nat.succ_mul, Nat.succ_eq_add_one, Nat.sub_add_cancel hcount]
  obtain ⟨x, hx, hconstant, hxtotal⟩ := exists_addCopies_eq_ok huncertain hpos (count - 1)
    huncertain hpos (by rwa [hsize])
  refine ⟨x, (uniformSum_of_le hcount hfaces hroom).trans hx, by simpa using hconstant, ?_⟩
  rw [hxtotal, htotal]
  simp only [show count - 1 = 0 ↔ count = 1 by omega]

/-- With room for the table, the sum of some dice exists, and its weights count the throws with each
sum. -/
theorem uniformSum_isDiceTable [Memory] (count faces : ℕ) (hcount : 0 < count)
    (hfaces : 0 < faces) (hroom : count * faces ≤ tableCapacity) :
    ∃ x : Distribution ℚ, uniformSum count faces = .ok x ∧ IsDiceTable count faces x := by
  obtain ⟨x, hx, hconstant, htotal⟩ := exists_uniformSum_eq_ok hcount hfaces hroom
  have hsize := size_uniformSum hx
  obtain ⟨huncertain, hsound, hlaw⟩ := uniformSum_eq_ok hcount hfaces hx
  have hpos := hsound.weight huncertain
  have hthrows : 0 < (faces : ℚ) ^ count := by positivity
  have hshare (k : ℕ) (hk : 1 ≤ k) (hle : k ≤ count * faces) :
      slotWeight x.weights (k - 1) / x.totalWeight = ways count faces k / (faces : ℚ) ^ count := by
    have hout : x.outcome (k - 1) = k := by
      rw [outcome_rat, hconstant, zero_add, Nat.cast_sub hk, Nat.cast_one, sub_add_cancel]
    rw [← Law.dice_apply, ← hlaw, ← hout, law_outcome huncertain (by omega)]
    rfl
  -- A weight is the share of the sum, times a total that is positive.
  have hweight (k : ℕ) (hk : 1 ≤ k) (hle : k ≤ count * faces) :
      slotWeight x.weights (k - 1) = ways count faces k / (faces : ℚ) ^ count * x.totalWeight := by
    rw [← hshare k hk hle, div_mul_cancel₀ _ hpos.ne']
  have hcapacity : count ≤ count * faces := Nat.le_mul_of_pos_right count hfaces
  have hbelow (k : ℕ) (hk : 1 ≤ k) (hlt : k < count) : slotWeight x.weights (k - 1) = 0 := by
    rw [hweight k hk (by omega), ways_of_lt hlt, Nat.cast_zero, zero_div, zero_mul]
  have hpast (k : ℕ) (hlt : count * faces < k) : slotWeight x.weights (k - 1) = 0 :=
    slotWeight_of_le (show x.size ≤ k - 1 by omega)
  refine ⟨x, hx, hconstant, hsize, htotal, hshare, hbelow, fun k hlo hhi => ?_,
    fun k l hk hl hkl => ?_⟩
  · have hways : (0 : ℚ) < ways count faces k := by exact_mod_cast ways_pos hfaces hlo hhi
    rw [hweight k (by omega) hhi]
    positivity
  · -- A sum past the highest reflects one below the lowest, and neither has weight.
    rw [mul_add_one] at hkl
    rcases lt_or_ge (count * faces) k with hlt | hle
    · rw [hpast k hlt, hbelow l hl (by omega)]
    rcases lt_or_ge (count * faces) l with hlt' | hle'
    · rw [hpast l hlt', hbelow k hk (by omega)]
    · rw [← mul_add_one] at hkl
      rw [hweight k hk hle, hweight l hl hle', ways_reflect hkl]

/-- Of the 216 throws of three dice 27 have the sum 10. -/
theorem uniformSum_isDiceTable_three_six :
    3 * 6 ≤ tableCapacity ∧ ways 3 6 10 = 27 ∧
      ∃ x : Distribution ℚ, uniformSum 3 6 = .ok x ∧ IsDiceTable 3 6 x :=
  ⟨by decide, by decide +kernel,
    uniformSum_isDiceTable 3 6 (by decide) (by decide) (by decide)⟩

end Distribution

end DiceOdds
