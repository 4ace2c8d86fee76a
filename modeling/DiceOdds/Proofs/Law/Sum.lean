import DiceOdds.Proofs.Law.Table

/-!
# The law of a sum

The table of a sum of independent distributions is the convolution of their tables, and its law is
the law of the sum. Repeated over copies of one die this gives the law of `N` dice.
-/

namespace DiceOdds.Distribution

open Finset Arithmetic

/-! ## Convolution -/

/-- A loop that adds a term for every index is a sum. -/
theorem fold_add_eq_sum (n : ℕ) (f : ∀ i, i < n → ℚ) (g : ℕ → ℚ) (h : ∀ i hi, f i hi = g i) :
    n.fold (fun i hi acc => acc + f i hi) 0 = ∑ i ∈ range n, g i := by
  induction n with
  | zero => rfl
  | succ n ih =>
    rw [Nat.fold_succ, sum_range_succ, ih (fun i hi => f i (by omega)) fun i hi => h i (by omega),
      h n (by omega)]

/-- Slot `k` of a convolution adds up the pairs of slots whose numbers add up to `k - 1`. -/
theorem convolutionAt_eq_sum (p q : Array ℚ) (k : ℕ) :
    convolutionAt p q k = ∑ i ∈ range p.size, ∑ j ∈ range q.size,
      if i + j + 1 = k then slotWeight p i * slotWeight q j else 0 := by
  -- The loop runs over the slots `i` of `p` that have a partner `k - 1 - i` in `q`.
  have hloop : convolutionAt p q k =
      ∑ i ∈ Ico (k - q.size) (min p.size k), slotWeight p i * slotWeight q (k - 1 - i) := by
    rw [sum_Ico_eq_sum_range]
    unfold convolutionAt
    refine fold_add_eq_sum _ _ _ fun j hj => ?_
    rw [slotWeight_of_lt (by omega), slotWeight_of_lt (by omega)]
  -- A slot without a partner contributes nothing to the sum over all pairs.
  have hrow : ∀ i, (∑ j ∈ range q.size,
      if i + j + 1 = k then slotWeight p i * slotWeight q j else 0) =
        if i < k ∧ k - 1 - i < q.size then slotWeight p i * slotWeight q (k - 1 - i) else 0 := by
    intro i
    split_ifs with h
    · rw [sum_eq_single (k - 1 - i)]
      · rw [if_pos (by omega)]
      · intro j _ hj
        exact if_neg (by omega)
      · intro hj
        exact absurd (mem_range.2 h.2) hj
    · refine sum_eq_zero fun j hj => if_neg ?_
      have := mem_range.1 hj
      omega
  rw [hloop, sum_congr rfl fun i _ => hrow i, ← sum_filter]
  refine sum_congr ?_ fun i _ => rfl
  ext i
  simp only [mem_Ico, mem_filter, mem_range]
  omega

/-- What is added up over the slots of a convolution can be added up over the pairs of slots of its
operands. -/
theorem sum_convolution {M : Type} [AddCommMonoid M] (p q : Array ℚ) (g : ℕ → ℚ →+ M) :
    ∑ k ∈ range (p.size + q.size), g k (slotWeight (convolution p q) k) =
      ∑ i ∈ range p.size, ∑ j ∈ range q.size, g (i + j + 1) (slotWeight p i * slotWeight q j) := by
  have hslot : ∀ k ∈ range (p.size + q.size), g k (slotWeight (convolution p q) k) =
      ∑ i ∈ range p.size, ∑ j ∈ range q.size,
        if i + j + 1 = k then g k (slotWeight p i * slotWeight q j) else 0 := by
    intro k hk
    have hk' : k < (convolution p q).size := by
      rw [size_convolution]
      exact mem_range.1 hk
    rw [slotWeight_of_lt hk']
    have hget : (convolution p q)[k] = convolutionAt p q k := Array.getElem_ofFn _
    rw [hget, convolutionAt_eq_sum, map_sum]
    refine sum_congr rfl fun i _ => ?_
    rw [map_sum]
    refine sum_congr rfl fun j _ => ?_
    rw [apply_ite (g k), map_zero]
  -- Each pair of slots is met in exactly one slot of the convolution.
  rw [sum_congr rfl hslot, sum_comm]
  refine sum_congr rfl fun i hi => ?_
  rw [sum_comm]
  refine sum_congr rfl fun j hj => ?_
  rw [sum_ite_eq, if_pos]
  have := mem_range.1 hi
  have := mem_range.1 hj
  exact mem_range.2 (by omega)

/-! ## Addition -/

/-- The table of normalized weights. -/
def shares (d : Distribution ℚ) : Array ℚ := d.weights.map (· / d.totalWeight)

/-- Normalizing keeps the slots. -/
@[simp] theorem size_shares (d : Distribution ℚ) : d.shares.size = d.size := Array.size_map

/-- The slots of the normalized table are the shares. -/
theorem slotWeight_shares (d : Distribution ℚ) (i : ℕ) : slotWeight d.shares i = d.share i :=
  slotWeight_map (zero_div d.totalWeight) d.weights i

/-- The convolution of two normalized tables has total 1. -/
theorem sum_convolution_shares {d e : Distribution ℚ} (hd : 0 < d.totalWeight)
    (he : 0 < e.totalWeight) :
    Arithmetic.sum (convolution d.shares e.shares) = 1 := by
  rw [sum_eq_sum_slotWeight, size_convolution]
  have h := sum_convolution d.shares e.shares fun _ => AddMonoidHom.id ℚ
  simp only [AddMonoidHom.id_apply, slotWeight_shares, size_shares] at h ⊢
  rw [h]
  simp only [← mul_sum, sum_share he, mul_one, sum_share hd]

section Addition

variable [Memory]

/-- What a sum is: the convolution of the normalized tables if both operands have one, and
otherwise the one table there is, if any, above the sum of the constants. -/
theorem add_eq_ok {d e x : Distribution ℚ} (h : d.add e = .ok x) :
    (d.isCertain = false ∧ e.isCertain = false ∧ 0 < d.totalWeight ∧ 0 < e.totalWeight ∧
        d.size + e.size ≤ tableCapacity ∧
        x = ⟨d.constant + e.constant, convolution d.shares e.shares⟩) ∨
      (d.isCertain = true ∧ x = ⟨d.constant + e.constant, e.weights⟩) ∨
      (d.isCertain = false ∧ e.isCertain = true ∧ x = ⟨d.constant + e.constant, d.weights⟩) := by
  obtain ⟨hd, hadd⟩ | ⟨hd, he, hadd⟩ | ⟨hd, he, hadd⟩ := add_cases d e
  · exact .inr (.inl ⟨hd, (Except.ok.inj (hadd.symm.trans h)).symm⟩)
  · exact .inr (.inr ⟨hd, he, (Except.ok.inj (hadd.symm.trans h)).symm⟩)
  · obtain ⟨total, htotal, h⟩ := Except.bind_eq_ok_iff.mp (hadd.symm.trans h)
    obtain ⟨total', htotal', h⟩ := Except.bind_eq_ok_iff.mp h
    obtain ⟨hdpos, rfl⟩ := normalizer_eq_ok_iff.mp htotal
    obtain ⟨hepos, rfl⟩ := normalizer_eq_ok_iff.mp htotal'
    split at h
    · cases h
    next hcap =>
      exact .inl ⟨hd, he, hdpos, hepos, not_lt.mp hcap, (Except.ok.inj h).symm⟩

/-- A sum of distributions that weigh something weighs something. -/
theorem totalWeight_add_pos {d e x : Distribution ℚ} (hd : d.isCertain = false → 0 < d.totalWeight)
    (he : e.isCertain = false → 0 < e.totalWeight) (h : d.add e = .ok x)
    (hx : x.isCertain = false) : 0 < x.totalWeight := by
  rcases add_eq_ok h with ⟨-, -, hdpos, hepos, -, rfl⟩ | ⟨-, rfl⟩ | ⟨-, -, rfl⟩
  · show 0 < Arithmetic.sum (convolution d.shares e.shares)
    rw [sum_convolution_shares hdpos hepos]
    exact one_pos
  · exact he hx
  · exact hd hx

/-- A sum of sound distributions is sound. -/
theorem sound_add {d e x : Distribution ℚ} (hd : d.Sound) (he : e.Sound) (h : d.add e = .ok x) :
    x.Sound := by
  refine ⟨totalWeight_add_pos hd.weight he.weight h, ?_⟩
  rcases add_eq_ok h with ⟨-, -, -, -, hcap, rfl⟩ | ⟨-, rfl⟩ | ⟨-, -, rfl⟩
  · show (convolution d.shares e.shares).size ≤ tableCapacity
    rw [size_convolution, size_shares, size_shares]
    exact hcap
  · exact he.size_le
  · exact hd.size_le

/-- The law of a sum is that of the sum of independent outcomes. -/
theorem law_add {d e x : Distribution ℚ} (h : d.add e = .ok x) :
    x.law = Law.combine (· + ·) d.law e.law := by
  have hx := isCertain_add h
  rcases add_eq_ok h with ⟨hd, he, hdpos, hepos, -, hxe⟩ | ⟨hd, hxe⟩ | ⟨hd, he, hxe⟩
  · rw [hd, he] at hx
    have htotal : x.totalWeight = 1 := by
      rw [hxe]
      exact sum_convolution_shares hdpos hepos
    have hsize : x.size = d.shares.size + e.shares.size := by
      rw [hxe]
      exact size_convolution _ _
    rw [law_of_isUncertain hx, law_of_isUncertain hd, law_of_isUncertain he,
      Law.combine_sum_sum, hsize]
    have hconv := sum_convolution d.shares e.shares fun k => Finsupp.singleAddHom (x.outcome k)
    simp only [Finsupp.singleAddHom_apply, slotWeight_shares, size_shares] at hconv
    have hshare : ∀ k, x.share k = slotWeight (convolution d.shares e.shares) k := by
      intro k
      rw [share, htotal, div_one, hxe]
    simp only [hshare, size_shares]
    rw [hconv]
    refine sum_congr rfl fun i _ => sum_congr rfl fun j _ => ?_
    congr 1
    rw [outcome_rat, outcome_rat, outcome_rat, hxe]
    push_cast
    ring
  · rw [law_of_isCertain hd]
    rw [hd, Bool.true_and] at hx
    cases he : e.isCertain with
    | true =>
      rw [law_of_isCertain he, law_of_isCertain (hx.trans he), Law.combine_point_point, hxe]
    | false =>
      rw [law_of_isUncertain he, law_of_isUncertain (hx.trans he), Law.combine_point_sum, hxe]
      refine sum_congr rfl fun i _ => ?_
      congr 1
      rw [outcome_rat, outcome_rat, add_assoc]
  · rw [hd, Bool.false_and] at hx
    rw [law_of_isUncertain hd, law_of_isCertain he, law_of_isUncertain hx, Law.combine_sum_point,
      hxe]
    refine sum_congr rfl fun i _ => ?_
    congr 1
    rw [outcome_rat, outcome_rat]
    exact add_right_comm _ _ _

end Addition

/-! ## Dice -/

/-- A table with slots that all have one weight is uncertain. -/
theorem isCertain_replicate {n : ℕ} (h : 0 < n) (weight constant : ℚ) :
    isCertain (⟨constant, Array.replicate n weight⟩ : Distribution ℚ) = false := by
  rw [← Bool.not_eq_true, isCertain_iff]
  simp only [size, Array.size_replicate]
  omega

/-- A table of `n` slots of weight 1 weighs `n`. -/
theorem totalWeight_replicate_one (n : ℕ) (constant : ℚ) :
    totalWeight (⟨constant, Array.replicate n 1⟩ : Distribution ℚ) = n := by
  have hslots : ∀ i ∈ range n, slotWeight (Array.replicate n 1) i = 1 := by
    intro i hi
    rw [slotWeight_of_lt (by rw [Array.size_replicate]; exact mem_range.1 hi),
      Array.getElem_replicate]
  rw [totalWeight_eq_sum]
  simp only [size, Array.size_replicate]
  rw [sum_congr rfl hslots, sum_const, card_range, nsmul_eq_mul, mul_one]

/-- The table of one die has the law of one die. -/
theorem law_replicate_one {faces : ℕ} (h : 0 < faces) :
    law (⟨0, Array.replicate faces 1⟩ : Distribution ℚ) = Law.die faces := by
  rw [law_of_isUncertain (isCertain_replicate h 1 0), Law.die]
  simp only [size, Array.size_replicate]
  refine sum_congr rfl fun i hi => ?_
  rw [outcome_rat, zero_add, share, totalWeight_replicate_one,
    slotWeight_of_lt (by rw [Array.size_replicate]; exact mem_range.1 hi),
    Array.getElem_replicate]

variable [Memory]

/-- The table of one die. -/
theorem flat_eq_ok {size : ℕ} {weight constant : ℚ} {d : Distribution ℚ}
    (h : flat size weight constant = .ok d) :
    size ≤ tableCapacity ∧ d = ⟨constant, Array.replicate size weight⟩ := by
  unfold flat at h
  split_ifs at h with hcap
  exact ⟨not_lt.1 hcap, (Except.ok.inj h).symm⟩

/-- Adding copies of a die to some dice gives the law of all of them, as a sound uncertain
distribution. -/
theorem addCopies_eq_ok {die : Distribution ℚ} {faces : ℕ} (hdie : die.isCertain = false)
    (hsound : die.Sound) (hlaw : die.law = Law.die faces) :
    ∀ (n j : ℕ) {d x : Distribution ℚ}, addCopies die n d = .ok x → d.isCertain = false →
      d.Sound → d.law = Law.dice j faces →
        x.isCertain = false ∧ x.Sound ∧ x.law = Law.dice (j + n) faces
  | 0, j, d, x, h, hd, hds, hdl => by
    obtain rfl : d = x := Except.ok.inj h
    exact ⟨hd, hds, hdl⟩
  | n + 1, j, d, x, h, hd, hds, hdl => by
    unfold addCopies at h
    cases hadd : d.add die with
    | error => rw [hadd] at h; cases h
    | ok y =>
      rw [hadd] at h
      have hy : y.isCertain = false := by rw [isCertain_add hadd, hd, Bool.false_and]
      have hyl : y.law = Law.dice (j + 1) faces := by rw [law_add hadd, hdl, hlaw]; rfl
      -- The dice that are there already grow by one with every copy that is added.
      have hx := addCopies_eq_ok hdie hsound hlaw n (j + 1) h hy (sound_add hds hsound hadd)
        hyl
      rwa [show j + 1 + n = j + (n + 1) by omega] at hx

/-- The table of some dice with some faces is sound and uncertain and has the law of the dice. -/
theorem uniformSum_eq_ok {count faces : ℕ} (hcount : 0 < count) (hfaces : 0 < faces)
    {x : Distribution ℚ} (h : uniformSum count faces = .ok x) :
    x.isCertain = false ∧ x.Sound ∧ x.law = Law.dice count faces := by
  unfold uniformSum at h
  rw [if_neg (by rw [Bool.or_eq_true, decide_eq_true_eq, decide_eq_true_eq]; omega)] at h
  by_cases hword : wordMax < count * faces
  · rw [if_pos hword] at h
    cases h
  rw [if_neg hword] at h
  cases hflat : (flat faces (Arithmetic.ofNat 1) (Arithmetic.ofNat 0) :
      Except (DistributionError ℚ) (Distribution ℚ)) with
  | error => rw [hflat] at h; cases h
  | ok die =>
    rw [hflat] at h
    obtain ⟨hcap, hflatdie⟩ := flat_eq_ok hflat
    have hdie : die = ⟨0, Array.replicate faces 1⟩ := by
      rw [hflatdie, ofNat_rat, ofNat_rat, Nat.cast_zero, Nat.cast_one]
    have hlaw : die.law = Law.die faces := by rw [hdie, law_replicate_one hfaces]
    have hcertain : die.isCertain = false := by
      rw [hdie]
      exact isCertain_replicate hfaces 1 0
    have hsound : die.Sound := by
      refine ⟨fun _ => ?_, ?_⟩
      · rw [hdie, totalWeight_replicate_one]
        exact_mod_cast hfaces
      · rw [hdie, size, Array.size_replicate]
        exact hcap
    have hx := addCopies_eq_ok hcertain hsound hlaw (count - 1) 1 h hcertain hsound
      (by rw [hlaw, Law.dice_one])
    rwa [show 1 + (count - 1) = count by omega] at hx

end DiceOdds.Distribution
