import DiceOdds.Proofs.Law.Reduction
import DiceOdds.Proofs.Law.Throws

/-!
# The mean of sums and products

The mean of a table is that of its law, and the laws of sums and products combine independent
outcomes. So the mean of a sum is the sum of the means. The mean of a product is the product of the
means where no product of outcomes has a fraction to be cut off: the law of a product has the cut
outcomes, and their mean may lie below.
-/

namespace DiceOdds

open Finset Arithmetic

namespace Law

/-! ## Means of combined laws -/

/-- The mean of combined laws goes over the pairs of outcomes. -/
theorem mean_combine (op : ℚ → ℚ → ℚ) (l m : Law) :
    (combine op l m).mean = l.sum fun v p => m.sum fun w q => op v w * (p * q) := by
  unfold combine mean
  rw [Finsupp.sum_sum_index (fun _ => mul_zero _) fun _ _ _ => mul_add _ _ _]
  refine Finsupp.sum_congr fun v _ => ?_
  rw [Finsupp.sum_sum_index (fun _ => mul_zero _) fun _ _ _ => mul_add _ _ _]
  exact Finsupp.sum_congr fun w _ => Finsupp.sum_single_index (mul_zero _)

/-- The mean of a sum of independent outcomes. Each operand counts as often as the other has
outcomes in total. -/
theorem mean_combine_add (l m : Law) :
    (combine (· + ·) l m).mean = l.mean * m.total + l.total * m.mean := by
  rw [mean_combine]
  unfold mean total
  rw [Finsupp.sum_mul, Finsupp.sum_mul, ← Finsupp.sum_add]
  refine Finsupp.sum_congr fun v _ => ?_
  rw [Finsupp.mul_sum, Finsupp.mul_sum, ← Finsupp.sum_add]
  refine Finsupp.sum_congr fun w _ => ?_
  ring

/-- The mean of a product of independent outcomes whose products are whole. -/
theorem mean_product {l m : Law} (h : ∀ v w, l v ≠ 0 → m w ≠ 0 → ∃ n : ℤ, v * w = n) :
    (product l m).mean = l.mean * m.mean := by
  rw [product, mean_combine]
  unfold mean
  rw [Finsupp.sum_mul]
  refine Finsupp.sum_congr fun v hv => ?_
  rw [Finsupp.mul_sum]
  refine Finsupp.sum_congr fun w hw => ?_
  -- There is no fraction to cut off.
  obtain ⟨n, hn⟩ := h v w (Finsupp.mem_support_iff.mp hv) (Finsupp.mem_support_iff.mp hw)
  rw [hn, trunc_intCast, ← hn]
  ring

/-! ## Means of dice -/

variable {faces : ℕ}

/-- The probabilities of the faces of a die add up to 1. -/
theorem total_die (hfaces : 0 < faces) : (die faces).total = 1 := by
  have hne : (faces : ℚ) ≠ 0 := by exact_mod_cast hfaces.ne'
  rw [die, total_sum, sum_const, card_range, nsmul_eq_mul, mul_one_div_cancel hne]

/-- The probabilities of the sums of some dice add up to 1. -/
theorem total_dice (hfaces : 0 < faces) (count : ℕ) : (dice count faces).total = 1 := by
  induction count with
  | zero => exact Finsupp.sum_single_index rfl
  | succ count ih => rw [dice, total_combine, ih, total_die hfaces, one_mul]

/-- The mean of a die lies halfway between 1 and the number of its faces. -/
theorem mean_die (hfaces : 0 < faces) : (die faces).mean = (faces + 1) / 2 := by
  have hne : (faces : ℚ) ≠ 0 := by exact_mod_cast hfaces.ne'
  have hsum : ∑ k ∈ range faces, ((k : ℚ) + 1) = faces * (faces + 1) / 2 := by
    clear hfaces hne
    induction faces with
    | zero => simp
    | succ n ih =>
      rw [sum_range_succ, ih]
      push_cast
      ring
  rw [die, mean_sum, ← sum_mul, hsum]
  field_simp

/-- The mean of some dice is that of one die for each. -/
theorem mean_dice (hfaces : 0 < faces) (count : ℕ) :
    (dice count faces).mean = count * (faces + 1) / 2 := by
  induction count with
  | zero => rw [dice, mean_point, Nat.cast_zero, zero_mul, zero_div]
  | succ count ih =>
    rw [dice, mean_combine_add, ih, total_dice hfaces, total_die hfaces, mean_die hfaces]
    push_cast
    ring

end Law

namespace Distribution

/-! ## Means of tables -/

variable {d e x : Distribution ℚ} {a b : ℚ}

/-- A distribution has a mean unless it has a table without weight, and it is that of its law. -/
theorem mean_eq_ok_iff :
    d.mean = .ok (certain a) ↔ (d.isCertain = false → 0 < d.totalWeight) ∧ a = d.law.mean := by
  constructor
  · intro h
    refine ⟨fun hd => ?_, congrArg constant (mean_eq_ok h)⟩
    rw [mean, if_neg (Bool.eq_false_iff.mp hd)] at h
    obtain ⟨total, htotal, -⟩ := Except.bind_eq_ok_iff.mp h
    exact (normalizer_eq_ok_iff.mp htotal).1
  · rintro ⟨hpos, rfl⟩
    have hok : ∃ x, d.mean = .ok x := by
      cases hd : d.isCertain with
      | true => exact ⟨d, by rw [mean, if_pos hd]; rfl⟩
      | false =>
        have htotal := normalizer_eq_ok_iff.mpr ⟨hpos hd, rfl⟩
        rw [mean, if_neg (Bool.eq_false_iff.mp hd), htotal]
        exact ⟨_, rfl⟩
    obtain ⟨x, hx⟩ := hok
    rw [hx, mean_eq_ok hx]

/-- What has a probability is an outcome. -/
theorem hasOutcome_of_probabilityAt {v : ℚ} (h : d.probabilityAt v ≠ 0) : d.HasOutcome v := by
  rw [probabilityAt_eq_law, ← Finsupp.mem_support_iff] at h
  exact mem_outcomeSet.mp (d.support_law_subset h)

/-- The mean of a sum is the sum of the means. -/
theorem mean_add [Memory] (hd : d.mean = .ok (certain a)) (he : e.mean = .ok (certain b))
    (h : d.add e = .ok x) : x.mean = .ok (certain (a + b)) := by
  obtain ⟨hdpos, rfl⟩ := mean_eq_ok_iff.mp hd
  obtain ⟨hepos, rfl⟩ := mean_eq_ok_iff.mp he
  refine mean_eq_ok_iff.mpr ⟨totalWeight_add_pos hdpos hepos h, ?_⟩
  rw [law_add h, Law.mean_combine_add, total_law hdpos, total_law hepos, mul_one, one_mul]

/-- The mean of a product is the product of the means, if the product is certain or no outcomes have
a product with a fraction. -/
theorem mean_times [Memory] (hd : d.mean = .ok (certain a)) (he : e.mean = .ok (certain b))
    (hwhole : (d.isCertain = true ∧ e.isCertain = true) ∨
      ∀ v w, d.probabilityAt v ≠ 0 → e.probabilityAt w ≠ 0 → ∃ n : ℤ, v * w = n)
    (h : d.times e = .ok x) : x.mean = .ok (certain (a * b)) := by
  obtain ⟨hdpos, rfl⟩ := mean_eq_ok_iff.mp hd
  obtain ⟨hepos, rfl⟩ := mean_eq_ok_iff.mp he
  have hconstant {d : Distribution ℚ} (hd : d.isCertain = true) : d.law.mean = d.constant := by
    rw [law_of_isCertain hd, Law.mean_point]
  obtain ⟨hdc, hec, rfl⟩ | ⟨-, hzero, rfl⟩ | ⟨hboth, -, -, hsound, hlaw⟩ :=
    times_eq_ok hdpos hepos h
  · rw [hconstant hdc, hconstant hec]
    rfl
  · obtain ⟨hc, hd0⟩ | ⟨hc, he0⟩ := hzero
    · rw [hconstant hc, hd0, zero_mul]
      rfl
    · rw [hconstant hc, he0, mul_zero]
      rfl
  · have hwhole := hwhole.resolve_left fun h => by simp [h] at hboth
    simp only [probabilityAt_eq_law] at hwhole
    exact mean_eq_ok_iff.mpr ⟨hsound.weight, by rw [hlaw, Law.mean_product hwhole]⟩

/-- The mean of some dice is that of one die for each. -/
theorem mean_uniformSum [Memory] {count faces : ℕ} (hcount : 0 < count) (hfaces : 0 < faces)
    (h : uniformSum count faces = .ok x) : x.mean = .ok (certain (count * (faces + 1) / 2)) := by
  obtain ⟨-, hsound, hlaw⟩ := uniformSum_eq_ok hcount hfaces h
  exact mean_eq_ok_iff.mpr ⟨hsound.weight, by rw [hlaw, Law.mean_dice hfaces]⟩

/-- Means are linear, and multiplicative as long as nothing is cut off. Only the lack of room for
its table keeps a sum of distributions with a mean from having one. -/
theorem mean_operations [Memory] :
    (∀ (d e : Distribution ℚ) (a b : ℚ), d.mean = .ok (certain a) → e.mean = .ok (certain b) →
      ((d.add e).Yields (fun x => x.mean = .ok (certain (a + b))) fun _ =>
        d.isUncertain = true ∧ e.isUncertain = true ∧ tableCapacity < d.size + e.size) ∧
      ((d.isCertain = true ∧ e.isCertain = true ∨
          ∀ v w, d.probabilityAt v ≠ 0 → e.probabilityAt w ≠ 0 → ∃ n : ℤ, v * w = n) →
        ∀ x, d.times e = .ok x → x.mean = .ok (certain (a * b)))) ∧
    ∀ count faces : ℕ, 0 < count → 0 < faces →
      (uniformSum count faces).Yields
        (fun x : Distribution ℚ => x.mean = .ok (certain (count * (faces + 1) / 2)))
        fun _ => tableCapacity < count * faces := by
  refine ⟨fun d e a b hd he => ⟨?_, fun hwhole x h => mean_times hd he hwhole h⟩,
    fun count faces hcount hfaces => ?_⟩
  · rcases hadd : d.add e with err | x
    · obtain ⟨hdpos, -⟩ := mean_eq_ok_iff.mp hd
      obtain ⟨hepos, -⟩ := mean_eq_ok_iff.mp he
      by_contra hroom
      obtain ⟨⟨hdu, heu, hlack⟩, -⟩ | ⟨-, x, hx⟩ := add_eq_error_or_ok (d := d) (e := e)
        fun hdu heu => not_lt.mp fun hlt => hroom ⟨hdu, heu, hlt⟩
      · rw [isUncertain, Bool.not_eq_true'] at hdu heu
        exact hlack.elim (hdpos hdu).not_ge (hepos heu).not_ge
      · cases hadd.symm.trans hx
    · exact mean_add hd he hadd
  · rcases hsum : uniformSum (α := ℚ) count faces with err | x
    · by_contra hroom
      obtain ⟨x, hx, -⟩ := exists_uniformSum_eq_ok hcount hfaces (not_lt.mp hroom)
      cases hsum.symm.trans hx
    · exact mean_uniformSum hcount hfaces hsum

/-- A loaded coin above a constant with a fraction, and twice its outcomes, which are whole; and
three dice. -/
theorem mean_operations_loaded_coin :
    (∃ x : Distribution ℚ, add ⟨1 / 2, #[5, 15]⟩ (certain 2) = .ok x ∧
        x.mean = .ok (certain (9 / 4 + 2))) ∧
      (∃ x : Distribution ℚ, times ⟨1 / 2, #[5, 15]⟩ (certain 2) = .ok x ∧
        x.mean = .ok (certain (9 / 4 * 2))) ∧
      ∃ x : Distribution ℚ, uniformSum 3 6 = .ok x ∧
        x.mean = .ok (certain ((3 : ℕ) * ((6 : ℕ) + 1) / 2)) := by
  have hcoin : mean (⟨1 / 2, #[5, 15]⟩ : Distribution ℚ) = .ok (certain (9 / 4)) := by cbv
  have htwo : mean (certain (2 : ℚ)) = .ok (certain 2) := rfl
  obtain ⟨hadd, htimes⟩ := mean_operations.1 _ _ _ _ hcoin htwo
  have hdice := mean_operations.2 3 6 (by decide) (by decide)
  have hwhole (v w : ℚ) (hv : probabilityAt ⟨1 / 2, #[5, 15]⟩ v ≠ 0)
      (hw : probabilityAt (certain 2) w ≠ 0) : ∃ n : ℤ, v * w = n := by
    obtain ⟨hc, -⟩ | ⟨-, i, hi, rfl⟩ := hasOutcome_of_probabilityAt hv
    · cases hc
    · obtain ⟨-, rfl⟩ | ⟨hc, -⟩ := hasOutcome_of_probabilityAt hw
      · refine ⟨2 * i + 3, ?_⟩
        rw [outcome_rat]
        simp only [certain]
        push_cast
        ring
      · cases hc
  refine ⟨?_, ?_, ?_⟩
  · cases hx : add (⟨1 / 2, #[5, 15]⟩ : Distribution ℚ) (certain 2) with
    | ok x => exact ⟨x, rfl, by rw [hx] at hadd; exact hadd⟩
    | error err => cases hx
  · have hok : ∃ x, times (⟨1 / 2, #[5, 15]⟩ : Distribution ℚ) (certain 2) = .ok x := ⟨_, by cbv⟩
    obtain ⟨x, hx⟩ := hok
    exact ⟨x, hx, htimes (.inr hwhole) x hx⟩
  · obtain ⟨x, hx, -⟩ := @exists_uniformSum_eq_ok 3 6 _ (by decide) (by decide) (by decide)
    rw [hx] at hdice
    exact ⟨x, hx, hdice⟩

end Distribution

end DiceOdds
