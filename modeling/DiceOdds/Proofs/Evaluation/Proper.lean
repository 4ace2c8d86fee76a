import DiceOdds.Proofs.Evaluation.Caps
import DiceOdds.Proofs.Evaluation.StaticCertainty
import DiceOdds.Proofs.Law.Nonneg
import DiceOdds.Proofs.Law.Reduction
import DiceOdds.Proofs.Sampling.Frequency
import DiceOdds.Proofs.Sampling.Weighing

/-!
# Proper distributions

A proper distribution has no outcome below 0, no negative weight, and something to weigh if it has
a table at all. In exact arithmetic every operation of an expression keeps distributions proper,
and proper distributions can be normalized, sampled and looked up without fail. What is left to go
wrong is that a table gets too large, and one thing more: the outcomes of a product lie in a table
above 0, where a product below 1 has no slot. For that one operand has to be a number below 1, and
it has to bring the smallest outcome of the other below 1 (`yields_times_of_proper`).
-/

namespace DiceOdds

open Arithmetic

/-- Whether an error is that of a table which is larger than memory. -/
def DistributionError.IsCapacity {α : Type} : DistributionError α → Prop
  | tableTooLarge _ | fault (.tableCapacity _) => True
  | zeroWeight _ | productOutOfRange _ _ | fault (.pastTable _ _) => False

/-- Whether an error is that of more dice or of a larger table than there may be. -/
def RollError.IsCapacity {α : Type} : RollError α → Prop
  | tooManyDice _ _ | tooManyOutcomes _ _ => True
  | distribution e => e.IsCapacity
  | invalidDice _ => False

namespace Distribution

variable {d e x : Distribution ℚ} [Memory]

/-- What every distribution of an evaluation has: besides weight and room in memory, neither
negative outcomes nor negative weights. -/
structure Proper (d : Distribution ℚ) : Prop extends d.Sound where
  /-- No outcome is negative. -/
  constant_nonneg : 0 ≤ d.constant
  /-- No weight is negative. -/
  weights_nonneg : NonnegWeights d.weights

/-- Whether `d` is a number below 1 that brings the smallest outcome of the table `e` below 1. -/
structure Shrinks (d e : Distribution ℚ) : Prop where
  /-- The one operand is a number. -/
  isCertain : d.isCertain = true
  /-- The other operand has a table. -/
  isUncertain : e.isCertain = false
  /-- The number is not 0, which has a product with every table. -/
  pos : 0 < d.constant
  /-- The number is below 1. -/
  lt_one : d.constant < 1
  /-- So is its product with the outcome of the first slot. -/
  mul_lt_one : d.constant * e.outcome 0 < 1

/-- A number that is not negative is proper. -/
theorem proper_certain {v : ℚ} (h : 0 ≤ v) : (certain v).Proper where
  toSound := sound_certain v
  constant_nonneg := h
  weights_nonneg := .empty

namespace Proper

/-! ## Outcomes -/

/-- The outcome of a slot of a proper distribution is at least 1. -/
theorem one_le_outcome (hd : d.Proper) (i : ℕ) : 1 ≤ d.outcome i := by
  rw [outcome_rat]
  have := hd.constant_nonneg
  have : (0 : ℚ) ≤ i := Nat.cast_nonneg i
  linarith

/-- No outcome of a proper distribution is negative. -/
theorem nonneg_of_hasOutcome (hd : d.Proper) {v : ℚ} (hv : d.HasOutcome v) : 0 ≤ v := by
  obtain ⟨-, rfl⟩ | ⟨-, i, -, rfl⟩ := hv
  · exact hd.constant_nonneg
  · exact zero_le_one.trans (hd.one_le_outcome i)

/-- A proper table can be normalized. -/
theorem normalizer (hd : d.Proper) (hcertain : d.isCertain = false) :
    d.normalizer = .ok d.totalWeight :=
  normalizer_eq_ok_iff.mpr ⟨hd.weight hcertain, rfl⟩

/-- So can its outcomes. -/
theorem exists_normalizedOutcomes (hd : d.Proper) :
    ∃ entries, d.normalizedOutcomes = .ok entries ∧
      ∀ a ∈ entries, d.HasOutcome a.1 ∧ 0 ≤ a.2 := by
  have hyields := yields_normalizedOutcomes_of_nonneg hd.weights_nonneg
  rcases h : d.normalizedOutcomes with err | entries
  · rw [h] at hyields
    exact absurd hyields.2.1 (hd.weight hyields.1).ne'
  · rw [h] at hyields
    exact ⟨entries, rfl, hyields⟩

/-! ## Sums and dice -/

/-- A sum of proper distributions is proper, if there is room for it. -/
theorem yields_add (hd : d.Proper) (he : e.Proper) :
    (d.add e).Yields Proper DistributionError.IsCapacity := by
  rcases h : d.add e with err | x
  · obtain ⟨-, hadd⟩ | ⟨-, -, hadd⟩ | ⟨hdc, hec, hadd⟩ := add_cases d e
    · cases hadd.symm.trans h
    · cases hadd.symm.trans h
    · rw [hadd, hd.normalizer hdc, he.normalizer hec] at h
      simp only [bind, Except.bind] at h
      split at h
      · rw [← Except.error.inj h]
        trivial
      · cases h
  · have hconstant : x.constant = d.constant + e.constant := by
      obtain ⟨-, -, -, -, -, rfl⟩ | ⟨-, rfl⟩ | ⟨-, -, rfl⟩ := add_eq_ok h
      · rfl
      · rfl
      · rfl
    refine ⟨sound_add hd.toSound he.toSound h, ?_,
      nonneg_add hd.weights_nonneg he.weights_nonneg h⟩
    rw [hconstant]
    exact add_nonneg hd.constant_nonneg he.constant_nonneg

/-- Copies of a proper die keep some dice proper. -/
theorem yields_addCopies {die : Distribution ℚ} (hdie : die.Proper) (n : ℕ) (hd : d.Proper) :
    (addCopies die n d).Yields Proper DistributionError.IsCapacity := by
  induction n generalizing d with
  | zero => exact hd
  | succ n ih => exact (hd.yields_add hdie).bind fun y hy => ih hy

end Proper

/-- The table of one die is proper. -/
theorem yields_flat_one (faces : ℕ) :
    (flat faces (ofNat 1) (ofNat 0) : Except (DistributionError ℚ) (Distribution ℚ)).Yields Proper
      DistributionError.IsCapacity := by
  rcases h : (flat faces (ofNat 1) (ofNat 0) : Except (DistributionError ℚ) (Distribution ℚ))
    with err | die
  · unfold flat at h
    split at h
    · rw [← Except.error.inj h]
      trivial
    · cases h
  · obtain ⟨hcap, rfl⟩ := flat_eq_ok h
    rw [ofNat_rat, ofNat_rat, Nat.cast_one, Nat.cast_zero]
    refine ⟨⟨fun hcertain => ?_, ?_⟩, le_rfl, .replicate faces zero_le_one⟩
    · rw [totalWeight_replicate_one, Nat.cast_pos]
      refine Nat.pos_of_ne_zero fun hzero => ?_
      rw [hzero] at hcertain
      cases hcertain
    · rw [size, Array.size_replicate]
      exact hcap

/-- The table of some dice is proper. -/
theorem yields_uniformSum (count faces : ℕ) :
    (uniformSum count faces : Except (DistributionError ℚ) (Distribution ℚ)).Yields Proper
      DistributionError.IsCapacity := by
  unfold uniformSum
  split
  · exact proper_certain le_rfl
  split
  · trivial
  · exact (yields_flat_one faces).bind fun die hdie => hdie.yields_addCopies _ hdie

/-- A product of sound distributions is sound. -/
theorem sound_times (hd : d.Sound) (he : e.Sound) (h : d.times e = .ok x) : x.Sound := by
  obtain ⟨-, -, rfl⟩ | ⟨-, -, rfl⟩ | ⟨-, -, -, hsound, -⟩ := times_eq_ok hd.weight he.weight h
  · exact sound_certain _
  · exact sound_certain _
  · exact hsound

namespace Proper

/-! ## Products -/

/-- A product of two outcomes that is at least 1 has a slot. -/
theorem productSlot?_ne_none (hd : d.Proper) (he : e.Proper)
    (hbound : d.productBound e < (wordMax : ℚ)) {v w : ℚ} (hv : d.HasOutcome v)
    (hw : e.HasOutcome w) (hone : 1 ≤ v * w) : productSlot? (d.productSize e) (v * w) ≠ none := by
  have hvmax : v ≤ d.largestOutcome := d.isGreatest_largestOutcome.2 hv
  have hle : v * w ≤ d.largestOutcome * e.largestOutcome :=
    mul_le_mul hvmax (e.isGreatest_largestOutcome.2 hw) (he.nonneg_of_hasOutcome hw)
      ((hd.nonneg_of_hasOutcome hv).trans hvmax)
  rw [productSlot?_ne_none_iff, productSize_cast hbound, productBound_rat,
    trunc_of_nonneg (zero_le_one.trans hone), trunc_of_nonneg (zero_le_one.trans (hone.trans hle))]
  have hfloor : 1 ≤ ⌊v * w⌋ := Int.le_floor.mpr (by exact_mod_cast hone)
  refine ⟨by exact_mod_cast hfloor, le_max_of_le_right ?_⟩
  exact_mod_cast Int.floor_le_floor hle

/-- A number other than 0 that has a product below 1 with an outcome of a table shrinks it. -/
theorem shrinks_of_constant_mul_lt_one (hd : d.Proper) (he : e.Proper)
    (hdc : d.isCertain = true) (hec : e.isCertain = false) (hzero : d.constant ≠ 0) {i : ℕ}
    (hlt : d.constant * e.outcome i < 1) : d.Shrinks e := by
  have hpos : 0 < d.constant := lt_of_le_of_ne hd.constant_nonneg (Ne.symm hzero)
  have hfirst : e.outcome 0 ≤ e.outcome i := by
    rw [outcome_rat, outcome_rat, Nat.cast_zero]
    have : (0 : ℚ) ≤ i := Nat.cast_nonneg i
    linarith
  have hmul : d.constant * e.outcome 0 < 1 :=
    (mul_le_mul_of_nonneg_left hfirst hpos.le).trans_lt hlt
  have hone : d.constant < 1 :=
    (le_mul_of_one_le_right hpos.le (he.one_le_outcome 0)).trans_lt hmul
  exact ⟨hdc, hec, hpos, hone, hmul⟩

/-- If two outcomes have a product below 1, one of them is a number that shrinks the other. -/
theorem shrinks_of_mul_lt_one (hd : d.Proper) (he : e.Proper)
    (hboth : (d.isCertain && e.isCertain) = false)
    (hzero : ((d.isCertain && d.constant == 0) || (e.isCertain && e.constant == 0)) = false)
    {v w : ℚ} (hv : d.HasOutcome v) (hw : e.HasOutcome w) (hlt : v * w < 1) :
    d.Shrinks e ∨ e.Shrinks d := by
  obtain ⟨hdc, rfl⟩ | ⟨hdc, i, -, rfl⟩ := hv
  · obtain ⟨hec, rfl⟩ | ⟨hec, j, -, rfl⟩ := hw
    · rw [hdc, hec] at hboth
      cases hboth
    · have hne : d.constant ≠ 0 := by simpa [hdc, hec] using hzero
      exact .inl (hd.shrinks_of_constant_mul_lt_one he hdc hec hne hlt)
  · obtain ⟨hec, rfl⟩ | ⟨hec, j, -, rfl⟩ := hw
    · have hne : e.constant ≠ 0 := by simpa [hdc, hec] using hzero
      rw [mul_comm] at hlt
      exact .inr (he.shrinks_of_constant_mul_lt_one hd hec hdc hne hlt)
    · -- Two tables have no outcomes below 1.
      have hone := one_le_mul_of_one_le_of_one_le (hd.one_le_outcome i) (he.one_le_outcome j)
      exact absurd hlt (not_lt.mpr hone)

/-- A product of proper distributions is proper, if there is room for it and neither operand
shrinks the other. -/
theorem yields_times (hd : d.Proper) (he : e.Proper) :
    (d.times e).Yields Proper fun err => err.IsCapacity ∨
      (∃ v n, err = .productOutOfRange v n) ∧ (d.Shrinks e ∨ e.Shrinks d) := by
  obtain ⟨-, -, htimes⟩ | ⟨-, -, htimes⟩ | ⟨hboth, hzero, ⟨-, n, htimes⟩ | ⟨hbound, -, htimes⟩⟩ :=
    times_cases d e
  · rw [htimes]
    exact proper_certain (mul_nonneg hd.constant_nonneg he.constant_nonneg)
  · rw [htimes]
    exact proper_certain le_rfl
  · rw [htimes]
    exact .inl trivial
  -- Both operands can be normalized, so an error is that of a pair of outcomes.
  obtain ⟨right, hright, hrightEntries⟩ := he.exists_normalizedOutcomes
  obtain ⟨left, hleft, hleftEntries⟩ := hd.exists_normalizedOutcomes
  rw [hright, hleft] at htimes
  have htable := yields_productTable_of_nonneg (d.productSize e)
    (fun a ha => (hleftEntries a ha).2) fun b hb => (hrightEntries b hb).2
  rcases hrun : productTable (d.productSize e) left right with err | table
  · rw [hrun] at htable
    obtain ⟨a, ha, b, hb, hnone, rfl⟩ := htable
    have hout := (hleftEntries a ha).1
    have hout' := (hrightEntries b hb).1
    have hlt : a.1 * b.1 < 1 := not_le.mp fun hone =>
      hd.productSlot?_ne_none he hbound hout hout' hone hnone
    have herr : d.times e = .error (.productOutOfRange (a.1 * b.1) (d.productSize e)) := by
      rw [htimes]
      simp only [hrun, bind, Except.bind]
    rw [herr]
    exact .inr ⟨⟨_, _, rfl⟩, hd.shrinks_of_mul_lt_one he hboth hzero hout hout' hlt⟩
  · rw [hrun] at htable
    have hok : d.times e = .ok ⟨0, table⟩ := by
      rw [htimes]
      simp only [hrun, bind, Except.bind]
      rfl
    rw [hok]
    exact ⟨sound_times hd.toSound he.toSound hok, le_rfl, htable⟩

/-! ## Numbers read off a table -/

/-- A proper distribution has a mean, which is proper. -/
theorem exists_mean (hd : d.Proper) : ∃ x, d.mean = .ok x ∧ x.Proper := by
  cases hcertain : d.isCertain with
  | true =>
    refine ⟨d, ?_, hd⟩
    unfold mean
    rw [hcertain]
    rfl
  | false =>
    refine ⟨certain (d.weightedSum / d.totalWeight), ?_, proper_certain ?_⟩
    · unfold mean
      rw [hcertain, hd.normalizer hcertain]
      rfl
    · rw [weightedSum_eq_sum]
      refine div_nonneg (Finset.sum_nonneg fun i _ => ?_) (totalWeight_nonneg hd.weights_nonneg)
      exact mul_nonneg (zero_le_one.trans (hd.one_le_outcome i))
        (hd.weights_nonneg.slotWeight_nonneg i)

/-- A proper distribution gives every value a probability. -/
theorem exists_probabilityOf (hd : d.Proper) (v : ℚ) :
    ∃ p, d.probabilityOf v = .ok p ∧ 0 ≤ p := by
  cases hcertain : d.isCertain with
  | true =>
    unfold probabilityOf
    rw [hcertain, if_pos rfl]
    refine ⟨_, rfl, ?_⟩
    split
    · exact Nat.cast_nonneg 1
    · exact le_rfl
  | false =>
    simp only [probabilityOf_of_isUncertain hcertain, ofNat_rat, Nat.cast_zero, lookup_checks_iff]
    by_cases hslot : ∃ i < d.size, d.outcome i = v
    · rw [if_pos hslot]
      obtain ⟨i, hi, rfl⟩ := hslot
      have hget : d.weightAt i = .ok (slotWeight d.weights i) := by
        rw [slotWeight_of_lt hi, weightAt, Array.getElem?_eq_getElem hi]
      rw [hd.normalizer hcertain, toWord_outcome hd.size_le hi]
      refine ⟨d.share i, ?_, div_nonneg (hd.weights_nonneg.slotWeight_nonneg i)
        (totalWeight_nonneg hd.weights_nonneg)⟩
      show Except.map _ (d.weightAt i) = _
      rw [hget]
      rfl
    · rw [if_neg hslot]
      exact ⟨0, rfl, le_rfl⟩

end Proper

/-! ## Draws -/

omit [Memory] in
/-- Where there is weight and none of it is negative, sampling gives the outcome of a slot that
weighs something. -/
theorem exists_resolve (hcertain : d.isCertain = false) (hweights : NonnegWeights d.weights)
    (htotal : 0 < d.totalWeight) (r : Roller) : ∃ i < d.size, ∃ r',
      d.resolve r = (.ok (d.outcome i), r') ∧ 0 < slotWeight d.weights i := by
  have hpos : isPositiveFinite (RunningSums.ofWeights d.weights).total = true := by
    rw [total_ofWeights_rat, isPositiveFinite_rat]
    exact decide_eq_true htotal
  obtain ⟨i, hi, n, -, hindex, hweight⟩ := weighing_rat.sampleIndex_eq_ok
    (fun w hw => ⟨rfl, hweights w hw⟩) hpos r
  have hsample : d.sample r = (.ok (d.outcome i), { r with taken := r.taken + n }) := by
    unfold sample
    rw [hcertain, if_neg Bool.false_ne_true]
    exact Rolling.bind_eq_ok.mpr ⟨i, _, hindex, rfl⟩
  refine ⟨i, hi, { r with taken := r.taken + n }, ?_, ?_⟩
  · unfold resolve Rolling.mapError
    rw [hsample]
    rfl
  · rw [slotWeight_of_lt hi]
    exact hweight

namespace Proper

/-- A proper distribution resolves to a number that is not negative. -/
theorem exists_resolve (hd : d.Proper) (r : Roller) :
    ∃ v r', d.resolve r = (.ok v, r') ∧ 0 ≤ v := by
  cases hcertain : d.isCertain with
  | true => exact ⟨d.constant, r, resolve_of_isCertain hcertain r, hd.constant_nonneg⟩
  | false =>
    obtain ⟨i, -, r', hrun, -⟩ :=
      Distribution.exists_resolve hcertain hd.weights_nonneg (hd.weight hcertain) r
    exact ⟨_, r', hrun, zero_le_one.trans (hd.one_le_outcome i)⟩

/-- A proper distribution can be rolled. -/
theorem exists_roll (hd : d.Proper) (r : Roller) : ∃ x r', d.roll r = (.ok x, r') ∧ x.Proper := by
  cases hcertain : d.isCertain with
  | true => exact ⟨d, r, roll_of_isCertain hcertain r, hd⟩
  | false =>
    obtain ⟨v, r', hrun, hv⟩ := hd.exists_resolve r
    refine ⟨certain v, r', ?_, proper_certain hv⟩
    simp only [roll, hcertain, Bool.false_eq_true, if_false]
    exact Rolling.bind_eq_ok.mpr ⟨v, r', hrun, rfl⟩

/-- A proper distribution gives a probability to what another resolves to. -/
theorem exists_prob {target : Distribution ℚ} (htarget : target.Proper) (hd : d.Proper)
    (r : Roller) : ∃ x r', target.prob d r = (.ok x, r') ∧ x.Proper := by
  obtain ⟨v, r', hrun, -⟩ := htarget.exists_resolve r
  obtain ⟨p, hp, hnonneg⟩ := hd.exists_probabilityOf v
  refine ⟨certain p, r', Rolling.bind_eq_ok.mpr ⟨v, r', hrun, ?_⟩, proper_certain hnonneg⟩
  exact Rolling.bind_eq_ok.mpr ⟨p, r', Rolling.ofExcept_eq_ok.mpr ⟨by rw [hp]; rfl, rfl⟩, rfl⟩

/-- A proper distribution resolves to a number of dice. -/
theorem exists_diceCount (hd : d.Proper) (r : Roller) : ∃ n r', d.diceCount r = (.ok n, r') := by
  obtain ⟨v, r', hrun, hv⟩ := hd.exists_resolve r
  have hround : (ofNat 0 : ℚ) ≤ roundHalfAway v := by
    rw [roundHalfAway_rat, ofNat_rat, Nat.cast_zero, nearestInt, if_pos hv]
    exact_mod_cast Int.floor_nonneg.mpr (by linarith)
  refine ⟨toWord (roundHalfAway v), r', Rolling.bind_eq_ok.mpr ⟨v, r', hrun, ?_⟩⟩
  simp only [hround, decide_true, isFinite_rat, Bool.and_self, if_true]
  rfl

end Proper

end Distribution

/-! ## Operators -/

open DiceOdds.Distribution

namespace Limits

variable (limits : Limits)

/-- An error of building a table that is larger than memory is one of too large a table. -/
theorem isCapacity_tableError {α : Type} {err : DistributionError α} (h : err.IsCapacity) :
    (limits.tableError err).IsCapacity := by
  cases err with
  | tableTooLarge => trivial
  | zeroWeight => exact h
  | productOutOfRange => exact h
  | fault => exact h

variable [Memory]

/-- Some dice are proper, if there is room for them. -/
theorem yields_diceTable_proper (count faces : ℕ) :
    (limits.diceTable count faces : Except (RollError ℚ) (Distribution ℚ)).Yields Proper
      RollError.IsCapacity := by
  obtain ⟨-, h⟩ | ⟨-, h⟩ | ⟨-, m, h | h⟩ := limits.diceTable_cases (α := ℚ) count faces
  · rw [h]
    exact proper_certain le_rfl
  · rw [h]
    exact (yields_uniformSum count faces).mapError fun _ => limits.isCapacity_tableError
  · rw [h]
    trivial
  · rw [h]
    trivial

/-- A product of proper distributions is proper, if there is room for it and neither operand
shrinks the other. -/
theorem yields_times_proper {d e : Distribution ℚ} (hd : d.Proper) (he : e.Proper) :
    (limits.times d e).Yields Proper fun err => err.IsCapacity ∨
      (∃ v n, err = .distribution (.productOutOfRange v n)) ∧ (d.Shrinks e ∨ e.Shrinks d) := by
  obtain ⟨h, -⟩ | ⟨m, h⟩ := limits.times_cases d e
  · rw [h]
    refine (hd.yields_times he).mapError ?_
    rintro err (hcap | ⟨⟨v, n, rfl⟩, hshrinks⟩)
    · exact .inl (limits.isCapacity_tableError hcap)
    · exact .inr ⟨⟨v, n, rfl⟩, hshrinks⟩
  · rw [h]
    exact .inl trivial

/-- As many dice as a proper distribution resolves to are proper, if there is room for them. -/
theorem yields_dice_proper {d e : Distribution ℚ} (hd : d.Proper) (he : e.Proper) :
    Rolling.Yields Proper RollError.IsCapacity (limits.dice d e) := by
  intro r
  obtain ⟨count, s, hcount⟩ := hd.exists_diceCount r
  obtain ⟨faces, s', hfaces⟩ := he.exists_diceCount s
  have hrun : limits.dice d e r = (limits.diceTable count faces, s') := by
    unfold dice
    rw [Rolling.bind_apply, hcount]
    dsimp only
    rw [Rolling.bind_apply, hfaces]
    rfl
  rw [hrun]
  exact limits.yields_diceTable_proper count faces

/-- An operator makes a proper distribution of proper ones, if there is room for it, and it is no
product of which one operand shrinks the other. -/
theorem yields_operate_proper (op : Operator) {d e : Distribution ℚ} (hd : d.Proper)
    (he : e.Proper) :
    Rolling.Yields Proper (fun err => err.IsCapacity ∨ op = .times ∧
      (∃ v n, err = .distribution (.productOutOfRange v n)) ∧ (d.Shrinks e ∨ e.Shrinks d))
      (limits.operate op d e) := by
  cases op with
  | plus => exact Rolling.yields_ofExcept ((hd.yields_add he).mapError fun err hcap => .inl hcap)
  | times =>
    exact Rolling.yields_ofExcept ((limits.yields_times_proper hd he).mono_error fun err herr =>
      herr.imp_right fun hrange => ⟨rfl, hrange⟩)
  | dice => exact fun r => (limits.yields_dice_proper hd he r).mono_error fun err hcap => .inl hcap

end Limits

end DiceOdds
