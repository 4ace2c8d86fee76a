import DiceOdds.Proofs.Sampling.Frequency

/-!
# Which slots can be drawn

A positive weight is not enough for a slot to be drawn, even in exact arithmetic. A split whose
first part has more than the share `1 - 2 ^ -32` has a threshold above the largest draw, so that no
draw chooses its second part. A slot with a positive weight can be drawn exactly if no split on the
way to it leaves it in a second part of so small a share (`exists_narrow_iff`), and that is so for
every slot that has one part in `2 ^ 32` of the whole table.
-/

namespace DiceOdds

open Arithmetic

variable {α : Type} [Arithmetic α]

/-! ## One draw more -/

/-- A roller that gives the draw `x` first and then what `r` gives. -/
def Roller.cons (x : UInt32) (r : Roller) : Roller :=
  ofStream fun n => n.casesOn x fun k => r.stream (r.taken + k)

namespace RunningSums

/-- What comes out after the draw that was put first is what comes out without it. -/
theorem narrow_fst_tail_cons (s : RunningSums α) (start stop : ℕ) (weight : α) (x : UInt32)
    (r : Roller) :
    (s.narrow start stop weight (Roller.cons x r).tail).1 = (s.narrow start stop weight r).1 := by
  have hr := s.narrow_fst_drop start stop weight r.stream r.taken 0
  have hcons := s.narrow_fst_drop start stop weight (Roller.cons x r).stream 1 0
  have hstream : (fun m => (Roller.cons x r).stream (1 + m)) = fun m => r.stream (r.taken + m) :=
    funext fun m => by rw [Nat.add_comm 1 m]; rfl
  rw [hstream] at hcons
  exact hcons.trans hr.symm

/-- A split leads to a slot exactly if the part that has the slot leads to it, and some draw
chooses that part. -/
theorem exists_narrow_iff_of_lt (s : RunningSums α) {start stop : ℕ} (weight : α)
    (hlt : start < stop) (i : ℕ) :
    (∃ r, (s.narrow start stop weight r).1 = i) ↔
      if i ≤ s.divider start stop weight then
        (∃ x : UInt32, ofNat x.toNat < threshold (s.firstWeight start stop weight) weight) ∧
          ∃ r, (s.narrow start (s.divider start stop weight)
            (s.firstWeight start stop weight) r).1 = i
      else
        (∃ x : UInt32, ¬ ofNat x.toNat < threshold (s.firstWeight start stop weight) weight) ∧
          ∃ r, (s.narrow (s.divider start stop weight + 1) stop
            (s.secondWeight start stop weight) r).1 = i := by
  have hfirst := s.narrow_mem start (s.divider start stop weight)
    (s.firstWeight start stop weight) (s.le_divider weight hlt)
  have hsecond := s.narrow_mem (s.divider start stop weight + 1) stop
    (s.secondWeight start stop weight) (s.divider_lt weight hlt)
  constructor
  · rintro ⟨r, hr⟩
    rw [s.narrow_of_lt weight hlt] at hr
    split at hr
    next hdraw =>
      have := (hfirst r.tail).2
      rw [if_pos (by omega)]
      exact ⟨⟨_, hdraw⟩, _, hr⟩
    next hdraw =>
      have := (hsecond r.tail).1
      rw [if_neg (by omega)]
      exact ⟨⟨_, hdraw⟩, _, hr⟩
  · split
    next hi =>
      rintro ⟨⟨x, hx⟩, r, hr⟩
      refine ⟨Roller.cons x r, ?_⟩
      rw [s.narrow_of_lt weight hlt, show (Roller.cons x r).head = x from rfl, if_pos hx,
        narrow_fst_tail_cons, hr]
    next hi =>
      rintro ⟨⟨x, hx⟩, r, hr⟩
      refine ⟨Roller.cons x r, ?_⟩
      rw [s.narrow_of_lt weight hlt, show (Roller.cons x r).head = x from rfl, if_neg hx,
        narrow_fst_tail_cons, hr]

end RunningSums

/-! ## Thresholds -/

/-- The least draw is below every threshold that is positive. -/
theorem exists_draw_lt_iff (t : ℚ) : (∃ x : UInt32, (x.toNat : ℚ) < t) ↔ 0 < t := by
  constructor
  · rintro ⟨x, hx⟩
    exact lt_of_le_of_lt (Nat.cast_nonneg _) hx
  · intro h
    exact ⟨0, by simpa using h⟩

/-- The largest draw is not below any threshold that does not exceed it. -/
theorem exists_draw_not_lt_iff (t : ℚ) :
    (∃ x : UInt32, ¬ (x.toNat : ℚ) < t) ↔ t ≤ 2 ^ 32 - 1 := by
  constructor
  · rintro ⟨x, hx⟩
    have hmax : (x.toNat : ℚ) + 1 ≤ 2 ^ 32 := by exact_mod_cast x.toNat_lt
    linarith [not_lt.mp hx]
  · intro h
    have hmax : ((0xffffffff : UInt32).toNat : ℚ) = 2 ^ 32 - 1 := by decide +kernel
    exact ⟨0xffffffff, not_lt.mpr (h.trans hmax.ge)⟩

namespace RunningSums

variable {s : RunningSums ℚ}

/-- The last slot of the first part of a split of these running sums. -/
def cut (s : RunningSums ℚ) (c : Split ℚ) : ℕ :=
  s.divider c.start c.stop (s.sectionWeight c.start c.stop)

/-- The cut of a section that has the weight at hand is at its divider. -/
theorem cut_split (s : RunningSums ℚ) {start stop : ℕ} {weight : ℚ}
    (hweight : weight = s.sectionWeight start stop) :
    s.cut (s.split start stop weight) = s.divider start stop weight := by
  rw [cut, hweight]
  rfl

/-- Some draw chooses the first part of a split if that weighs anything. -/
theorem exists_draw_lt_threshold_iff {first weight : ℚ} (hpos : 0 < weight) :
    (∃ x : UInt32, (ofNat x.toNat : ℚ) < threshold first weight) ↔ 0 < first := by
  refine (exists_draw_lt_iff _).trans ?_
  rw [threshold, ofNat_rat, mul_pos_iff_of_pos_right (by norm_num), div_pos_iff_of_pos_right hpos]

/-- Some draw chooses the second part of a split if the first has no more than the share of all
draws but one. -/
theorem exists_draw_not_lt_threshold_iff (first weight : ℚ) :
    (∃ x : UInt32, ¬ (ofNat x.toNat : ℚ) < threshold first weight) ↔
      first / weight ≤ 1 - 1 / 2 ^ 32 := by
  refine (exists_draw_not_lt_iff _).trans ?_
  rw [threshold, ofNat_rat, ← le_div_iff₀ (by norm_num)]
  norm_num

/-- A slot is reached from a section that weighs something exactly if it weighs something itself,
and no split on the way leaves it in a second part that no draw chooses. -/
theorem exists_narrow_iff (hmono : Monotone s.before) (i start stop : ℕ) (weight : ℚ)
    (hweight : weight = s.sectionWeight start stop) (hpos : 0 < weight) (hstart : start ≤ i)
    (hstop : i ≤ stop) :
    (∃ r, (s.narrow start stop weight r).1 = i) ↔
      0 < s.sectionWeight i i ∧
        ∀ c ∈ s.splitsTo start stop weight i, s.cut c < i → c.ratio ≤ 1 - 1 / 2 ^ 32 := by
  induction start, stop, weight using s.section_induction with
  | slot start stop weight hlt =>
    obtain rfl : start = i := by omega
    obtain rfl : start = stop := by omega
    rw [splitsTo, dif_neg hlt]
    refine iff_of_true ⟨Roller.ofStream fun _ => 0, ?_⟩ ⟨hweight ▸ hpos, by simp⟩
    rw [s.narrow_of_not_lt weight hlt]
  | cut start stop weight hlt ih₁ ih₂ =>
    have hsum := s.firstWeight_add_secondWeight start stop weight
    rw [← hweight] at hsum
    rw [s.exists_narrow_iff_of_lt weight hlt, splitsTo, dif_pos hlt, List.forall_mem_cons,
      s.cut_split hweight]
    by_cases hi : i ≤ s.divider start stop weight
    · rw [if_pos hi, if_pos hi, exists_draw_lt_threshold_iff hpos]
      have hslot : s.sectionWeight i i ≤ s.firstWeight start stop weight :=
        sectionWeight_le hmono hstart hi
      have hnonneg : 0 ≤ s.firstWeight start stop weight :=
        sectionWeight_nonneg hmono (s.le_divider weight hlt)
      obtain hfirst | hfirst := hnonneg.eq_or_lt
      · exact iff_of_false (fun h => h.1.ne hfirst) fun h => (h.1.trans_le hslot).ne hfirst
      · rw [and_iff_right hfirst, ih₁ rfl hfirst hstart hi,
          and_iff_right fun h : s.divider start stop weight < i => absurd h (by omega)]
    · rw [if_neg hi, if_neg hi, exists_draw_not_lt_threshold_iff]
      have hslot : s.sectionWeight i i ≤ s.secondWeight start stop weight :=
        sectionWeight_le hmono (by omega) hstop
      have hnonneg : 0 ≤ s.secondWeight start stop weight :=
        sectionWeight_nonneg hmono (s.divider_lt weight hlt)
      obtain hsecond | hsecond := hnonneg.eq_or_lt
      · refine iff_of_false (fun h => ?_) fun h => (h.1.trans_le hslot).ne hsecond
        -- The first part has the whole weight, so its share is 1.
        rw [← hsecond, add_zero] at hsum
        rw [hsum, div_self hpos.ne'] at h
        norm_num at h
      · rw [ih₂ rfl hsecond (by omega) hstop]
        have hpast : (s.divider start stop weight < i →
            (s.split start stop weight).ratio ≤ 1 - 1 / 2 ^ 32) ↔
            s.firstWeight start stop weight / weight ≤ 1 - 1 / 2 ^ 32 :=
          ⟨fun h => h (by omega), fun h _ => h⟩
        rw [hpast, and_left_comm]

/-- A slot that has one part in `2 ^ 32` of a section is never left in a second part that no draw
chooses. -/
theorem ratio_le_of_le_mul (hmono : Monotone s.before) (i start stop : ℕ) (weight : ℚ)
    (hweight : weight = s.sectionWeight start stop) (hpos : 0 < s.sectionWeight i i)
    (hle : weight ≤ s.sectionWeight i i * 2 ^ 32) (hstart : start ≤ i) (hstop : i ≤ stop) :
    ∀ c ∈ s.splitsTo start stop weight i, s.cut c < i → c.ratio ≤ 1 - 1 / 2 ^ 32 := by
  induction start, stop, weight using s.section_induction with
  | slot start stop weight hlt =>
    rw [splitsTo, dif_neg hlt]
    exact List.forall_mem_nil _
  | cut start stop weight hlt ih₁ ih₂ =>
    have hsum := s.firstWeight_add_secondWeight start stop weight
    rw [← hweight] at hsum
    rw [splitsTo, dif_pos hlt, List.forall_mem_cons,
      s.cut_split hweight]
    by_cases hi : i ≤ s.divider start stop weight
    · have hpart : s.firstWeight start stop weight ≤ weight :=
        (sectionWeight_le hmono le_rfl (s.divider_lt weight hlt).le).trans_eq hweight.symm
      rw [if_pos hi]
      exact ⟨fun h => absurd h (by omega), ih₁ rfl (hpart.trans hle) hstart hi⟩
    · have hpart : s.secondWeight start stop weight ≤ weight :=
        (sectionWeight_le hmono (Nat.le_succ_of_le (s.le_divider weight hlt)) le_rfl).trans_eq
          hweight.symm
      have hslot : s.sectionWeight i i ≤ s.secondWeight start stop weight :=
        sectionWeight_le hmono (by omega) hstop
      rw [if_neg hi]
      refine ⟨fun _ => ?_, ih₂ rfl (hpart.trans hle) (by omega) hstop⟩
      have hratio : (s.split start stop weight).ratio =
          s.firstWeight start stop weight / weight := rfl
      rw [hratio, div_le_iff₀ (by linarith)]
      linarith

end RunningSums

/-! ## Tables -/

/-- Whether some draws give slot `i` of a table. -/
def Drawable (weights : Array α) (i : ℕ) : Prop := ∃ r r', sampleIndex weights r = (.ok i, r')

/-- A slot of a table can be drawn if narrowing the whole table can lead to it. -/
theorem drawable_iff_exists_narrow {weights : Array ℚ} (hpos : 0 < Arithmetic.sum weights)
    (i : ℕ) : Drawable weights i ↔ ∃ r, ((RunningSums.ofWeights weights).narrow 0
      (weights.size - 1) (RunningSums.ofWeights weights).total r).1 = i := by
  have hpositive : isPositiveFinite (RunningSums.ofWeights weights).total = true := by
    rw [total_ofWeights_rat, isPositiveFinite_rat]
    exact decide_eq_true hpos
  refine exists_congr fun r => ?_
  rw [sampleIndex_of_isPositiveFinite hpositive]
  constructor
  · rintro ⟨r', h⟩
    exact Except.ok.inj (congrArg Prod.fst h)
  · intro h
    exact ⟨_, congrArg (fun k => (Except.ok k, _)) h⟩

/-- A slot can be drawn exactly if it has a positive weight and no split on the way to it leaves it
in a second part of a share below one draw of `2 ^ 32`. -/
theorem drawable_iff {weights : Array ℚ} (hweights : ∀ w ∈ weights, 0 ≤ w)
    (hpos : 0 < Arithmetic.sum weights) {i : ℕ} (hi : i < weights.size) :
    Drawable weights i ↔ 0 < weights[i] ∧ ∀ c ∈ splitsTo weights i,
      (RunningSums.ofWeights weights).cut c < i → c.ratio ≤ 1 - 1 / 2 ^ 32 := by
  have htotal := total_ofWeights_rat weights
  have hsection := sectionWeight_ofWeights weights (by omega)
  rw [drawable_iff_exists_narrow hpos, RunningSums.exists_narrow_iff
    (monotone_before_ofWeights hweights) i 0 (weights.size - 1) _ (htotal.trans hsection.symm)
    (htotal ▸ hpos) (Nat.zero_le _) (by omega), sectionWeight_ofWeights_self, slotWeight_of_lt hi]
  rfl

/-- Of a table with a positive weight and no negative ones, the slots that some draws give are
those with a positive weight that no split on the way leaves in a second part with a share below
one draw of `2 ^ 32`. A slot that has one part in `2 ^ 32` of the whole is always among them. -/
theorem exists_sampleIndex_eq_ok_iff (weights : Array ℚ) (hweights : ∀ w ∈ weights, 0 ≤ w)
    (hpos : 0 < Arithmetic.sum weights) (i : ℕ) (hi : i < weights.size) :
    ((∃ r r', sampleIndex weights r = (.ok i, r')) ↔
      0 < weights[i] ∧ ∀ c ∈ splitsTo weights i,
        (RunningSums.ofWeights weights).cut c < i → c.ratio ≤ 1 - 1 / 2 ^ 32) ∧
    (Arithmetic.sum weights ≤ weights[i] * 2 ^ 32 →
      ∃ r r', sampleIndex weights r = (.ok i, r')) := by
  refine ⟨drawable_iff hweights hpos hi, fun hle => ?_⟩
  have hslot : 0 < weights[i] := by
    by_contra h
    linarith [not_lt.mp h]
  have htotal := total_ofWeights_rat weights
  have hself := sectionWeight_ofWeights_self weights i
  rw [slotWeight_of_lt hi] at hself
  exact (drawable_iff hweights hpos hi).mpr ⟨hslot, RunningSums.ratio_le_of_le_mul
    (monotone_before_ofWeights hweights) i 0 (weights.size - 1) _
    (htotal.trans (sectionWeight_ofWeights weights (by omega)).symm) (hself ▸ hslot)
    (htotal.trans_le (hself ▸ hle)) (Nat.zero_le _) (by omega)⟩

/-- A slot with exactly one part in `2 ^ 32` of the whole can still be drawn, after all others. -/
theorem exists_sampleIndex_eq_ok_least :
    ∃ r r', sampleIndex (#[4294967295, 1] : Array ℚ) r = (.ok 1, r') :=
  (exists_sampleIndex_eq_ok_iff #[4294967295, 1] (by decide) (by decide +kernel) 1
    (by decide)).2 (by decide +kernel)

/-- Slot 1 of the weights `2 ^ 40` and 1 has a positive weight and cannot be drawn. -/
theorem not_forall_exists_sampleIndex :
    ¬ ∀ (weights : Array ℚ) (i : ℕ) (hi : i < weights.size), (∀ w ∈ weights, 0 ≤ w) →
      0 < Arithmetic.sum weights → 0 < weights[i] →
        ∃ r r', sampleIndex weights r = (.ok i, r') := by
  intro hall
  have hdrawn := hall #[1099511627776, 1] 1 (by decide) (by decide) (by decide +kernel)
    (by decide +kernel)
  have hsplits : splitsTo (#[1099511627776, 1] : Array ℚ) 1 =
      [⟨0, 1, 1099511627776 / 1099511627777⟩] := by cbv
  have hratio := ((drawable_iff (by decide) (by decide +kernel) (by decide)).mp hdrawn).2
  rw [hsplits] at hratio
  have h := hratio _ (List.mem_singleton.mpr rfl) (by decide +kernel)
  norm_num at h

end DiceOdds
