import Mathlib
import DiceOdds.Proofs.Law.Table
import DiceOdds.Proofs.Sampling.Splits

/-!
# How often a slot is drawn

Over exact arithmetic the draws that take a bisection to slot `i` are counted: of all sequences of
draws, a fraction close to the share of the slot in the weight of the table leads there. A split
whose first part has the share `p` is decided by one draw, and of the `2 ^ 32` draws the fraction
`drawShare (p * 2 ^ 32)` goes to the first part; that is `p` rounded up to a multiple of `2 ^ -32`.
The fractions multiply along the way to a slot, and their errors add up to the bound.
-/

namespace DiceOdds

/-! ## Counting sequences of draws -/

/-- The fraction of all sequences of `n` draws of which `p` holds. -/
noncomputable def frequency (n : ℕ) (p : (Fin n → UInt32) → Prop) : ℚ :=
  Nat.card {f // p f} / (2 ^ 32) ^ n

/-- The fraction of all draws that lie below `t`. -/
noncomputable def drawShare (t : ℚ) : ℚ := Nat.card {x : UInt32 // (x.toNat : ℚ) < t} / 2 ^ 32

/-- The draws are the numbers below `2 ^ 32`. -/
def drawEquiv : UInt32 ≃ Fin (2 ^ 32) where
  toFun x := x.toFin
  invFun k := UInt32.ofFin k
  left_inv _ := rfl
  right_inv _ := rfl

instance finiteDraws : Finite UInt32 := Finite.of_equiv _ drawEquiv.symm

/-- There are `2 ^ 32` draws. -/
theorem card_draws : Nat.card UInt32 = 2 ^ 32 := by
  rw [Nat.card_congr drawEquiv, Nat.card_eq_fintype_card, Fintype.card_fin]

/-- There are `(2 ^ 32) ^ n` sequences of `n` draws. -/
theorem card_sequences (n : ℕ) : Nat.card (Fin n → UInt32) = (2 ^ 32) ^ n := by
  rw [Nat.card_fun, card_draws, Nat.card_eq_fintype_card, Fintype.card_fin]

/-- What holds of all sequences holds of the fraction 1. -/
theorem frequency_of_forall {n : ℕ} {p : (Fin n → UInt32) → Prop} (h : ∀ f, p f) :
    frequency n p = 1 := by
  unfold frequency
  rw [Nat.card_congr (Equiv.subtypeUnivEquiv h), card_sequences]
  push_cast
  exact div_self (by positivity)

/-- A property of the first draw and one of the others are independent. -/
theorem frequency_cons {n : ℕ} {p : (Fin (n + 1) → UInt32) → Prop} {a : UInt32 → Prop}
    {q : (Fin n → UInt32) → Prop} (h : ∀ x g, p (Fin.cons x g) ↔ a x ∧ q g) :
    frequency (n + 1) p = Nat.card {x // a x} / 2 ^ 32 * frequency n q := by
  have hcard : Nat.card {f // p f} = Nat.card {x // a x} * Nat.card {g // q g} := by
    rw [← Nat.card_prod, ← Nat.card_congr Equiv.subtypeProdEquivProd]
    refine Nat.card_congr (Equiv.subtypeEquiv (Fin.consEquiv fun _ => UInt32) fun c => ?_).symm
    exact (h c.1 c.2).symm
  unfold frequency
  rw [hcard, pow_succ]
  push_cast
  field_simp

/-- As many draws lie below `t` as whole numbers do. -/
theorem card_below {t : ℚ} (h : t ≤ 2 ^ 32) :
    Nat.card {x : UInt32 // (x.toNat : ℚ) < t} = ⌈t⌉₊ := by
  have hceil : ⌈t⌉₊ ≤ 2 ^ 32 := by
    rw [Nat.ceil_le]
    exact_mod_cast h
  -- No number below the bound is too large for a draw, so each is one.
  have hequiv : {x : UInt32 // (x.toNat : ℚ) < t} ≃ Fin ⌈t⌉₊ :=
    { toFun := fun x => ⟨x.1.toNat, Nat.lt_ceil.2 x.2⟩
      invFun := fun k => ⟨UInt32.ofNat k, by
        rw [UInt32.toNat_ofNat_of_lt' (by simpa [UInt32.size] using k.2.trans_le hceil)]
        exact Nat.lt_ceil.1 k.2⟩
      left_inv := fun x => by simp
      right_inv := fun k => by
        ext
        simpa [UInt32.size] using k.2.trans_le hceil }
  rw [Nat.card_congr hequiv, Nat.card_eq_fintype_card, Fintype.card_fin]

/-- The draws that do not lie below `t` are the others. -/
theorem card_not_below (t : ℚ) :
    (Nat.card {x : UInt32 // ¬ (x.toNat : ℚ) < t} : ℚ) / 2 ^ 32 = 1 - drawShare t := by
  have hsum := Nat.card_congr (Equiv.sumCompl fun x : UInt32 => (x.toNat : ℚ) < t)
  rw [Nat.card_sum, card_draws] at hsum
  have hcast : (Nat.card {x : UInt32 // (x.toNat : ℚ) < t} : ℚ) +
      Nat.card {x : UInt32 // ¬ (x.toNat : ℚ) < t} = 2 ^ 32 := by exact_mod_cast hsum
  unfold drawShare
  rw [eq_sub_iff_add_eq, ← add_div, add_comm, hcast, div_self (by norm_num)]

/-! ## What one split does to a share -/

/-- How far the fraction of the draws that go to the first part of a split is from the share of that
part. -/
noncomputable def Split.error (c : Split ℚ) : ℚ := |drawShare (c.ratio * 2 ^ 32) - c.ratio|

/-- The fraction of the draws below a share of them is that share rounded up. -/
theorem drawShare_mul {p : ℚ} (hp : p ≤ 1) : drawShare (p * 2 ^ 32) = ⌈p * 2 ^ 32⌉₊ / 2 ^ 32 := by
  unfold drawShare
  rw [card_below (by linarith)]

/-- A fraction of the draws is not negative. -/
theorem drawShare_nonneg (t : ℚ) : 0 ≤ drawShare t := by
  unfold drawShare
  positivity

/-- A fraction of the draws is at most 1. -/
theorem drawShare_le_one (t : ℚ) : drawShare t ≤ 1 := by
  have h : 0 ≤ 1 - drawShare t := by
    rw [← card_not_below]
    positivity
  linarith

/-- A split errs by less than one draw. -/
theorem Split.error_le {c : Split ℚ} (h0 : 0 ≤ c.ratio) (h1 : c.ratio ≤ 1) :
    c.error ≤ 1 / 2 ^ 32 := by
  unfold error
  rw [drawShare_mul h1]
  have hlo := Nat.le_ceil (c.ratio * 2 ^ 32)
  have hhi := Nat.ceil_lt_add_one (by positivity : 0 ≤ c.ratio * 2 ^ 32)
  have hscale : (2 : ℚ) ^ 32 = 4294967296 := by norm_num
  rw [hscale] at hlo hhi ⊢
  rw [abs_le]
  constructor <;> linarith

/-- A split whose share is a whole number of draws does not err. -/
theorem Split.error_eq_zero {c : Split ℚ} (h0 : 0 ≤ c.ratio) (h1 : c.ratio ≤ 1) {k : ℤ}
    (hk : c.ratio * 2 ^ 32 = k) : c.error = 0 := by
  unfold error
  have hk0 : 0 ≤ k := by
    have h : (0 : ℚ) ≤ k := by
      rw [← hk]
      positivity
    exact_mod_cast h
  obtain ⟨n, rfl⟩ := Int.eq_ofNat_of_zero_le hk0
  rw [Int.cast_natCast] at hk
  rw [drawShare_mul h1, hk, Nat.ceil_natCast, ← hk, mul_div_cancel_right₀ _ (by norm_num), sub_self,
    abs_zero]

/-! ## Sections of a table -/

namespace RunningSums

variable {s : RunningSums ℚ}

/-- A part of a section weighs no more than the section, if no slot has a negative weight. -/
theorem sectionWeight_le (hmono : Monotone s.before) {start stop first last : ℕ}
    (hstart : start ≤ first) (hstop : last ≤ stop) :
    s.sectionWeight first last ≤ s.sectionWeight start stop :=
  sub_le_sub (hmono (by omega)) (hmono hstart)

/-- A section does not weigh less than nothing. -/
theorem sectionWeight_nonneg (hmono : Monotone s.before) {start stop : ℕ} (h : start ≤ stop) :
    0 ≤ s.sectionWeight start stop :=
  sub_nonneg.2 (hmono (by omega))

/-- The two parts of a section weigh together what the section weighs. -/
theorem firstWeight_add_secondWeight (start stop : ℕ) (weight : ℚ) :
    s.firstWeight start stop weight + s.secondWeight start stop weight =
      s.sectionWeight start stop := by
  unfold firstWeight secondWeight sectionWeight
  ring

end RunningSums

/-- The draws of `f`, and then those of `rest`. -/
def Roller.ofDraws {n : ℕ} (f : Fin n → UInt32) (rest : ℕ → UInt32) : Roller :=
  ofStream fun k => if h : k < n then f ⟨k, h⟩ else rest (k - n)

/-- The first of the draws. -/
theorem Roller.head_ofDraws {n : ℕ} (x : UInt32) (g : Fin n → UInt32) (rest : ℕ → UInt32) :
    (Roller.ofDraws (Fin.cons x g : Fin (n + 1) → UInt32) rest).head = x := rfl

/-- What comes out after the first draw is what comes out of the other draws. -/
theorem RunningSums.narrow_tail_ofDraws (s : RunningSums ℚ) (start stop : ℕ) (weight : ℚ) {n : ℕ}
    (x : UInt32) (g : Fin n → UInt32) (rest : ℕ → UInt32) :
    (s.narrow start stop weight
      (Roller.ofDraws (Fin.cons x g : Fin (n + 1) → UInt32) rest).tail).1 =
      (s.narrow start stop weight (Roller.ofDraws g rest)).1 := by
  have h := s.narrow_fst_drop start stop weight
    (Roller.ofDraws (Fin.cons x g : Fin (n + 1) → UInt32) rest).stream 1 0
  refine h.trans (congrArg (fun r => (s.narrow start stop weight r).1) ?_)
  unfold Roller.ofDraws Roller.ofStream
  rw [Roller.mk.injEq]
  refine ⟨funext fun m => ?_, rfl⟩
  by_cases hm : m < n
  · simp only
    rw [dif_pos (by omega), dif_pos hm]
    have hsucc : (⟨1 + m, by omega⟩ : Fin (n + 1)) = Fin.succ ⟨m, hm⟩ := Fin.ext (by simp; omega)
    rw [hsucc, Fin.cons_succ]
  · simp only
    rw [dif_neg (by omega), dif_neg hm]
    congr 1
    omega

/-- The errors of splits do not add up to less than nothing. -/
theorem Split.sum_error_nonneg (splits : List (Split ℚ)) : 0 ≤ (splits.map error).sum := by
  refine List.sum_nonneg fun e he => ?_
  obtain ⟨c, -, rfl⟩ := List.mem_map.1 he
  exact abs_nonneg _

/-- A part of a section is drawn with the fraction `q`, and then a slot in it with the fraction `f`.
The error that this makes is at most that of `q` and that of `f` together. A part without weight has
to be drawn never, and then nothing is asked of `f`. -/
theorem abs_mul_sub_div_le {q f slot part weight e : ℚ} (hweight : 0 < weight) (hslot : 0 ≤ slot)
    (hpart : slot ≤ part) (hq0 : 0 ≤ q) (hq1 : q ≤ 1) (hzero : part = 0 → q = 0) (he : 0 ≤ e)
    (hf : 0 < part → |f - slot / part| ≤ e) :
    |q * f - slot / weight| ≤ |q - part / weight| + e := by
  rcases (hslot.trans hpart).eq_or_lt with hpart0 | hpos
  · have hslot0 : slot = 0 := by linarith
    rw [hzero hpart0.symm, hslot0, zero_mul, zero_div, sub_zero, abs_zero]
    positivity
  · have hshare0 : 0 ≤ slot / part := by positivity
    have hshare1 : slot / part ≤ 1 := (div_le_one hpos).2 hpart
    have hsplit : q * f - slot / weight =
        q * (f - slot / part) + (q - part / weight) * (slot / part) := by
      field_simp
      ring
    calc |q * f - slot / weight|
        ≤ |q * (f - slot / part)| + |(q - part / weight) * (slot / part)| := by
          rw [hsplit]
          exact abs_add_le _ _
      _ = q * |f - slot / part| + |q - part / weight| * (slot / part) := by
          rw [abs_mul, abs_mul, abs_of_nonneg hq0, abs_of_nonneg hshare0]
      _ ≤ 1 * e + |q - part / weight| * 1 := by
          gcongr
          exact hf hpos
      _ = |q - part / weight| + e := by ring

namespace RunningSums

/-- What comes out of a split is what comes out of the part that the first draw chooses. -/
theorem narrow_ofDraws_cons (s : RunningSums ℚ) {start stop : ℕ} (weight : ℚ) (h : start < stop)
    {n : ℕ} (x : UInt32) (g : Fin n → UInt32) (rest : ℕ → UInt32) :
    (s.narrow start stop weight
      (Roller.ofDraws (Fin.cons x g : Fin (n + 1) → UInt32) rest)).1 =
      if (x.toNat : ℚ) < (s.split start stop weight).ratio * 2 ^ 32 then
        (s.narrow start (s.divider start stop weight) (s.firstWeight start stop weight)
          (Roller.ofDraws g rest)).1
      else
        (s.narrow (s.divider start stop weight + 1) stop (s.secondWeight start stop weight)
          (Roller.ofDraws g rest)).1 := by
  have hthreshold : threshold (s.firstWeight start stop weight) weight =
      (s.split start stop weight).ratio * 2 ^ 32 := by
    unfold threshold split
    rw [Arithmetic.ofNat_rat]
    norm_num
  rw [s.narrow_of_lt weight h, apply_ite Prod.fst, hthreshold, Roller.head_ofDraws,
    Arithmetic.ofNat_rat, narrow_tail_ofDraws, narrow_tail_ofDraws]

/-- A slot of the first part is reached by the draws that go there, and the other draws decide. -/
theorem frequency_narrow_first (s : RunningSums ℚ) {start stop i : ℕ} (weight : ℚ)
    (h : start < stop) (hi : i ≤ s.divider start stop weight) (n : ℕ) (rest : ℕ → UInt32) :
    frequency (n + 1) (fun f => (s.narrow start stop weight (Roller.ofDraws f rest)).1 = i) =
      drawShare ((s.split start stop weight).ratio * 2 ^ 32) *
        frequency n (fun g => (s.narrow start (s.divider start stop weight)
          (s.firstWeight start stop weight) (Roller.ofDraws g rest)).1 = i) := by
  refine frequency_cons (a := fun x => (x.toNat : ℚ) < (s.split start stop weight).ratio * 2 ^ 32)
    fun x g => ?_
  rw [narrow_ofDraws_cons s weight h]
  by_cases hx : (x.toNat : ℚ) < (s.split start stop weight).ratio * 2 ^ 32
  · rw [if_pos hx, and_iff_right hx]
  · -- The other draws go to the second part, which does not lead back to slot `i`.
    have hpast := (s.narrow_mem (s.divider start stop weight + 1) stop
      (s.secondWeight start stop weight) (s.divider_lt weight h) (Roller.ofDraws g rest)).1
    rw [if_neg hx]
    exact ⟨fun h => absurd h (by omega), fun h => absurd h.1 hx⟩

/-- A slot of the second part is reached by the draws that do not go to the first. -/
theorem frequency_narrow_second (s : RunningSums ℚ) {start stop i : ℕ} (weight : ℚ)
    (h : start < stop) (hi : s.divider start stop weight < i) (n : ℕ) (rest : ℕ → UInt32) :
    frequency (n + 1) (fun f => (s.narrow start stop weight (Roller.ofDraws f rest)).1 = i) =
      (1 - drawShare ((s.split start stop weight).ratio * 2 ^ 32)) *
        frequency n (fun g => (s.narrow (s.divider start stop weight + 1) stop
          (s.secondWeight start stop weight) (Roller.ofDraws g rest)).1 = i) := by
  rw [← card_not_below]
  refine frequency_cons
    (a := fun x => ¬ (x.toNat : ℚ) < (s.split start stop weight).ratio * 2 ^ 32) fun x g => ?_
  rw [narrow_ofDraws_cons s weight h]
  by_cases hx : (x.toNat : ℚ) < (s.split start stop weight).ratio * 2 ^ 32
  · have hpast := (s.narrow_mem start (s.divider start stop weight)
      (s.firstWeight start stop weight) (s.le_divider weight h) (Roller.ofDraws g rest)).2
    rw [if_pos hx]
    exact ⟨fun h => absurd h (by omega), fun h => absurd hx h.1⟩
  · rw [if_neg hx, and_iff_right hx]

/-- The fraction of the sequences of draws that narrow a section down to slot `i` is the share of
the slot in the section, up to the errors of the splits on the way. -/
theorem abs_frequency_narrow_sub_le {s : RunningSums ℚ} (hmono : Monotone s.before)
    (rest : ℕ → UInt32) (i start stop : ℕ) (weight : ℚ) (n : ℕ)
    (hweight : weight = s.sectionWeight start stop) (hpos : 0 < weight) (hstart : start ≤ i)
    (hstop : i ≤ stop) (hn : stop - start ≤ n) :
    |frequency n (fun f => (s.narrow start stop weight (Roller.ofDraws f rest)).1 = i) -
        s.sectionWeight i i / weight| ≤
      ((s.splitsTo start stop weight i).map Split.error).sum := by
  -- The induction is on the section, with as many draws as may be needed and any after them.
  induction start, stop, weight using s.section_induction generalizing n with
  | slot start stop weight hlt =>
    obtain rfl : start = i := by omega
    obtain rfl : start = stop := by omega
    rw [frequency_of_forall (fun f => by rw [s.narrow_of_not_lt weight hlt]), ← hweight,
      div_self hpos.ne', sub_self, abs_zero]
    exact Split.sum_error_nonneg _
  | cut start stop weight hlt ih₁ ih₂ =>
    have hle := s.le_divider weight hlt
    have hcut := s.divider_lt weight hlt
    obtain ⟨n, rfl⟩ : ∃ k, n = k + 1 := ⟨n - 1, by omega⟩
    have hslot : 0 ≤ s.sectionWeight i i := sectionWeight_nonneg hmono le_rfl
    have hratio : (s.split start stop weight).ratio =
        s.firstWeight start stop weight / weight := rfl
    have hshare0 := drawShare_nonneg ((s.split start stop weight).ratio * 2 ^ 32)
    have hshare1 := drawShare_le_one ((s.split start stop weight).ratio * 2 ^ 32)
    rw [splitsTo, dif_pos hlt, List.map_cons, List.sum_cons]
    by_cases hi : i ≤ s.divider start stop weight
    · rw [if_pos hi, frequency_narrow_first s weight hlt hi]
      refine abs_mul_sub_div_le hpos hslot (sectionWeight_le hmono hstart hi) hshare0 hshare1 ?_
        (Split.sum_error_nonneg _) fun hfirst => ih₁ n rfl hfirst hstart hi (by omega)
      -- A part without weight is never drawn.
      intro hzero
      rw [hratio, hzero, zero_div, drawShare_mul zero_le_one, zero_mul, Nat.ceil_zero,
        Nat.cast_zero, zero_div]
    · -- The second part is drawn by the other draws, and the error of the split is the same.
      have hratio' : s.secondWeight start stop weight / weight =
          1 - (s.split start stop weight).ratio := by
        rw [hratio, eq_sub_iff_add_eq, ← add_div, add_comm, firstWeight_add_secondWeight, ← hweight,
          div_self hpos.ne']
      have herror : (s.split start stop weight).error =
          |1 - drawShare ((s.split start stop weight).ratio * 2 ^ 32) -
            s.secondWeight start stop weight / weight| := by
        rw [hratio', sub_sub_sub_cancel_left, abs_sub_comm]
        rfl
      rw [if_neg hi, herror, frequency_narrow_second s weight hlt (not_le.1 hi)]
      refine abs_mul_sub_div_le hpos hslot (sectionWeight_le hmono (by omega) hstop)
        (by linarith) (by linarith) ?_ (Split.sum_error_nonneg _) fun hsecond =>
          ih₂ n rfl hsecond (by omega) hstop (by omega)
      intro hzero
      rw [hzero, zero_div, eq_comm, sub_eq_zero] at hratio'
      rw [← hratio', drawShare_mul le_rfl, one_mul]
      norm_num

/-- The first part of every split has a share from 0 to 1. -/
theorem ratio_mem_of_mem_splitsTo {s : RunningSums ℚ} (hmono : Monotone s.before)
    (i start stop : ℕ) (weight : ℚ) (hweight : weight = s.sectionWeight start stop) :
    ∀ c ∈ s.splitsTo start stop weight i, 0 ≤ c.ratio ∧ c.ratio ≤ 1 := by
  induction start, stop, weight using s.section_induction with
  | slot start stop weight hlt =>
    intro c hc
    rw [splitsTo, dif_neg hlt] at hc
    cases hc
  | cut start stop weight hlt ih₁ ih₂ =>
    have hle := s.le_divider weight hlt
    have hcut := s.divider_lt weight hlt
    have hfirst0 : 0 ≤ s.firstWeight start stop weight := sectionWeight_nonneg hmono hle
    have hfirst1 : s.firstWeight start stop weight ≤ weight := by
      rw [hweight]
      exact sectionWeight_le hmono le_rfl (by rw [← hweight]; exact hcut.le)
    intro c hc
    rw [splitsTo, dif_pos hlt, List.mem_cons] at hc
    rcases hc with rfl | hc
    · exact ⟨div_nonneg hfirst0 (hfirst0.trans hfirst1),
        div_le_one_of_le₀ hfirst1 (hfirst0.trans hfirst1)⟩
    · split_ifs at hc
      · exact ih₁ rfl c hc
      · exact ih₂ rfl c hc

end RunningSums

/-! ## Tables -/

open Arithmetic

/-- The weight before slot `k` adds up the slots before it. -/
theorem before_ofWeights_rat (weights : Array ℚ) (k : ℕ) :
    (RunningSums.ofWeights weights).before k = ∑ i ∈ Finset.range k, slotWeight weights i := by
  rw [RunningSums.before_ofWeights]
  induction k with
  | zero => rfl
  | succ k ih =>
    rw [Finset.sum_range_succ, ← ih, List.take_add_one, List.foldl_append, slotWeight,
      Array.getD_eq_getD_getElem?, Array.getElem?_toList]
    cases weights[k]? with
    | none => exact (add_zero _).symm
    | some w => rfl

/-- Without negative weights the weight before a slot grows with the slot. -/
theorem monotone_before_ofWeights {weights : Array ℚ} (h : ∀ w ∈ weights, 0 ≤ w) :
    Monotone (RunningSums.ofWeights weights).before := by
  refine monotone_nat_of_le_succ fun k => ?_
  rw [before_ofWeights_rat, before_ofWeights_rat, Finset.sum_range_succ, le_add_iff_nonneg_right]
  by_cases hk : k < weights.size
  · rw [slotWeight_of_lt hk]
    exact h _ (Array.getElem_mem hk)
  · rw [slotWeight, Array.getD_eq_getD_getElem?, Array.getElem?_eq_none (not_lt.1 hk)]
    rfl

/-- A section of one slot weighs what the slot weighs. -/
theorem sectionWeight_ofWeights_self (weights : Array ℚ) (i : ℕ) :
    (RunningSums.ofWeights weights).sectionWeight i i = slotWeight weights i := by
  rw [RunningSums.sectionWeight, before_ofWeights_rat, before_ofWeights_rat,
    Finset.sum_range_succ, add_sub_cancel_left]

/-- The total of the running sums is the sum of the weights. -/
theorem total_ofWeights_rat (weights : Array ℚ) :
    (RunningSums.ofWeights weights).total = Arithmetic.sum weights := by
  rw [RunningSums.total_ofWeights, Array.foldl_toList]
  rfl

/-- The section of all slots weighs what the table weighs. -/
theorem sectionWeight_ofWeights (weights : Array ℚ) (h : 0 < weights.size) :
    (RunningSums.ofWeights weights).sectionWeight 0 (weights.size - 1) =
      Arithmetic.sum weights := by
  rw [RunningSums.sectionWeight, Nat.sub_add_cancel h, before_ofWeights_rat, before_ofWeights_rat,
    sum_eq_sum_slotWeight, Finset.range_zero, Finset.sum_empty, sub_zero]

/-- Of a table with a positive weight and no negative ones, the splits met on the way to slot `i`
are the same in every run, and of all sequences of `size - 1` draws the fraction that gives slot `i`
is the share of the slot up to one draw of `2 ^ 32` for each of these splits. If every split divides
the draws exactly, the fraction is the share. -/
theorem frequency_sampleIndex (weights : Array ℚ) (hweights : ∀ w ∈ weights, 0 ≤ w)
    (hpos : 0 < Arithmetic.sum weights) (i : ℕ) (hi : i < weights.size) (rest : ℕ → UInt32) :
    let drawn := frequency (weights.size - 1) fun f =>
      (sampleIndex weights (Roller.ofDraws f rest)).1 = .ok i
    let share := weights[i] / Arithmetic.sum weights
    (∀ r r', sampleIndex weights r = (.ok i, r') →
      sampleIndexTraced weights r = (.ok (i, splitsTo weights i), r')) ∧
    |drawn - share| ≤ (splitsTo weights i).length * (1 / 2 ^ 32) ∧
    ((∀ c ∈ splitsTo weights i, ∃ k : ℤ, c.ratio * 2 ^ 32 = k) → drawn = share) := by
  intro drawn share
  have htotal := total_ofWeights_rat weights
  have hsection := sectionWeight_ofWeights weights (by omega)
  have hmono := monotone_before_ofWeights hweights
  have herror : |drawn - share| ≤ ((splitsTo weights i).map Split.error).sum := by
    have h := RunningSums.abs_frequency_narrow_sub_le hmono rest i 0 (weights.size - 1) _
      (weights.size - 1) (htotal.trans hsection.symm) (by rw [htotal]; exact hpos) (Nat.zero_le _)
      (by omega) le_rfl
    rw [sectionWeight_ofWeights_self, slotWeight_of_lt hi] at h
    have hrun : drawn = frequency (weights.size - 1) fun f =>
        ((RunningSums.ofWeights weights).narrow 0 (weights.size - 1)
          (RunningSums.ofWeights weights).total (Roller.ofDraws f rest)).1 = i := by
      refine congrArg (frequency _) (funext fun f => ?_)
      rw [sampleIndex_of_isPositiveFinite (by
        rw [htotal, isPositiveFinite_rat]
        exact decide_eq_true hpos)]
      exact Except.ok.injEq _ _
    have hsplits : splitsTo weights i = (RunningSums.ofWeights weights).splitsTo 0
        (weights.size - 1) (RunningSums.ofWeights weights).total i := rfl
    rw [htotal] at h
    rw [hrun, hsplits, htotal]
    exact h
  have hratio : ∀ c ∈ splitsTo weights i, 0 ≤ c.ratio ∧ c.ratio ≤ 1 :=
    RunningSums.ratio_mem_of_mem_splitsTo hmono i _ _ _ (htotal.trans hsection.symm)
  refine ⟨fun r r' h => sampleIndexTraced_of_eq_ok h, herror.trans ?_, fun hexact => ?_⟩
  · rw [← nsmul_eq_mul, ← List.length_map (f := Split.error)]
    refine List.sum_le_card_nsmul _ _ fun e he => ?_
    obtain ⟨c, hc, rfl⟩ := List.mem_map.1 he
    exact Split.error_le (hratio c hc).1 (hratio c hc).2
  · have hzero : ((splitsTo weights i).map Split.error).sum = 0 := by
      refine List.sum_eq_zero fun e he => ?_
      obtain ⟨c, hc, rfl⟩ := List.mem_map.1 he
      obtain ⟨k, hk⟩ := hexact c hc
      exact Split.error_eq_zero (hratio c hc).1 (hratio c hc).2 hk
    rw [hzero] at herror
    exact sub_eq_zero.1 (abs_nonpos_iff.1 herror)

/-- Slot 1 of the weights 1, 1 and 2 is drawn by a quarter of all pairs of draws: both splits on the
way to it halve their section. -/
theorem frequency_sampleIndex_quarter :
    splitsTo (#[1, 1, 2] : Array ℚ) 1 = [⟨0, 2, 1 / 2⟩, ⟨0, 1, 1 / 2⟩] ∧
      frequency 2 (fun f =>
        (sampleIndex (#[1, 1, 2] : Array ℚ) (Roller.ofDraws f fun _ => 0)).1 = .ok 1) = 1 / 4 := by
  have hsplits : splitsTo (#[1, 1, 2] : Array ℚ) 1 = [⟨0, 2, 1 / 2⟩, ⟨0, 1, 1 / 2⟩] := by cbv
  have hpos : 0 < Arithmetic.sum (#[1, 1, 2] : Array ℚ) := by decide +kernel
  have hshare : (#[1, 1, 2] : Array ℚ)[1] / Arithmetic.sum (#[1, 1, 2] : Array ℚ) = 1 / 4 := by
    decide +kernel
  obtain ⟨-, -, hexact⟩ :=
    frequency_sampleIndex #[1, 1, 2] (by decide) hpos 1 (by decide) fun _ => 0
  refine ⟨hsplits, (hexact fun c hc => ⟨2 ^ 31, ?_⟩).trans hshare⟩
  rw [hsplits] at hc
  rcases List.mem_pair.1 hc with rfl | rfl <;> norm_num

end DiceOdds
