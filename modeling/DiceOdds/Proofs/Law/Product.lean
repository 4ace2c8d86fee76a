import DiceOdds.Distribution.Product
import DiceOdds.Proofs.Law.Table

/-!
# The law of a product

A product with a table has constant 0, and every pair of outcomes goes to the slot of the whole
part of their product. Over exact arithmetic a product that succeeds therefore has the law of the
product of independent outcomes, cut to whole numbers. Two certain operands have no table, and their
product is not cut.
-/

namespace DiceOdds

open Finset Arithmetic

/-- The law of the product of independent outcomes, cut to whole numbers. -/
noncomputable def Law.product (l m : Law) : Law := combine (fun v w => trunc (v * w)) l m

namespace Distribution

/-- The law that a table above constant 0 is when its weights are probabilities. -/
noncomputable def tableLaw (table : Array ℚ) : Law :=
  ∑ i ∈ range table.size, Finsupp.single ((i : ℚ) + 1) (slotWeight table i)

/-- A table of zeros is no law at all. -/
theorem tableLaw_replicate_zero (n : ℕ) : tableLaw (Array.replicate n 0) = 0 := by
  refine sum_eq_zero fun i hi => ?_
  rw [slotWeight_of_lt (mem_range.1 hi), Array.getElem_replicate, Finsupp.single_zero]

/-- Adding to one slot of a table adds to the probability of its outcome. -/
theorem tableLaw_modify {table : Array ℚ} {i : ℕ} (hi : i < table.size) (w : ℚ) :
    tableLaw (table.modify i (· + w)) = tableLaw table + Finsupp.single ((i : ℚ) + 1) w := by
  have hslot : ∀ j ∈ range table.size, Finsupp.single ((j : ℚ) + 1)
      (slotWeight (table.modify i (· + w)) j) = Finsupp.single ((j : ℚ) + 1) (slotWeight table j) +
        if i = j then Finsupp.single ((j : ℚ) + 1) w else 0 := by
    intro j hj
    have hj' := mem_range.1 hj
    rw [slotWeight_of_lt (by rw [Array.size_modify]; exact hj'), slotWeight_of_lt hj',
      Array.getElem_modify]
    split_ifs
    · rw [Finsupp.single_add]
    · rw [add_zero]
  unfold tableLaw
  rw [Array.size_modify, sum_congr rfl hslot, sum_add_distrib, sum_ite_eq,
    if_pos (mem_range.2 hi)]

/-- The law of a table gives a whole number the weight of its slot. -/
theorem tableLaw_apply (table : Array ℚ) (k : ℕ) :
    tableLaw table ((k : ℚ) + 1) = slotWeight table k := by
  have hslot (i : ℕ) : (i : ℚ) + 1 = (k : ℚ) + 1 ↔ i = k := by
    rw [add_left_inj, Nat.cast_inj]
  rw [tableLaw, Law.sum_single_apply]
  simp only [hslot]
  rw [sum_ite_eq']
  split_ifs with hk
  · rfl
  · exact (slotWeight_of_le (not_lt.mp (mem_range.not.mp hk))).symm

/-- The slot of a value is the one that stands for its whole part. -/
theorem productSlot?_eq_some {size i : ℕ} (hsize : size ≤ wordMax) {value : ℚ}
    (h : productSlot? size value = some i) : i < size ∧ (i : ℚ) + 1 = trunc value := by
  unfold productSlot? at h
  obtain ⟨z, hz⟩ := exists_trunc_eq value
  simp only [hz, ofNat_rat, Nat.cast_zero, Nat.cast_one, Bool.and_eq_true, decide_eq_true_eq] at h
  split_ifs at h with hrange
  obtain ⟨hlo, hhi⟩ := hrange
  have hlo' : 0 ≤ z - 1 := by
    have : (0 : ℚ) ≤ ((z - 1 : ℤ) : ℚ) := by push_cast; exact hlo
    exact_mod_cast this
  have hhi' : z - 1 < size := by
    have : ((z - 1 : ℤ) : ℚ) < (size : ℤ) := by push_cast; exact hhi
    exact_mod_cast this
  have hi : (z : ℚ) - 1 = ((z - 1 : ℤ) : ℚ) := by push_cast; rfl
  rw [hi, toWord_intCast, Option.some.injEq] at h
  have hval : (i : ℤ) = z - 1 := by omega
  refine ⟨by omega, ?_⟩
  rw [hz, ← Int.cast_natCast, hval]
  push_cast
  ring

/-- A value has a slot exactly if its whole part is one of the numbers that slots stand for. -/
theorem productSlot?_ne_none_iff {size : ℕ} {value : ℚ} :
    productSlot? size value ≠ none ↔ 1 ≤ trunc value ∧ trunc value ≤ size := by
  obtain ⟨z, hz⟩ := exists_trunc_eq value
  have hlo : (0 : ℚ) ≤ z - 1 ↔ (1 : ℚ) ≤ z := sub_nonneg
  have hhi : (z : ℚ) - 1 < size ↔ (z : ℚ) ≤ size := by
    have h : z < (size : ℤ) + 1 ↔ z ≤ size := Int.lt_add_one_iff
    rw [sub_lt_iff_lt_add]
    exact_mod_cast h
  unfold productSlot?
  simp only [hz, ofNat_rat, Nat.cast_zero, Nat.cast_one, hlo, hhi]
  by_cases h : (1 : ℚ) ≤ z ∧ (z : ℚ) ≤ size
  · simp [h]
  · rw [if_neg (by simpa using h)]
    exact iff_of_false (not_not_intro rfl) h

/-- A table within memory has a slot for every whole number up to the bound, and no other. -/
theorem productSize_cast {d e : Distribution ℚ} (h : productBound d e < (wordMax : ℚ)) :
    (productSize d e : ℚ) = max 0 (productBound d e) := by
  obtain ⟨z, hz⟩ : ∃ z : ℤ, productBound d e = z := exists_trunc_eq _
  rw [hz] at h
  have hword : z < (wordMax : ℤ) := by exact_mod_cast h
  unfold productSize
  rw [hz, ofNat_rat, Nat.cast_zero]
  split
  next hpos =>
    have hpos' : 0 < z := by exact_mod_cast hpos
    have hcast : ((min z.toNat wordMax : ℕ) : ℤ) = z := by omega
    rw [toWord_intCast, max_eq_right hpos.le, ← Int.cast_natCast, hcast]
  next hpos => rw [Nat.cast_zero, max_eq_left (not_lt.mp hpos)]

/-- A pair of outcomes adds the product of its probabilities to the whole part of its product. -/
theorem addProduct_eq_ok {size : ℕ} (hsize : size ≤ wordMax) {table table' : Array ℚ}
    {value weight : ℚ} (htable : table.size = size)
    (h : addProduct size table value weight = .ok table') :
    table'.size = size ∧
      tableLaw table' = tableLaw table + Finsupp.single (trunc value) weight := by
  unfold addProduct at h
  cases hslot : productSlot? size value with
  | none => rw [hslot] at h; cases h
  | some i =>
    rw [hslot] at h
    obtain ⟨hi, hout⟩ := productSlot?_eq_some hsize hslot
    rw [← Except.ok.inj h, ← hout]
    exact ⟨by rw [Array.size_modify, htable], tableLaw_modify (by omega) weight⟩

/-- A run over entries that each add a law to the table adds up all of them. -/
theorem foldlM_tableLaw {ε β : Type} {size : ℕ} (f : Array ℚ → β → Except ε (Array ℚ))
    (g : β → Law)
    (hstep : ∀ {table table' : Array ℚ} {b : β}, table.size = size → f table b = .ok table' →
      table'.size = size ∧ tableLaw table' = tableLaw table + g b) :
    ∀ (entries : List β) {table table' : Array ℚ}, table.size = size →
      entries.foldlM f table = .ok table' →
        table'.size = size ∧ tableLaw table' = tableLaw table + (entries.map g).sum
  | [], table, table', htable, h => by
    obtain rfl : table = table' := Except.ok.inj h
    rw [List.map_nil, List.sum_nil, add_zero]
    exact ⟨htable, rfl⟩
  | b :: entries, table, table', htable, h => by
    rw [List.foldlM_cons] at h
    cases hb : f table b with
    | error => rw [hb] at h; cases h
    | ok next =>
      rw [hb] at h
      obtain ⟨hnext, hlaw⟩ := hstep htable hb
      obtain ⟨hsize, hlaw'⟩ := foldlM_tableLaw f g hstep entries hnext h
      rw [List.map_cons, List.sum_cons, ← add_assoc, ← hlaw]
      exact ⟨hsize, hlaw'⟩

/-- The table of products has the law of the product cut to whole numbers. -/
theorem productTable_eq_ok {size : ℕ} (hsize : size ≤ wordMax) {left right : Array (ℚ × ℚ)}
    {table : Array ℚ} (h : productTable size left right = .ok table) :
    table.size = size ∧ tableLaw table =
      Law.product (Law.ofEntries left.toList) (Law.ofEntries right.toList) := by
  -- One row of the table: an outcome on the left with all on the right.
  have hrow : ∀ {t t' : Array ℚ} {a : ℚ × ℚ}, t.size = size →
      right.foldlM (fun t b => addProduct size t (a.1 * b.1) (a.2 * b.2)) t = .ok t' →
        t'.size = size ∧ tableLaw t' = tableLaw t +
          (right.toList.map fun b => Finsupp.single (trunc (a.1 * b.1)) (a.2 * b.2)).sum := by
    intro t t' a ht h
    rw [← Array.foldlM_toList] at h
    have hrun := foldlM_tableLaw
      (fun t (b : ℚ × ℚ) => addProduct size t (a.1 * b.1) (a.2 * b.2))
      (fun b => Finsupp.single (trunc (a.1 * b.1)) (a.2 * b.2)) (by
        intro t t' b ht h
        exact addProduct_eq_ok hsize ht h)
    exact hrun right.toList ht h
  have hrows : left.toList.foldlM
      (fun t a => right.foldlM (fun t b => addProduct size t (a.1 * b.1) (a.2 * b.2)) t)
        (Array.replicate size 0) = .ok table := by
    rw [Array.foldlM_toList]
    exact h
  have hrun := foldlM_tableLaw
    (fun t (a : ℚ × ℚ) => right.foldlM (fun t b => addProduct size t (a.1 * b.1) (a.2 * b.2)) t)
    (fun a => (right.toList.map fun b => Finsupp.single (trunc (a.1 * b.1)) (a.2 * b.2)).sum)
    (by
      intro t t' a ht h
      exact hrow ht h)
  obtain ⟨hsize', hlaw⟩ := hrun left.toList Array.size_replicate hrows
  rw [tableLaw_replicate_zero, zero_add] at hlaw
  rw [Law.product, Law.combine_ofEntries]
  exact ⟨hsize', hlaw⟩

/-! ## Multiplication -/

/-- The normalized outcomes of a distribution are its law. -/
theorem normalizedOutcomes_eq_ok {d : Distribution ℚ} {entries : Array (ℚ × ℚ)}
    (h : d.normalizedOutcomes = .ok entries) : Law.ofEntries entries.toList = d.law := by
  cases hd : d.isCertain with
  | true =>
    rw [normalizedOutcomes_of_isCertain hd] at h
    rw [← Except.ok.inj h, law_of_isCertain hd]
    exact add_zero _
  | false =>
    rw [normalizedOutcomes_of_isUncertain hd] at h
    obtain ⟨total, hn, h⟩ := Except.bind_eq_ok_iff.mp h
    obtain ⟨-, rfl⟩ := normalizer_eq_ok_iff.1 hn
    rw [← Except.ok.inj h, law_of_isUncertain hd]
    have hlist : (d.outcomes.map fun (value, weight) => (value, weight / d.totalWeight)).toList =
        (List.range d.size).map fun i => (d.outcome i, d.share i) := by
      refine List.ext_getElem (by simp [outcomes, size]) fun i hi _ => ?_
      have hi' : i < d.weights.size := by simpa [outcomes] using hi
      simp [outcomes, share, slotWeight_of_lt hi']
    rw [hlist, Law.ofEntries, List.map_map]
    rfl

/-- A table with the law of a product of distributions that weigh something is uncertain, has total
1, and has that law above constant 0. -/
theorem law_productTable {d e : Distribution ℚ} {table : Array ℚ}
    (hd : d.isCertain = false → 0 < d.totalWeight) (he : e.isCertain = false → 0 < e.totalWeight)
    (h : tableLaw table = Law.product d.law e.law) :
    isCertain ⟨0, table⟩ = false ∧ totalWeight ⟨0, table⟩ = 1 ∧
      law ⟨0, table⟩ = Law.product d.law e.law := by
  -- The table weighs what the laws of the operands weigh together, so it needs no normalizing.
  have htotal : totalWeight ⟨0, table⟩ = 1 := by
    have hsum : Law.total (tableLaw table) = 1 := by
      rw [h, Law.product, Law.total_combine, total_law hd, total_law he, one_mul]
    rwa [tableLaw, Law.total_sum, ← sum_eq_sum_slotWeight] at hsum
  have huncertain : isCertain ⟨0, table⟩ = false := by
    by_contra hc
    rw [Bool.not_eq_false, isCertain_iff] at hc
    rw [totalWeight_eq_sum, hc, range_zero, sum_empty] at htotal
    exact zero_ne_one htotal
  refine ⟨huncertain, htotal, ?_⟩
  rw [← h, law_of_isUncertain huncertain, tableLaw]
  refine sum_congr rfl fun i _ => ?_
  rw [outcome_rat, zero_add, share, htotal, div_one]

/-- What a product of distributions that weigh something is: a certain product, a certain 0 where
one operand is, and otherwise a sound table with the law of the product. -/
theorem times_eq_ok [Memory] {d e x : Distribution ℚ}
    (hd : d.isCertain = false → 0 < d.totalWeight) (he : e.isCertain = false → 0 < e.totalWeight)
    (h : d.times e = .ok x) :
    (d.isCertain = true ∧ e.isCertain = true ∧ x = certain (d.constant * e.constant)) ∨
      ((d.isCertain && e.isCertain) = false ∧
        (d.isCertain = true ∧ d.constant = 0 ∨ e.isCertain = true ∧ e.constant = 0) ∧
        x = certain 0) ∨
      ((d.isCertain && e.isCertain) = false ∧
        ¬ (d.isCertain = true ∧ d.constant = 0 ∨ e.isCertain = true ∧ e.constant = 0) ∧
        x.isCertain = false ∧ x.Sound ∧ x.law = Law.product d.law e.law) := by
  -- The two tests of a certain 0 are decided by the propositions of the statement.
  have htests : ((d.isCertain && d.constant == ofNat 0) || (e.isCertain && e.constant == ofNat 0)) =
      decide (d.isCertain = true ∧ d.constant = 0 ∨ e.isCertain = true ∧ e.constant = 0) := by
    rw [Bool.eq_iff_iff]
    simp
  obtain ⟨hdc, hec, rfl⟩ | ⟨hboth, hzero, rfl⟩ |
      ⟨hboth, hzero, -, hcap, left, right, table, hleft, hright, htable, rfl⟩ :=
    times_eq_ok_cases h
  · exact .inl ⟨hdc, hec, rfl⟩
  · rw [htests, decide_eq_true_eq] at hzero
    exact .inr (.inl ⟨hboth, hzero, rfl⟩)
  rw [htests, decide_eq_false_iff_not] at hzero
  have hword : tableCapacity ≤ wordMax := tableCapacity_lt_wordMax.le
  obtain ⟨hsize, hlaw⟩ := productTable_eq_ok (hcap.trans hword) htable
  rw [normalizedOutcomes_eq_ok hleft, normalizedOutcomes_eq_ok hright] at hlaw
  obtain ⟨huncertain, htotal, hxlaw⟩ := law_productTable hd he hlaw
  have hpos : 0 < totalWeight ⟨0, table⟩ := by
    rw [htotal]
    exact one_pos
  exact .inr (.inr ⟨hboth, hzero, huncertain, ⟨fun _ => hpos, hsize.trans_le hcap⟩, hxlaw⟩)

end Distribution

end DiceOdds
