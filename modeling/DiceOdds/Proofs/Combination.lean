import DiceOdds.Distribution.Product
import DiceOdds.Distribution.Sum
import DiceOdds.Proofs.Rolling

/-!
# Sums and products, opened up

A sum is certain, or it is the one table there is, or it is the convolution of two normalized tables
(`add_cases`). A product has a table only if one of its operands does, none is a certain 0, and
there is room for all products up to that of the largest outcomes (`times_cases`). The table is
filled pair by pair, and it is filled to the end exactly if the product of every pair has a slot
(`exists_productTable_eq_ok_iff`). Nothing here depends on how numbers are rounded.
-/

namespace DiceOdds.Distribution

open Arithmetic

variable {α : Type}

/-- A distribution is certain exactly if its table has no slots. -/
theorem isCertain_iff {d : Distribution α} : d.isCertain = true ↔ d.size = 0 :=
  Array.isEmpty_iff_size_eq_zero

/-- An uncertain distribution has a slot. -/
theorem size_pos_of_isUncertain {d : Distribution α} (h : d.isCertain = false) : 0 < d.size := by
  rw [Nat.pos_iff_ne_zero, Ne, ← isCertain_iff, h]
  exact Bool.false_ne_true

variable [Arithmetic α]

/-! ## Normalized outcomes -/

/-- The outcome of a certain distribution has probability 1. -/
theorem normalizedOutcomes_of_isCertain {d : Distribution α} (h : d.isCertain = true) :
    d.normalizedOutcomes = .ok #[(d.constant, ofNat 1)] := by
  unfold normalizedOutcomes
  rw [if_pos h]
  rfl

/-- The outcomes of a table have its weights, divided by the total. -/
theorem normalizedOutcomes_of_isUncertain {d : Distribution α} (h : d.isCertain = false) :
    d.normalizedOutcomes = do
      let total ← d.normalizer
      return d.outcomes.map fun (value, weight) => (value, weight / total) := by
  unfold normalizedOutcomes
  rw [if_neg (Bool.eq_false_iff.mp h)]

/-- The normalized outcomes are those of the slots, or the constant where there are no slots. -/
theorem exists_mem_normalizedOutcomes_iff {d : Distribution α} {entries : Array (α × α)}
    (h : d.normalizedOutcomes = .ok entries) (v : α) :
    (∃ a ∈ entries, a.1 = v) ↔
      if d.isCertain then v = d.constant else ∃ i < d.size, v = d.outcome i := by
  cases hd : d.isCertain with
  | true =>
    rw [normalizedOutcomes_of_isCertain hd] at h
    rw [← Except.ok.inj h, if_pos rfl]
    constructor
    · rintro ⟨a, ha, rfl⟩
      rw [Array.mem_singleton.mp ha]
    · rintro rfl
      exact ⟨_, Array.mem_singleton.mpr rfl, rfl⟩
  | false =>
    rw [normalizedOutcomes_of_isUncertain hd] at h
    obtain ⟨total, -, h⟩ := Except.bind_eq_ok_iff.mp h
    rw [← Except.ok.inj h, if_neg Bool.false_ne_true]
    constructor
    · rintro ⟨a, ha, rfl⟩
      obtain ⟨b, hb, rfl⟩ := Array.mem_map.mp ha
      obtain ⟨i, hi, rfl⟩ := Array.mem_mapIdx.mp hb
      exact ⟨i, hi, rfl⟩
    · rintro ⟨i, hi, rfl⟩
      exact ⟨_, Array.mem_map.mpr ⟨_, Array.mem_mapIdx.mpr ⟨i, hi, rfl⟩, rfl⟩, rfl⟩

/-! ## Sums -/

section Sums

variable [Memory]

/-- What a sum is: a certain operand only moves the constant of the other, and two tables are
normalized and convolved if there is room. -/
theorem add_cases (d e : Distribution α) :
    (d.isCertain = true ∧ d.add e = .ok ⟨d.constant + e.constant, e.weights⟩) ∨
      (d.isCertain = false ∧ e.isCertain = true ∧
        d.add e = .ok ⟨d.constant + e.constant, d.weights⟩) ∨
      (d.isCertain = false ∧ e.isCertain = false ∧
        d.add e = do
          let total ← d.normalizer
          let total' ← e.normalizer
          if tableCapacity < d.size + e.size then
            throw (.tableTooLarge (ofNat (d.size + e.size)))
          return ⟨d.constant + e.constant,
            convolution (d.weights.map (· / total)) (e.weights.map (· / total'))⟩) := by
  unfold add isUncertain
  cases hd : d.isCertain with
  | true => exact .inl ⟨rfl, rfl⟩
  | false =>
    cases he : e.isCertain with
    | true => exact .inr (.inl ⟨rfl, rfl, rfl⟩)
    | false => exact .inr (.inr ⟨rfl, rfl, rfl⟩)

/-- A sum has a slot for every slot of either operand. -/
theorem size_add {d e x : Distribution α} (h : d.add e = .ok x) : x.size = d.size + e.size := by
  obtain ⟨hd, hadd⟩ | ⟨-, he, hadd⟩ | ⟨-, -, hadd⟩ := add_cases d e
  · rw [← Except.ok.inj (hadd.symm.trans h), isCertain_iff.mp hd, Nat.zero_add]
    rfl
  · rw [← Except.ok.inj (hadd.symm.trans h), isCertain_iff.mp he, Nat.add_zero]
    rfl
  · obtain ⟨total, -, h⟩ := Except.bind_eq_ok_iff.mp (hadd.symm.trans h)
    obtain ⟨total', -, h⟩ := Except.bind_eq_ok_iff.mp h
    split at h
    · cases h
    rw [← Except.ok.inj h]
    show (convolution _ _).size = _
    rw [size_convolution, Array.size_map, Array.size_map]
    rfl

/-- A sum is certain exactly if both operands are. -/
theorem isCertain_add {d e x : Distribution α} (h : d.add e = .ok x) :
    x.isCertain = (d.isCertain && e.isCertain) := by
  rw [Bool.eq_iff_iff, Bool.and_eq_true, isCertain_iff, isCertain_iff, isCertain_iff, size_add h,
    Nat.add_eq_zero_iff]

end Sums

/-! ## The table of a product -/

/-- Filling the table keeps what adding to one slot keeps, unless two outcomes have a product
without a slot. -/
theorem productTable_yields {P : Array α → Prop} (size : Nat) {left right : Array (α × α)}
    (hempty : P (Array.replicate size (ofNat 0)))
    (hadd : ∀ table, P table → ∀ a ∈ left, ∀ b ∈ right, ∀ i,
      P (table.modify i (· + a.2 * b.2))) :
    (productTable size left right).Yields P fun err => ∃ a ∈ left, ∃ b ∈ right,
      productSlot? size (a.1 * b.1) = none ∧ err = .productOutOfRange (a.1 * b.1) size := by
  unfold productTable
  rw [← Array.foldlM_toList]
  refine Except.Yields.foldlM (fun table htable a ha => ?_) hempty
  dsimp only
  rw [← Array.foldlM_toList]
  refine Except.Yields.foldlM (fun table htable b hb => ?_) htable
  have ha' := Array.mem_toList_iff.mp ha
  have hb' := Array.mem_toList_iff.mp hb
  unfold addProduct
  split
  next hnone => exact ⟨a, ha', b, hb', hnone, rfl⟩
  next i _ => exact hadd table htable a ha' b hb' i

/-- The only error of filling the table is that a product has no slot. -/
theorem exists_of_productTable_eq_error {size : Nat} {left right : Array (α × α)}
    {err : DistributionError α} (h : productTable size left right = .error err) :
    ∃ value, err = .productOutOfRange value size := by
  have hyields : (productTable size left right).Yields (fun _ => True) _ :=
    productTable_yields size trivial fun _ _ _ _ _ _ _ => trivial
  rw [h] at hyields
  obtain ⟨a, -, b, -, -, rfl⟩ := hyields
  exact ⟨_, rfl⟩

/-- A product is added exactly if it has a slot. -/
theorem exists_addProduct_eq_ok_iff (size : Nat) (table : Array α) (value weight : α) :
    (∃ table', addProduct size table value weight = .ok table') ↔
      productSlot? size value ≠ none := by
  unfold addProduct
  cases productSlot? size value with
  | none => exact iff_of_false (fun ⟨_, h⟩ => by cases h) fun h => h rfl
  | some i => exact iff_of_true ⟨_, rfl⟩ (Option.some_ne_none i)

/-- The table is filled exactly if the product of every pair has a slot. -/
theorem exists_productTable_eq_ok_iff (size : Nat) (left right : Array (α × α)) :
    (∃ table, productTable size left right = .ok table) ↔
      ∀ a ∈ left, ∀ b ∈ right, productSlot? size (a.1 * b.1) ≠ none := by
  have hrow (table : Array α) (a : α × α) :
      (∃ table', right.foldlM (fun table b => addProduct size table (a.1 * b.1) (a.2 * b.2)) table =
          .ok table') ↔ ∀ b ∈ right, productSlot? size (a.1 * b.1) ≠ none := by
    rw [← Array.foldlM_toList, Except.exists_foldlM_eq_ok_iff
      fun table b _ => exists_addProduct_eq_ok_iff size table (a.1 * b.1) (a.2 * b.2)]
    simp only [Array.mem_toList_iff]
  unfold productTable
  rw [← Array.foldlM_toList, Except.exists_foldlM_eq_ok_iff fun table a _ => hrow table a]
  simp only [Array.mem_toList_iff]

/-! ## Products -/

/-- The number of slots that the table of a product has. -/
def productSize (d e : Distribution α) : Nat :=
  if ofNat 0 < productBound d e then toWord (productBound d e) else 0

variable [Memory]

/-- What a product is: of two certain operands and of a certain 0 it is certain; any other is
refused if it is too large, and else is a table of all pairs of outcomes. -/
theorem times_cases (d e : Distribution α) :
    (d.isCertain = true ∧ e.isCertain = true ∧
        d.times e = .ok (certain (d.constant * e.constant))) ∨
      ((d.isCertain && e.isCertain) = false ∧
        ((d.isCertain && d.constant == ofNat 0) || (e.isCertain && e.constant == ofNat 0)) = true ∧
        d.times e = .ok (certain (ofNat 0))) ∨
      ((d.isCertain && e.isCertain) = false ∧
        ((d.isCertain && d.constant == ofNat 0) || (e.isCertain && e.constant == ofNat 0)) =
          false ∧
        ((¬ (productBound d e < ofNat wordMax ∧ productSize d e ≤ tableCapacity) ∧
            ∃ n, d.times e = .error (.tableTooLarge n)) ∨
          productBound d e < ofNat wordMax ∧ productSize d e ≤ tableCapacity ∧
          d.times e = do
            let right ← e.normalizedOutcomes
            let left ← d.normalizedOutcomes
            return ⟨ofNat 0, ← productTable (productSize d e) left right⟩)) := by
  unfold times
  by_cases hboth : (d.isCertain && e.isCertain) = true
  · rw [if_pos hboth]
    rw [Bool.and_eq_true] at hboth
    exact .inl ⟨hboth.1, hboth.2, rfl⟩
  rw [if_neg hboth]
  have hboth' := Bool.eq_false_iff.mpr hboth
  by_cases hzero : ((d.isCertain && d.constant == ofNat 0) ||
      (e.isCertain && e.constant == ofNat 0)) = true
  · rw [if_pos hzero]
    exact .inr (.inl ⟨hboth', hzero, rfl⟩)
  rw [if_neg hzero]
  refine .inr (.inr ⟨hboth', Bool.eq_false_iff.mpr hzero, ?_⟩)
  by_cases hbound : productBound d e < ofNat wordMax
  · by_cases hsize : tableCapacity < productSize d e
    · refine .inl ⟨fun h => Nat.not_le.mpr hsize h.2, ofNat (productSize d e), ?_⟩
      simp only [hbound, decide_true, Bool.not_true, Bool.false_eq_true, if_false]
      exact if_pos hsize
    · refine .inr ⟨hbound, Nat.not_lt.mp hsize, ?_⟩
      simp only [hbound, decide_true, Bool.not_true, Bool.false_eq_true, if_false]
      exact if_neg hsize
  · refine .inl ⟨fun h => hbound h.1, productBound d e, ?_⟩
    simp only [hbound, decide_false, Bool.not_false, if_true]
    rfl

/-- What a product that there is can be: certain, or a table filled to the end with the pairs of all
normalized outcomes. -/
theorem times_eq_ok_cases {d e x : Distribution α} (h : d.times e = .ok x) :
    (d.isCertain = true ∧ e.isCertain = true ∧ x = certain (d.constant * e.constant)) ∨
      ((d.isCertain && e.isCertain) = false ∧
        ((d.isCertain && d.constant == ofNat 0) || (e.isCertain && e.constant == ofNat 0)) = true ∧
        x = certain (ofNat 0)) ∨
      ((d.isCertain && e.isCertain) = false ∧
        ((d.isCertain && d.constant == ofNat 0) || (e.isCertain && e.constant == ofNat 0)) =
          false ∧
        productBound d e < ofNat wordMax ∧ productSize d e ≤ tableCapacity ∧
        ∃ left right table, d.normalizedOutcomes = .ok left ∧ e.normalizedOutcomes = .ok right ∧
          productTable (productSize d e) left right = .ok table ∧ x = ⟨ofNat 0, table⟩) := by
  obtain ⟨hd, he, htimes⟩ | ⟨hboth, hzero, htimes⟩ |
      ⟨hboth, hzero, ⟨-, n, htimes⟩ | ⟨hbound, hsize, htimes⟩⟩ := times_cases d e
  · exact .inl ⟨hd, he, (Except.ok.inj (htimes.symm.trans h)).symm⟩
  · exact .inr (.inl ⟨hboth, hzero, (Except.ok.inj (htimes.symm.trans h)).symm⟩)
  · cases htimes.symm.trans h
  · obtain ⟨right, hright, h⟩ := Except.bind_eq_ok_iff.mp (htimes.symm.trans h)
    obtain ⟨left, hleft, h⟩ := Except.bind_eq_ok_iff.mp h
    obtain ⟨table, htable, h⟩ := Except.bind_eq_ok_iff.mp h
    exact .inr (.inr ⟨hboth, hzero, hbound, hsize, left, right, table, hleft, hright, htable,
      (Except.ok.inj h).symm⟩)

end DiceOdds.Distribution
