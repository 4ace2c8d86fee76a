import DiceOdds.Proofs.Evaluation.Caps
import DiceOdds.Proofs.Evaluation.StaticCertainty
import DiceOdds.Proofs.Lookup.PastTable
import DiceOdds.Proofs.Combination

/-!
# The lookups of an evaluation

Of all that an evaluation does only looking up a probability can read past the end of a table. An
evaluation ends with that fault exactly if one of its lookups does (`endsPastTable_eval_iff`), and
no table that it looks into is larger than memory (`size_le_of_looksUp`). So whether a text ends
with the fault is a matter of the values and tables that meet in its lookups
(`pastTable_iff_overruns`).
-/

namespace DiceOdds

open Arithmetic

variable {α : Type}

/-- Whether an error is that of reading past the end of a table. -/
def DistributionError.IsPastTable : DistributionError α → Prop
  | fault (.pastTable _ _) => True
  | _ => False

/-- Whether an error is that of reading past the end of a table. -/
def RollError.IsPastTable : RollError α → Prop
  | distribution e => e.IsPastTable
  | _ => False

/-- An error that is no fault is not that of reading past the end of a table. -/
theorem RollError.not_isPastTable {e : RollError α} (h : e.fault? = none) : ¬ e.IsPastTable := by
  unfold fault? at h
  split at h
  · cases h
  next hfault =>
    cases e with
    | distribution e =>
      cases e with
      | fault f => exact absurd rfl (hfault f)
      | _ => exact id
    | _ => exact id

/-! ## Operations on distributions -/

namespace Distribution

/-- Whether an operation gives no table that is larger than memory, and reads no table past its
end. -/
def Contained [Memory] (x : Except (DistributionError α) (Distribution α)) : Prop :=
  x.Yields (fun d => d.size ≤ tableCapacity) fun e => ¬ e.IsPastTable

/-- A certain distribution has no table. -/
theorem contained_certain [Memory] (x : α) : Contained (.ok (certain x)) := Nat.zero_le _

/-- A table of equal weights fits in memory, or is not begun. -/
theorem contained_flat [Memory] (size : ℕ) (weight constant : α) :
    Contained (flat size weight constant) := by
  unfold flat
  split
  · exact id
  next hcap =>
    show (Array.replicate size weight).size ≤ tableCapacity
    rw [Array.size_replicate]
    omega

variable [Arithmetic α]

/-- The only error of normalizing is that there is no weight. -/
theorem yields_normalizer (d : Distribution α) :
    d.normalizer.Yields (fun _ => True) fun e => ¬ e.IsPastTable := by
  unfold normalizer
  dsimp only
  split
  · trivial
  · exact id

/-- The only error of normalizing outcomes is that there is no weight. -/
theorem yields_normalizedOutcomes (d : Distribution α) :
    d.normalizedOutcomes.Yields (fun _ => True) fun e => ¬ e.IsPastTable := by
  cases h : d.isCertain with
  | true =>
    rw [normalizedOutcomes_of_isCertain h]
    trivial
  | false =>
    rw [normalizedOutcomes_of_isUncertain h]
    exact (yields_normalizer d).bind fun _ _ => trivial

/-- The table of products has the size that it is made for. -/
theorem yields_productTable (size : ℕ) (left right : Array (α × α)) :
    (productTable size left right).Yields (fun table => table.size = size)
      fun e => ¬ e.IsPastTable := by
  refine (productTable_yields size Array.size_replicate
    fun table htable a _ b _ i => ?_).mono_error ?_
  · exact (Array.size_modify ..).trans htable
  · rintro _ ⟨a, -, b, -, -, rfl⟩
    exact id

/-- The only error of sampling is that there is no weight. -/
theorem yields_sample (d : Distribution α) :
    Rolling.Yields (fun _ => True) (fun e => ∃ total, e = .zeroWeight total) d.sample := by
  unfold sample
  split
  · exact fun _ => trivial
  · refine Rolling.Yields.bind (P := fun _ => True) (fun r => ?_) fun _ _ _ => trivial
    by_cases hpos : isPositiveFinite (RunningSums.ofWeights d.weights).total = true
    · rw [sampleIndex_of_isPositiveFinite hpos]
      trivial
    · rw [sampleIndex_of_not_isPositiveFinite hpos]
      exact ⟨_, rfl⟩

/-- Resolving may fail, but it does not stop. -/
theorem yields_resolve (d : Distribution α) :
    Rolling.Yields (fun _ => True) (fun e => e.fault? = none) d.resolve := by
  refine (yields_sample d).mapError ?_
  rintro _ ⟨total, rfl⟩
  rfl

/-- Counting dice may fail, but it does not stop. -/
theorem yields_diceCount (d : Distribution α) :
    Rolling.Yields (fun _ => True) (fun e => e.fault? = none) d.diceCount := by
  refine (yields_resolve d).bind fun value _ => ?_
  dsimp only
  split
  · exact fun _ => trivial
  · exact fun _ => rfl

variable [Memory]

/-- The table of a sum fits in memory if those of the operands do. -/
theorem contained_add {d e : Distribution α} (hd : d.size ≤ tableCapacity)
    (he : e.size ≤ tableCapacity) : Contained (d.add e) := by
  obtain ⟨-, hadd⟩ | ⟨-, -, hadd⟩ | ⟨-, -, hadd⟩ := add_cases d e
  · rw [hadd]
    exact he
  · rw [hadd]
    exact hd
  · rw [hadd]
    refine (yields_normalizer d).bind fun total _ => (yields_normalizer e).bind fun total' _ => ?_
    split
    · exact id
    next hcap =>
      show (convolution _ _).size ≤ tableCapacity
      rw [size_convolution, Array.size_map, Array.size_map]
      exact not_lt.mp hcap

/-- Every die that is added to some dice fits in memory. -/
theorem contained_addCopies {die : Distribution α} (hdie : die.size ≤ tableCapacity) (n : ℕ)
    {d : Distribution α} (hd : d.size ≤ tableCapacity) : Contained (addCopies die n d) := by
  induction n generalizing d with
  | zero => exact hd
  | succ n ih => exact (contained_add hd hdie).bind fun x hx => ih hx

/-- The table of some dice fits in memory. -/
theorem contained_uniformSum (count faces : ℕ) :
    Contained (uniformSum count faces : Except (DistributionError α) (Distribution α)) := by
  unfold uniformSum
  split
  · exact contained_certain _
  split
  · exact id
  · exact (contained_flat _ _ _).bind fun die hdie => contained_addCopies hdie _ hdie

/-- The table of a product fits in memory. -/
theorem contained_times (d e : Distribution α) : Contained (d.times e) := by
  obtain ⟨-, -, htimes⟩ | ⟨-, -, htimes⟩ | ⟨-, -, ⟨-, n, htimes⟩ | ⟨-, hcap, htimes⟩⟩ :=
    times_cases d e
  · rw [htimes]
    exact contained_certain _
  · rw [htimes]
    exact contained_certain _
  · rw [htimes]
    exact id
  · rw [htimes]
    refine (yields_normalizedOutcomes e).bind fun right _ =>
      (yields_normalizedOutcomes d).bind fun left _ =>
        (yields_productTable (productSize d e) left right).bind fun table htable => ?_
    exact htable.trans_le hcap

/-- A mean fits in memory. -/
theorem contained_mean {d : Distribution α} (hd : d.size ≤ tableCapacity) : Contained d.mean := by
  unfold mean
  split
  · exact hd
  · exact (yields_normalizer d).bind fun _ _ => contained_certain _

/-! ## Operations of expressions -/

/-- Whether an operation of an expression gives no table that is larger than memory, and reads no
table past its end. -/
def Kept (x : Evaluated α (Distribution α)) : Prop :=
  Rolling.Yields (fun d => d.size ≤ tableCapacity) (fun e => ¬ e.IsPastTable) x

/-- A roll is the distribution itself or has no table. -/
theorem kept_roll {d : Distribution α} (hd : d.size ≤ tableCapacity) : Kept d.roll := by
  unfold roll
  split
  · exact fun _ => hd
  · have hresolve := (yields_resolve d).mono_error fun _ => RollError.not_isPastTable
    exact hresolve.bind fun _ _ _ => contained_certain _

/-- A mean is the distribution itself or has no table. -/
theorem kept_avg {d : Distribution α} (hd : d.size ≤ tableCapacity) : Kept d.avg :=
  Rolling.yields_ofExcept ((contained_mean hd).mapError fun _ he => he)

end Distribution

namespace Limits

variable (limits : Limits)

/-- An error of building a table stays what it is, or becomes one of a cap. -/
theorem not_isPastTable_tableError {e : DistributionError α} (he : ¬ e.IsPastTable) :
    ¬ (limits.tableError e).IsPastTable := by
  cases e with
  | tableTooLarge outcomes => exact id
  | zeroWeight total => exact he
  | productOutOfRange value size => exact he
  | fault f => exact he

variable [Memory]

/-- A table stays within memory when its errors are described in terms of the limits. -/
theorem yields_mapError_tableError {x : Except (DistributionError α) (Distribution α)}
    (hx : Distribution.Contained x) : (x.mapError limits.tableError).Yields
      (fun d => d.size ≤ tableCapacity) fun e => ¬ e.IsPastTable :=
  hx.mapError fun _ he => limits.not_isPastTable_tableError he

variable [Arithmetic α]

/-- The product within limits fits in memory. -/
theorem yields_times (d e : Distribution α) :
    (limits.times d e).Yields (fun x => x.size ≤ tableCapacity) fun e => ¬ e.IsPastTable := by
  obtain ⟨h, -⟩ | ⟨m, h⟩ := limits.times_cases d e
  · rw [h]
    exact limits.yields_mapError_tableError (Distribution.contained_times d e)
  · rw [h]
    exact id

/-- The table of some dice within limits fits in memory. -/
theorem yields_diceTable (count faces : ℕ) :
    (limits.diceTable count faces : Except (RollError α) (Distribution α)).Yields
      (fun x => x.size ≤ tableCapacity) fun e => ¬ e.IsPastTable := by
  obtain ⟨-, h⟩ | ⟨-, h⟩ | ⟨-, m, h | h⟩ := limits.diceTable_cases (α := α) count faces
  · rw [h]
    exact Nat.zero_le _
  · rw [h]
    exact limits.yields_mapError_tableError (Distribution.contained_uniformSum count faces)
  · rw [h]
    exact id
  · rw [h]
    exact id

/-- An operator keeps its operands within memory, and reads no table past its end. -/
theorem kept_operate (op : Operator) {d e : Distribution α} (hd : d.size ≤ tableCapacity)
    (he : e.size ≤ tableCapacity) : Distribution.Kept (limits.operate op d e) := by
  cases op with
  | plus =>
    exact Rolling.yields_ofExcept ((Distribution.contained_add hd he).mapError fun _ he => he)
  | times => exact Rolling.yields_ofExcept (limits.yields_times d e)
  | dice =>
    have hcount (d : Distribution α) :=
      (Distribution.yields_diceCount d).mono_error fun _ => RollError.not_isPastTable
    exact (hcount d).bind fun count _ => (hcount e).bind fun faces _ =>
      Rolling.yields_ofExcept (limits.yields_diceTable count faces)

end Limits

/-! ## Evaluation -/

namespace Expr

variable [Arithmetic α] [Memory]

/-- Whether the evaluation of an expression looks up the value `v` in the distribution `d`, if it
gets that far on the draws of `r`. -/
def LooksUp (limits : Limits) : Expr α → Roller → α → Distribution α → Prop
  | int _, _, _, _ | decimal _, _, _, _ => False
  | paren e, r, v, d | roll e, r, v, d | avg e, r, v, d => e.LooksUp limits r v d
  | binary left _ right, r, v, d =>
    left.LooksUp limits r v d ∨
      ∃ x s, left.eval limits r = (.ok x, s) ∧ right.LooksUp limits s v d
  | prob target e, r, v, d =>
    target.LooksUp limits r v d ∨
      ∃ x s, target.eval limits r = (.ok x, s) ∧
        (e.LooksUp limits s v d ∨
          ∃ s₁ s₂, e.eval limits s = (.ok d, s₁) ∧ x.resolve s₁ = (.ok v, s₂))

/-- Evaluation gives no table that is larger than memory. -/
theorem size_eval_le (limits : Limits) (e : Expr α) {r r' : Roller} {d : Distribution α}
    (h : e.eval limits r = (.ok d, r')) : d.size ≤ tableCapacity := by
  induction e generalizing r r' d with
  | int n =>
    rw [← (Rolling.pure_eq_ok.mp h).1]
    exact Nat.zero_le _
  | decimal x =>
    rw [← (Rolling.pure_eq_ok.mp h).1]
    exact Nat.zero_le _
  | paren e ih => exact ih h
  | binary left op right ihl ihr =>
    obtain ⟨x, s, hx, h⟩ := Rolling.bind_eq_ok.mp h
    obtain ⟨y, s', hy, h⟩ := Rolling.bind_eq_ok.mp h
    have hkept := limits.kept_operate op (ihl hx) (ihr hy) s'
    rwa [h] at hkept
  | roll e ih =>
    obtain ⟨x, s, hx, h⟩ := Rolling.bind_eq_ok.mp h
    have hkept := Distribution.kept_roll (ih hx) s
    rwa [h] at hkept
  | avg e ih =>
    obtain ⟨x, s, hx, h⟩ := Rolling.bind_eq_ok.mp h
    have hkept := Distribution.kept_avg (ih hx) s
    rwa [h] at hkept
  | prob target e iht ihe =>
    obtain ⟨x, s, hx, h⟩ := Rolling.bind_eq_ok.mp h
    obtain ⟨y, s', hy, h⟩ := Rolling.bind_eq_ok.mp h
    have hcertain := Distribution.isCertain_prob h
    rw [Distribution.isCertain, Array.isEmpty_iff_size_eq_zero] at hcertain
    exact hcertain.trans_le (Nat.zero_le _)

/-- No table that is looked into is larger than memory. -/
theorem size_le_of_looksUp (limits : Limits) (e : Expr α) {r : Roller} {v : α}
    {d : Distribution α} (h : e.LooksUp limits r v d) : d.size ≤ tableCapacity := by
  induction e generalizing r with
  | int n => exact h.elim
  | decimal x => exact h.elim
  | paren e ih => exact ih h
  | roll e ih => exact ih h
  | avg e ih => exact ih h
  | binary left op right ihl ihr =>
    obtain h | ⟨x, s, -, h⟩ := h
    · exact ihl h
    · exact ihr h
  | prob target e iht ihe =>
    obtain h | ⟨x, s, -, h | ⟨s₁, s₂, hd, -⟩⟩ := h
    · exact iht h
    · exact ihe h
    · exact size_eval_le limits e hd

end Expr

/-- Whether a computation ends with reading past the end of a table. -/
def EndsPastTable {β : Type} (x : Evaluated α β) (r : Roller) : Prop :=
  ∃ i n, (x r).1 = .error (.distribution (.fault (.pastTable i n)))

section EndsPastTable

variable {β γ : Type}

/-- A sequence ends past a table exactly if its first part does, or else its second. -/
theorem endsPastTable_bind {x : Evaluated α β} {f : β → Evaluated α γ} {r : Roller} :
    EndsPastTable (x >>= f) r ↔
      EndsPastTable x r ∨ ∃ b s, x r = (.ok b, s) ∧ EndsPastTable (f b) s := by
  unfold EndsPastTable
  simp only [Rolling.bind_fst_eq_error]
  constructor
  · rintro ⟨i, n, h | ⟨b, s, hb, h⟩⟩
    · exact .inl ⟨i, n, h⟩
    · exact .inr ⟨b, s, hb, i, n, h⟩
  · rintro (⟨i, n, h⟩ | ⟨b, s, hb, i, n, h⟩)
    · exact ⟨i, n, .inl h⟩
    · exact ⟨i, n, .inr ⟨b, s, hb, h⟩⟩

/-- What yields other errors only does not end past a table. -/
theorem not_endsPastTable {P : β → Prop} {x : Evaluated α β}
    (hx : Rolling.Yields P (fun e => ¬ e.IsPastTable) x) (r : Roller) : ¬ EndsPastTable x r := by
  rintro ⟨i, n, h⟩
  have hyields := hx r
  rw [h] at hyields
  exact hyields trivial

/-- A sequence whose second part never ends past a table does so only if its first part does. -/
theorem endsPastTable_bind_left {x : Evaluated α β} {f : β → Evaluated α γ} {r : Roller}
    (hf : ∀ b s, x r = (.ok b, s) → ¬ EndsPastTable (f b) s) :
    EndsPastTable (x >>= f) r ↔ EndsPastTable x r := by
  rw [endsPastTable_bind, or_iff_left]
  rintro ⟨b, s, hb, h⟩
  exact hf b s hb h

/-- A result does not end past a table. -/
theorem not_endsPastTable_pure (b : β) (r : Roller) :
    ¬ EndsPastTable (pure b : Evaluated α β) r := by
  rintro ⟨i, n, h⟩
  cases h

/-- An operation on distributions that takes no draw ends past a table if that is its error. -/
theorem endsPastTable_ofExcept {x : Except (DistributionError α) β} {r : Roller} :
    EndsPastTable (.ofExcept (x.mapError .distribution)) r ↔
      ∃ i n, x = .error (.fault (.pastTable i n)) := by
  refine exists_congr fun i => exists_congr fun n => ?_
  cases x with
  | ok b => exact iff_of_false (fun h => by cases h) fun h => by cases h
  | error e =>
    show Except.error (RollError.distribution e) = _ ↔ _
    simp only [Except.error.injEq, RollError.distribution.injEq]

variable [Arithmetic α]

/-- If each part of a sequence ends past a table exactly if it looks up, by `L` and by `K`, a value
whose slot is past the end, the sequence does so exactly if it looks one up in either part. -/
theorem endsPastTable_bind_iff {x : Evaluated α β} {f : β → Evaluated α γ} {r : Roller}
    {L : α → Distribution α → Prop} {K : β → Roller → α → Distribution α → Prop}
    (hx : EndsPastTable x r ↔ ∃ v d, L v d ∧ d.ReadsPast v)
    (hf : ∀ b s, x r = (.ok b, s) →
      (EndsPastTable (f b) s ↔ ∃ v d, K b s v d ∧ d.ReadsPast v)) :
    EndsPastTable (x >>= f) r ↔
      ∃ v d, (L v d ∨ ∃ b s, x r = (.ok b, s) ∧ K b s v d) ∧ d.ReadsPast v := by
  rw [endsPastTable_bind, hx]
  constructor
  · rintro (⟨v, d, hlook, hpast⟩ | ⟨b, s, hb, h⟩)
    · exact ⟨v, d, .inl hlook, hpast⟩
    · obtain ⟨v, d, hlook, hpast⟩ := (hf b s hb).mp h
      exact ⟨v, d, .inr ⟨b, s, hb, hlook⟩, hpast⟩
  · rintro ⟨v, d, hlook | ⟨b, s, hb, hlook⟩, hpast⟩
    · exact .inl ⟨v, d, hlook, hpast⟩
    · exact .inr ⟨b, s, hb, (hf b s hb).mpr ⟨v, d, hlook, hpast⟩⟩

/-- A probability ends past a table exactly if the lookup of what the target resolves to does. -/
theorem Distribution.endsPastTable_prob {target d : Distribution α} {r : Roller} :
    EndsPastTable (target.prob d) r ↔ ∃ v s, target.resolve r = (.ok v, s) ∧ d.ReadsPast v := by
  unfold prob
  have hresolve := (yields_resolve target).mono_error fun _ => RollError.not_isPastTable
  rw [endsPastTable_bind, or_iff_right (not_endsPastTable hresolve r)]
  refine exists_congr fun v => exists_congr fun s => and_congr_right fun _ => ?_
  rw [endsPastTable_bind_left fun p s _ => not_endsPastTable_pure _ _]
  exact endsPastTable_ofExcept

end EndsPastTable

section Texts

variable [Arithmetic α] [Memory]

/-- An evaluation ends past a table exactly if it looks up a value whose slot is past the end. -/
theorem Expr.endsPastTable_eval_iff (limits : Limits) (e : Expr α) (r : Roller) :
    EndsPastTable (e.eval limits) r ↔ ∃ v d, e.LooksUp limits r v d ∧ d.ReadsPast v := by
  induction e generalizing r with
  | int n => exact iff_of_false (not_endsPastTable_pure _ r) fun ⟨_, _, h, _⟩ => h
  | decimal x => exact iff_of_false (not_endsPastTable_pure _ r) fun ⟨_, _, h, _⟩ => h
  | paren e ih => exact ih r
  | roll e ih =>
    refine (endsPastTable_bind_left fun x s hx => ?_).trans (ih r)
    exact not_endsPastTable (Distribution.kept_roll (size_eval_le limits e hx)) s
  | avg e ih =>
    refine (endsPastTable_bind_left fun x s hx => ?_).trans (ih r)
    exact not_endsPastTable (Distribution.kept_avg (size_eval_le limits e hx)) s
  | binary left op right ihl ihr =>
    refine endsPastTable_bind_iff (ihl r) fun x s hx => ?_
    refine (endsPastTable_bind_left fun y s' hy => ?_).trans (ihr s)
    exact not_endsPastTable (limits.kept_operate op (size_eval_le limits left hx)
      (size_eval_le limits right hy)) s'
  | prob target e iht ihe =>
    refine endsPastTable_bind_iff (iht r) fun x s _ => ?_
    refine endsPastTable_bind.trans ?_
    simp only [ihe, Distribution.endsPastTable_prob]
    constructor
    · rintro (⟨v, d, hlook, hpast⟩ | ⟨d, s₁, hd, v, s₂, hv, hpast⟩)
      · exact ⟨v, d, .inl hlook, hpast⟩
      · exact ⟨v, d, .inr ⟨s₁, s₂, hd, hv⟩, hpast⟩
    · rintro ⟨v, d, hlook | ⟨s₁, s₂, hd, hv⟩, hpast⟩
      · exact .inl ⟨v, d, hlook, hpast⟩
      · exact .inr ⟨d, s₁, hd, v, s₂, hv, hpast⟩

/-- A text ends past a table exactly if it is an expression whose evaluation looks up a value whose
slot is past the end. -/
theorem endsPastTable_rollText_iff (limits : Limits) (text : String) (r : Roller) :
    (∃ i n, ((rollText limits text : Rolling (TextError α) (Outcome α)) r).1 =
        .error (.roll (.distribution (.fault (.pastTable i n))))) ↔
      ∃ (e : Expr α) (v : α) (d : Distribution α), Expr.parse text = .ok e ∧
        e.LooksUp limits r v d ∧ d.ReadsPast v := by
  have hevaluate (e : Expr α) : EndsPastTable (e.evaluate limits) r ↔
      ∃ v d, e.LooksUp limits r v d ∧ d.ReadsPast v := by
    refine (endsPastTable_bind_left fun d s _ => ?_).trans (e.endsPastTable_eval_iff limits r)
    rw [endsPastTable_bind_left fun v s' _ => not_endsPastTable_pure _ _]
    exact not_endsPastTable
      ((Distribution.yields_resolve d).mono_error fun _ => RollError.not_isPastTable) s
  unfold rollText
  simp only [Rolling.bind_apply]
  cases hparse : (Expr.parse text : Except ParseError (Expr α)) with
  | error e => exact iff_of_false (fun ⟨_, _, h⟩ => by cases h) fun ⟨_, _, _, h, _⟩ => by cases h
  | ok e =>
    have hroll (i n : ℕ) : ((e.evaluate limits r).1.mapError TextError.roll =
        .error (.roll (.distribution (.fault (.pastTable i n))))) ↔
          (e.evaluate limits r).1 = .error (.distribution (.fault (.pastTable i n))) := by
      cases (e.evaluate limits r).1 with
      | ok o => exact iff_of_false (fun h => by cases h) fun h => by cases h
      | error e' =>
        show Except.error (TextError.roll e') = _ ↔ _
        simp only [Except.error.injEq, TextError.roll.injEq]
    refine (exists_congr fun i => exists_congr fun n => hroll i n).trans
      ((hevaluate e).trans ?_)
    simp only [Except.ok.injEq, exists_eq_left', exists_and_left]

end Texts

/-! ## Doubles -/

open Binary64 in
/-- Over doubles lookup reads past the end of a table of no more slots than 53 bits can number for
no value but the largest, and for that exactly if it is rounded too far from the constant. That
happens for no constant below `2 ^ 53` less the size of the table. Where memory holds no larger
table, a text ends with that fault exactly if its evaluation looks such a value up, whatever the
draws. -/
theorem pastTable_iff_overruns [Memory] (hmemory : tableCapacity ≤ 2 ^ 53) (limits : Limits)
    (text : String) (r : Roller) (d : Distribution Float) (v : Float) (hsize : d.size ≤ 2 ^ 53) :
    ((∃ i n, d.probabilityOf v = .error (.fault (.pastTable i n))) ↔ d.Overruns v) ∧
    (|value d.constant| + d.size < 2 ^ 53 → d.size < 2 ^ 52 → ¬ d.Overruns v) ∧
    ((∃ i n, ((rollText limits text : Rolling (TextError Float) (Outcome Float)) r).1 =
        .error (.roll (.distribution (.fault (.pastTable i n))))) ↔
      ∃ (e : Expr Float) (x : Float) (table : Distribution Float), Expr.parse text = .ok e ∧
        e.LooksUp limits r x table ∧ table.Overruns x) := by
  refine ⟨Distribution.readsPast_iff_overruns hsize, fun hc hsize h =>
    Distribution.not_overshoots hc hsize h.overshoots, ?_⟩
  rw [endsPastTable_rollText_iff]
  refine exists_congr fun e => exists_congr fun x => exists_congr fun table =>
    and_congr_right fun _ => and_congr_right fun hlook => ?_
  exact Distribution.readsPast_iff_overruns ((e.size_le_of_looksUp limits hlook).trans hmemory)

/-- Above `2 ^ 54` every fourth whole number is a double, so three slots have the largest value 4
above the constant; above one half two slots are never overrun. -/
theorem pastTable_iff_overruns_large :
    Distribution.Overruns ⟨18014398509481984, #[1, 1, 1]⟩ 18014398509481988 ∧
      ∀ v, ¬ Distribution.Overruns ⟨0.5, #[1, 3]⟩ v := by
  have run (d : Distribution Float) (v : Float) (hsize : d.size ≤ 2 ^ 53) :=
    pastTable_iff_overruns (by decide) {} "1d3" (Roller.ofStream fun _ => 0) d v hsize
  constructor
  · exact (run _ _ (by decide)).1.mp ⟨3, 3, by decide +kernel⟩
  · intro v
    exact (run _ v (by decide)).2.1 (by decide +kernel) (by decide)

/-- The probability that `1d3 + 18014398509481984` gives 18014398509481988 is read past the end of
the table of three slots. -/
theorem not_forall_within_table :
    (¬ ∀ (d : Distribution Float) (v : Float), d.constant.isFinite → ¬ d.ReadsPast v) ∧
    ¬ ∀ (limits : Limits) (text : String) (r : Roller) (i n : ℕ),
      ((rollText limits text : Rolling (TextError Float) (Outcome Float)) r).1 ≠
        .error (.roll (.distribution (.fault (.pastTable i n)))) := by
  constructor
  · intro h
    exact h ⟨18014398509481984, #[1, 1, 1]⟩ 18014398509481988 (by decide +kernel)
      ⟨3, 3, by decide +kernel⟩
  · intro h
    have hrun := h {} "prob(18014398509481988, 1d3 + 18014398509481984)"
      (Roller.ofStream fun _ => 0) 3 3
    -- Outcomes have no decidable equality, so the run is compared without them.
    have herror : ((rollText {} "prob(18014398509481988, 1d3 + 18014398509481984)"
        (Roller.ofStream fun _ => 0)).1.map fun (_ : Outcome Float) => ()) =
          .error (.roll (.distribution (.fault (.pastTable 3 3)))) := by
      decide +kernel
    revert hrun herror
    cases (rollText {} "prob(18014398509481988, 1d3 + 18014398509481984)"
        (Roller.ofStream fun _ => 0) : Except (TextError Float) (Outcome Float) × Roller).1 with
    | ok o =>
      intro _ herror
      cases herror
    | error e =>
      intro hrun herror
      exact hrun (congrArg Except.error (Except.error.inj herror))

end DiceOdds
