import DiceOdds.Proofs.Binary64.Sums
import DiceOdds.Proofs.Evaluation.Drawless
import DiceOdds.Proofs.Evaluation.TableSize

/-!
# Dice that do not fit in memory

A sum of tables that is larger than memory is an error like any other, and so are dice if it is
only together that they are too large. But the table of the first die is not a sum: if it does not
fit by itself there is no error, and evaluation stops (`Limits.dice_beyond_memory`).

That some dice meet no other error on their way to such a size is a matter of rounding. The tables
are normalized again and again, and a table without a positive finite total could not be. In
doubles the tables of dice stay balanced (`Balanced`): some slot keeps a part of the total that
does not depend on how many dice there are.
-/

namespace DiceOdds

open Arithmetic Binary64

namespace Distribution

/-! ## Convolution -/

section Convolution

variable {p q : Array Float}

/-- A slot of a convolution is a sum, from left to right, of the products that belong there. -/
theorem convolutionAt_eq_foldl (p q : Array Float) (k : ℕ) :
    ∃ terms : List Float, convolutionAt p q k = terms.foldl (· + ·) (ofNat 0) ∧
      ∀ x, x ∈ terms ↔
        ∃ (i j : ℕ) (hi : i < p.size) (hj : j < q.size), i + j + 1 = k ∧ x = p[i] * q[j] := by
  refine ⟨(List.finRange (min p.size k - (k - q.size))).map fun l : Fin _ =>
    p[k - q.size + l] * q[k - 1 - (k - q.size + l)], ?_, fun x => ?_⟩
  · rw [convolutionAt, List.foldl_map]
    exact Nat.fold_eq_finRange_foldl ..
  · rw [List.mem_map]
    constructor
    · rintro ⟨l, -, rfl⟩
      exact ⟨k - q.size + l, k - 1 - (k - q.size + l), by omega, by omega, by omega, rfl⟩
    · rintro ⟨i, j, hi, hj, hk, rfl⟩
      refine ⟨⟨i - (k - q.size), by omega⟩, List.mem_finRange _, ?_⟩
      congr 2
      · show k - q.size + (i - (k - q.size)) = i
        omega
      · show k - 1 - (k - q.size + (i - (k - q.size))) = j
        omega

/-- A slot of a convolution of shares is not negative or large, and no smaller than any of the
products that belong there. -/
theorem exists_hasValue_convolutionAt (hp : ∀ x ∈ p, Between 0 1 x) (hq : ∀ y ∈ q, Between 0 1 y)
    (k : ℕ) : ∃ s, HasValue (convolutionAt p q k) s ∧ 0 ≤ s ∧ s ≤ 2 ^ (54 : ℤ) ∧
      ∀ (i j : ℕ) (hi : i < p.size) (hj : j < q.size), i + j + 1 = k →
        ∀ v, HasValue (p[i] * q[j]) v → v ≤ s := by
  obtain ⟨terms, hterms, hmem⟩ := convolutionAt_eq_foldl p q k
  have hbetween : ∀ x ∈ terms, Between 0 (2 ^ (0 : ℤ)) x := by
    intro x hx
    obtain ⟨i, j, hi, hj, -, rfl⟩ := (hmem x).mp hx
    have hzero : Representable (0 * 0) := by
      simpa using representable_natCast (n := 0) (by norm_num)
    simpa using (hp _ (Array.getElem_mem hi)).mul (hq _ (Array.getElem_mem hj)) le_rfl le_rfl hzero
  have hstart : HasValue (ofNat 0 : Float) ((0 : ℕ) : ℚ) := hasValue_ofNat_of_le (by norm_num)
  rw [Nat.cast_zero] at hstart
  obtain ⟨s, hs, hnonneg, hle, hbound⟩ := exists_hasValue_foldl (by norm_num) (by norm_num) terms
    hbetween hstart le_rfl (by positivity)
  exact ⟨s, hterms ▸ hs, hnonneg, hle, fun i j hi hj hk v hv =>
    hbound _ ((hmem _).mpr ⟨i, j, hi, hj, hk, rfl⟩) v hv⟩

/-- A convolution of shares, of which one on either side is not small, is balanced. -/
theorem balanced_convolution (hp : ∀ x ∈ p, Between 0 1 x) (hq : ∀ y ∈ q, Between 0 1 y)
    (hlarge : ∃ x ∈ p, Between (2 ^ (-55 : ℤ)) 1 x)
    (hlarge' : ∃ y ∈ q, Between (2 ^ (-55 : ℤ)) 1 y) : Balanced (convolution p q) := by
  have hslot := exists_hasValue_convolutionAt hp hq
  have hget {k : ℕ} (hk : k < (convolution p q).size) :
      (convolution p q)[k] = convolutionAt p q k := Array.getElem_ofFn _
  refine ⟨fun w hw => ?_, ?_⟩
  · obtain ⟨k, hk, rfl⟩ := Array.mem_iff_getElem.mp hw
    obtain ⟨s, hs, hnonneg, hle, -⟩ := hslot k
    rw [hget hk]
    exact ⟨s, hs, hnonneg, hle⟩
  · obtain ⟨x, hx, hxlow⟩ := hlarge
    obtain ⟨y, hy, hylow⟩ := hlarge'
    obtain ⟨i, hi, rfl⟩ := Array.mem_iff_getElem.mp hx
    obtain ⟨j, hj, rfl⟩ := Array.mem_iff_getElem.mp hy
    have hk : i + j + 1 < (convolution p q).size := by
      rw [size_convolution]
      omega
    have hpower : (2 : ℚ) ^ (-55 : ℤ) * 2 ^ (-55 : ℤ) = 2 ^ (-110 : ℤ) := by norm_num
    obtain ⟨v, hv, hlow, -⟩ := hxlow.mul hylow (by positivity) (by positivity)
      (hpower ▸ representable_two_zpow (by norm_num))
    obtain ⟨s, hs, -, hle, hbound⟩ := hslot (i + j + 1)
    refine ⟨_, Array.getElem_mem hk, ?_⟩
    rw [hget hk]
    exact ⟨s, hs, hpower ▸ hlow.trans (hbound i j hi hj rfl v hv), hle⟩

end Convolution

/-! ## Tables of dice -/

variable {d e die : Distribution Float}

/-- The table of one die is balanced. -/
theorem balanced_replicate_one {faces : ℕ} (hpos : 0 < faces) :
    Balanced (Array.replicate faces (ofNat 1)) := by
  have hone : HasValue (ofNat 1 : Float) ((1 : ℕ) : ℚ) := hasValue_ofNat_of_le (by norm_num)
  rw [Nat.cast_one] at hone
  refine ⟨fun w hw => ?_, ?_⟩
  · rw [(Array.mem_replicate.mp hw).2]
    exact ⟨1, hone, zero_le_one, by norm_num⟩
  · exact ⟨_, Array.mem_replicate.mpr ⟨hpos.ne', rfl⟩, 1, hone, by norm_num, by norm_num⟩

variable [Memory]

/-- Balanced tables have a balanced sum, unless it does not fit in memory. -/
theorem add_of_balanced (hd : Balanced d.weights) (he : Balanced e.weights) :
    (d.add e).Yields (fun x => Balanced x.weights ∧ d.size + e.size ≤ tableCapacity) fun err =>
      tableCapacity < d.size + e.size ∧ ∃ n, err = .tableTooLarge n := by
  have hnormalizer {d : Distribution Float} (hd : Balanced d.weights) :
      d.normalizer = .ok (sum d.weights) := if_pos hd.isPositiveFinite_sum
  have huncertain {d : Distribution Float} (hd : Balanced d.weights) : ¬ d.isCertain = true := by
    obtain ⟨w, hw, -⟩ := hd.exists_heavy
    intro hcertain
    rw [Array.isEmpty_iff.mp hcertain] at hw
    exact Array.not_mem_empty w hw
  have hshares {d : Distribution Float} (hd : Balanced d.weights) :
      (∀ x ∈ d.weights.map (· / sum d.weights), Between 0 1 x) ∧
        ∃ x ∈ d.weights.map (· / sum d.weights), Between (2 ^ (-55 : ℤ)) 1 x := by
    constructor
    · intro x hx
      obtain ⟨w, hw, rfl⟩ := Array.mem_map.mp hx
      exact hd.between_zero_one hw
    · obtain ⟨w, hw, hlow⟩ := hd.exists_share
      exact ⟨_, Array.mem_map.mpr ⟨w, hw, rfl⟩, hlow⟩
  obtain ⟨hcertain, -⟩ | ⟨-, hcertain, -⟩ | ⟨-, -, hadd⟩ := add_cases d e
  · exact absurd hcertain (huncertain hd)
  · exact absurd hcertain (huncertain he)
  rw [hadd, hnormalizer hd, hnormalizer he]
  show Except.Yields _ _ (if tableCapacity < d.size + e.size then _ else _)
  split
  next hcap => exact ⟨hcap, _, rfl⟩
  next hcap =>
    obtain ⟨hd1, hdlow⟩ := hshares hd
    obtain ⟨he1, helow⟩ := hshares he
    exact ⟨balanced_convolution hd1 he1 hdlow helow, not_lt.mp hcap⟩

/-- Copies of a balanced die are added up until all are, or until they do not fit in memory. -/
theorem addCopies_of_balanced (hdie : Balanced die.weights) (n : ℕ) (hd : Balanced d.weights)
    (hcap : d.size ≤ tableCapacity) :
    (addCopies die n d).Yields (fun _ => d.size + n * die.size ≤ tableCapacity) fun err =>
      tableCapacity < d.size + n * die.size ∧ ∃ m, err = .tableTooLarge m := by
  induction n generalizing d with
  | zero =>
    show d.size + 0 * die.size ≤ tableCapacity
    rwa [zero_mul, add_zero]
  | succ n ih =>
    have hsum : d.size + (n + 1) * die.size = d.size + die.size + n * die.size := by ring
    have hadd := add_of_balanced hd hdie
    unfold addCopies
    rcases h : d.add die with err | y
    · rw [h] at hadd
      rw [hsum]
      exact ⟨hadd.1.trans_le (Nat.le_add_right _ _), hadd.2⟩
    · rw [h] at hadd
      rw [hsum, ← size_add h]
      exact ih hadd.1 ((size_add h).trans_le hadd.2)

/-- Whether the table of the first of some dice is larger than memory, and is begun. -/
def Overfills (count faces : ℕ) : Prop := tableCapacity < faces ∧ count * faces ≤ wordMax

/-- If that is so, adding up the dice stops. -/
theorem uniformSum_of_overfills {count faces : ℕ} (hcount : 0 < count)
    (h : Overfills count faces) :
    (uniformSum count faces : Except (DistributionError Float) (Distribution Float)) =
      .error (.fault (.tableCapacity faces)) := by
  obtain ⟨hcap, hword⟩ := h
  unfold uniformSum
  rw [if_neg (by rw [Bool.or_eq_true, decide_eq_true_eq, decide_eq_true_eq]; omega),
    if_neg (not_lt.mpr hword), flat, if_pos hcap]
  rfl

/-- If it is not so, they are added up until all are, or until they do not fit in memory. -/
theorem uniformSum_of_not_overfills {count faces : ℕ} (hcount : 0 < count) (hfaces : 0 < faces)
    (h : ¬ Overfills count faces) :
    (uniformSum count faces : Except (DistributionError Float) (Distribution Float)).Yields
      (fun _ => count * faces ≤ tableCapacity) fun err =>
        tableCapacity < count * faces ∧ ∃ n, err = .tableTooLarge n := by
  have hmemory : tableCapacity < wordMax := tableCapacity_lt_wordMax
  unfold uniformSum
  rw [if_neg (by rw [Bool.or_eq_true, decide_eq_true_eq, decide_eq_true_eq]; omega)]
  split
  next hword => exact ⟨hmemory.trans hword, _, rfl⟩
  next hword =>
    have hcap : faces ≤ tableCapacity := not_lt.mp fun hcap => h ⟨hcap, not_lt.mp hword⟩
    rw [flat, if_neg (not_lt.mpr hcap)]
    show (addCopies ⟨ofNat 0, Array.replicate faces (ofNat 1)⟩ (count - 1)
      ⟨ofNat 0, Array.replicate faces (ofNat 1)⟩).Yields _ _
    generalize hdie : (⟨ofNat 0, Array.replicate faces (ofNat 1)⟩ : Distribution Float) = die
    have hsize : die.size = faces := by
      rw [← hdie]
      exact Array.size_replicate
    have hbalanced : Balanced die.weights := by
      rw [← hdie]
      exact balanced_replicate_one hfaces
    have htotal : faces + (count - 1) * faces = count * faces := by
      obtain ⟨n, rfl⟩ := Nat.exists_eq_add_one_of_ne_zero hcount.ne'
      rw [Nat.add_sub_cancel]
      ring
    -- Every table on the way to the last one is balanced, so no normalizing fails.
    have hcopies := addCopies_of_balanced hbalanced (count - 1) hbalanced
      (hsize.trans_le hcap)
    rwa [hsize, htotal] at hcopies

end Distribution

/-! ## Dice of an expression -/

namespace Limits

variable (limits : Limits) {d e : Distribution Float} {count faces : ℕ}

/-- Whether `d` and `e` resolve, on the draws of `r`, to a count of dice and their faces which
neither cap stops. -/
def Asks (limits : Limits) (d e : Distribution Float) (r : Roller) (count faces : ℕ) : Prop :=
  (∃ s s', d.diceCount r = (.ok count, s) ∧ e.diceCount s = (.ok faces, s')) ∧
    limits.Admits Float count faces

/-- Without caps all dice are begun. -/
theorem admits_unbounded (hcount : 0 < count) (hfaces : 0 < faces) :
    unbounded.Admits Float count faces :=
  ⟨hcount, hfaces, nofun, nofun⟩

/-- Certain numbers of dice and of faces are asked for on any draws, as none is needed. -/
theorem asks_of_isCertain {limits : Limits} {r : Roller} (hd : d.isCertain = true)
    (he : e.isCertain = true) (hcount : (d.diceCount r).1 = .ok count)
    (hfaces : (e.diceCount r).1 = .ok faces) (h : limits.Admits Float count faces) :
    limits.Asks d e r count faces := by
  have hrun {x : Distribution Float} {n : ℕ} (hx : x.isCertain = true)
      (hn : (x.diceCount r).1 = .ok n) : x.diceCount r = (.ok n, r) := by
    obtain ⟨result, hresult, -⟩ := (Distribution.drawless_diceCount hx).apply r r
    rw [hresult] at hn ⊢
    exact Prod.ext hn rfl
  exact ⟨⟨r, r, hrun hd hcount, hrun he hfaces⟩, h⟩

section Dice

variable [Memory]

/-- Dice that neither cap stops are begun. -/
theorem Admits.diceTable_eq {limits : Limits} (h : limits.Admits Float count faces) :
    (limits.diceTable count faces : Except (RollError Float) (Distribution Float)) =
      (Distribution.uniformSum count faces).mapError limits.tableError := by
  obtain ⟨hzero, -⟩ | ⟨-, htable⟩ | ⟨hexceeds, -⟩ := limits.diceTable_cases (α := Float) count faces
  · have hcount := h.count_pos
    have hfaces := h.faces_pos
    omega
  · exact htable
  · exact absurd h hexceeds

/-- Dice that are none, or that a cap stops, do not stop evaluation. -/
theorem yields_diceTable_of_not_admits (h : ¬ limits.Admits Float count faces) :
    (limits.diceTable count faces : Except (RollError Float) (Distribution Float)).Yields
      (fun _ => True) fun err => err.fault? = none := by
  obtain ⟨-, htable⟩ | ⟨hadmits, -⟩ | ⟨-, m, htable | htable⟩ :=
    limits.diceTable_cases (α := Float) count faces
  · rw [htable]
    trivial
  · exact absurd hadmits h
  · rw [htable]
    rfl
  · rw [htable]
    rfl

/-- What is asked for is begun. -/
theorem Asks.dice_fst_eq {limits : Limits} {r : Roller} (h : limits.Asks d e r count faces) :
    (limits.dice d e r).1 = (Distribution.uniformSum count faces).mapError limits.tableError := by
  obtain ⟨⟨s, s', hcount, hfaces⟩, hadmits⟩ := h
  unfold Limits.dice
  rw [Rolling.bind_apply, hcount]
  dsimp only
  rw [Rolling.bind_apply, hfaces]
  exact hadmits.diceTable_eq

/-- Dice that stop evaluation were asked for. -/
theorem exists_asks_of_fault {r : Roller} {f : Fault}
    (h : (limits.dice d e r).1 = .error (.distribution (.fault f))) :
    ∃ count faces, limits.Asks d e r count faces := by
  have hcounted {d : Distribution Float} {r : Roller} :
      (d.diceCount r).1 ≠ .error (.distribution (.fault f)) := by
    intro hfault
    have hyields := d.yields_diceCount r
    rw [hfault] at hyields
    cases hyields
  unfold Limits.dice at h
  obtain h | ⟨count, s, hcount, h⟩ := Rolling.bind_fst_eq_error.mp h
  · exact absurd h hcounted
  obtain h | ⟨faces, s', hfaces, h⟩ := Rolling.bind_fst_eq_error.mp h
  · exact absurd h hcounted
  refine ⟨count, faces, ⟨s, s', hcount, hfaces⟩, by_contra fun hadmits => ?_⟩
  have hyields := limits.yields_diceTable_of_not_admits hadmits
  rw [show limits.diceTable count faces = _ from h] at hyields
  cases hyields

/-- In doubles some dice stop evaluation exactly if neither cap stops them, the table of the first
of them is larger than memory, and a word can hold the size of them all. All others that neither cap
stops and that are larger than memory are an error, whichever of their count and their faces is the
large one. -/
theorem dice_beyond_memory (limits : Limits) (d e : Distribution Float) (r : Roller) :
    (∀ f, (limits.dice d e r).1 = .error (.distribution (.fault f)) ↔
      ∃ count faces, limits.Asks d e r count faces ∧ Distribution.Overfills count faces ∧
        f = .tableCapacity faces) ∧
    ∀ count faces, limits.Asks d e r count faces → tableCapacity < count * faces →
      ¬ Distribution.Overfills count faces →
        ∃ n, (limits.dice d e r).1 =
          .error (.tooManyOutcomes n (limits.maxOutcomes.getD wordMax)) := by
  refine ⟨fun f => ⟨fun h => ?_, ?_⟩, fun count faces hasks hcap hfills => ?_⟩
  · obtain ⟨count, faces, hasks⟩ := limits.exists_asks_of_fault h
    rw [hasks.dice_fst_eq] at h
    by_cases hfills : Distribution.Overfills count faces
    · rw [Distribution.uniformSum_of_overfills hasks.2.count_pos hfills] at h
      cases h
      exact ⟨count, faces, hasks, hfills, rfl⟩
    · have hyields := Distribution.uniformSum_of_not_overfills hasks.2.count_pos
        hasks.2.faces_pos hfills
      rcases hsum : (Distribution.uniformSum count faces :
          Except (DistributionError Float) (Distribution Float)) with err | x
      · rw [hsum] at hyields h
        obtain ⟨-, n, rfl⟩ := hyields
        cases h
      · rw [hsum] at h
        cases h
  · rintro ⟨count, faces, hasks, hfills, rfl⟩
    rw [hasks.dice_fst_eq, Distribution.uniformSum_of_overfills hasks.2.count_pos hfills]
    rfl
  · have hyields := Distribution.uniformSum_of_not_overfills hasks.2.count_pos hasks.2.faces_pos
      hfills
    rw [hasks.dice_fst_eq]
    rcases hsum : (Distribution.uniformSum count faces :
        Except (DistributionError Float) (Distribution Float)) with err | x
    · rw [hsum] at hyields
      obtain ⟨-, n, rfl⟩ := hyields
      exact ⟨n, rfl⟩
    · rw [hsum] at hyields
      exact absurd hcap (not_lt.mpr hyields)

end Dice

/-- Of a table of `2 ^ 60` slots without caps, one die that has them all stops evaluation, and as
many dice with one face each are an error. -/
theorem dice_beyond_memory_exa :
    let r := Roller.ofStream fun _ => 0
    (unbounded.dice (.certain 1) (.certain 1152921504606846976) r).1 =
      .error (.distribution (.fault (.tableCapacity 1152921504606846976)) : RollError Float) ∧
    ∃ n, (unbounded.dice (.certain 1152921504606846976) (.certain 1) r).1 =
      .error (.tooManyOutcomes n 18446744073709551615 : RollError Float) := by
  intro r
  have hfaces : unbounded.Asks (.certain 1) (.certain 1152921504606846976) r 1
      1152921504606846976 :=
    asks_of_isCertain rfl rfl (by decide +kernel) (by decide +kernel)
      (admits_unbounded (by decide) (by decide))
  have hcount : unbounded.Asks (.certain 1152921504606846976) (.certain 1) r
      1152921504606846976 1 :=
    asks_of_isCertain rfl rfl (by decide +kernel) (by decide +kernel)
      (admits_unbounded (by decide) (by decide))
  refine ⟨((dice_beyond_memory _ _ _ r).1 _).mpr ⟨_, _, hfaces, ⟨by decide, by decide⟩, rfl⟩,
    (dice_beyond_memory _ _ _ r).2 _ _ hcount (by decide) fun hfills => ?_⟩
  exact absurd hfills.1 (by decide)

/-- Not all dice that no cap stops give a table or an error, nor is there always the error that
they have too many outcomes if they have `2 ^ 60` or more: one die that has them all stops
evaluation. -/
theorem not_forall_dice_error :
    (¬ ∀ (limits : Limits) (d e : Distribution Float) (r : Roller) (f : Fault),
      (limits.dice d e r).1 ≠ .error (.distribution (.fault f))) ∧
    ¬ ∀ (limits : Limits) (d e : Distribution Float) (r : Roller) (count faces : ℕ),
      limits.Asks d e r count faces → 2 ^ 60 ≤ count * faces →
        ∃ n m, (limits.dice d e r).1 = .error (.tooManyOutcomes n m) := by
  have hasks : unbounded.Asks (.certain 1) (.certain 1152921504606846976)
      (Roller.ofStream fun _ => 0) 1 1152921504606846976 :=
    asks_of_isCertain rfl rfl (by decide +kernel) (by decide +kernel)
      (admits_unbounded (by decide) (by decide))
  have hstops := hasks.dice_fst_eq
  rw [Distribution.uniformSum_of_overfills (by decide) ⟨by decide, by decide⟩] at hstops
  refine ⟨fun h => h _ _ _ _ _ hstops, fun h => ?_⟩
  obtain ⟨n, m, herror⟩ := h _ _ _ _ _ _ hasks (by decide)
  rw [hstops] at herror
  cases herror

end Limits

end DiceOdds
