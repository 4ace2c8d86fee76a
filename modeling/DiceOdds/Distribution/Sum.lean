import DiceOdds.Distribution.Basic

/-!
# Sums of independent distributions

The sum of two uncertain distributions is the convolution of their tables. Slot `i` of the one and
slot `j` of the other stand for outcomes `i + 1` and `j + 1` above the constants, so their sum is
in slot `i + j + 1`; the table of the sum has one slot for every outcome up to the sum of the two
largest, and slot 0 stays empty. A certain operand only moves the constant.
-/

namespace DiceOdds.Distribution

open Arithmetic

variable {α : Type} [Arithmetic α]

/-- The weight that slot `k` of a sum gets from the probabilities `p` and `q` of its operands:
the products `p[i] * q[k - 1 - i]`, added in the order of `i`. -/
@[specialize] def convolutionAt (p q : Array α) (k : Nat) : α :=
  let first := k - q.size
  (min p.size k - first).fold
    (fun j _ acc => acc + p[first + j] * q[k - 1 - (first + j)]) (ofNat 0)

/-- The table of the sum of two independent outcomes with probabilities `p` and `q`. -/
@[specialize] def convolution (p q : Array α) : Array α :=
  Array.ofFn fun k : Fin (p.size + q.size) => convolutionAt p q k

/-- A sum has a slot for every slot of either operand. -/
@[simp] theorem size_convolution (p q : Array α) : (convolution p q).size = p.size + q.size := by
  simp [convolution]

/-- The lowest slot of a sum is empty: two outcomes each at least one above their constants are
together at least two above. -/
theorem convolutionAt_zero (p q : Array α) : convolutionAt p q 0 = ofNat 0 := by
  rw [convolutionAt, Nat.fold_congr (show min p.size 0 - (0 - q.size) = 0 by omega)]
  rfl

variable [Memory]

/-- The distribution of `X + Y` for independent `X` and `Y`. Two uncertain operands are
normalized first, so their sum has total 1; a single one keeps its weights as they are. -/
@[specialize] def add (d e : Distribution α) :
    Except (DistributionError α) (Distribution α) := do
  let constant := d.constant + e.constant
  if d.isUncertain && e.isUncertain then
    let total ← d.normalizer
    let total' ← e.normalizer
    if tableCapacity < d.size + e.size then
      throw (.tableTooLarge (ofNat (d.size + e.size)))
    return ⟨constant, convolution (d.weights.map (· / total)) (e.weights.map (· / total'))⟩
  else
    return ⟨constant, if d.isUncertain then d.weights else e.weights⟩

/-- `d` with `n` more copies of `die` added to it, one after the other. -/
@[specialize] def addCopies (die : Distribution α) :
    Nat → Distribution α → Except (DistributionError α) (Distribution α)
  | 0, d => .ok d
  | n + 1, d => do addCopies die n (← d.add die)

/-- The distribution of the sum of `count` fair dice with `faces` faces each. No dice, and dice
without faces, certainly sum to 0. -/
@[specialize] def uniformSum (count faces : Nat) :
    Except (DistributionError α) (Distribution α) := do
  if count = 0 || faces = 0 then
    return certain (ofNat 0)
  if wordMax < count * faces then
    throw (.tableTooLarge (ofNat count * ofNat faces))
  -- The first die is the table to start from, so the sum of one die keeps its weights.
  let die ← flat faces (ofNat 1) (ofNat 0)
  addCopies die (count - 1) die

end DiceOdds.Distribution
