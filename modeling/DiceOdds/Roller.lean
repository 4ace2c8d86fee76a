/-!
# Sources of draws

A `Roller` is an endless stream of 32-bit draws and a count of those already taken. Evaluation
runs in `Rolling`, which keeps the roller also when it fails, so that what comes after a failure
sees the draws that follow it.
-/

namespace DiceOdds

/-- A stream of draws, of which the first `taken` are used up. -/
structure Roller where
  /-- The draws, numbered from 0. -/
  stream : Nat → UInt32
  /-- How many draws were taken. -/
  taken : Nat

namespace Roller

/-- A roller of which nothing is taken yet. -/
def ofStream (stream : Nat → UInt32) : Roller := ⟨stream, 0⟩

/-- Takes the next draw. -/
def draw : StateM Roller UInt32 := fun r => (r.stream r.taken, { r with taken := r.taken + 1 })

/-- The draws `start`, `start + step`, `start + 2 * step`, … modulo `2 ^ 32`. -/
def stepping (start step : UInt32) : Roller :=
  ofStream fun n => start + step * UInt32.ofNat n

/-- The draws of a list, over and over; no draws at all stand for zeros. -/
def cycling (draws : Array UInt32) : Roller :=
  ofStream fun n => draws.getD (n % draws.size) 0

/-- The first `n` draws that are not taken. -/
def preview (r : Roller) (n : Nat) : List UInt32 :=
  (List.range n).map fun i => r.stream (r.taken + i)

end Roller

/-- A computation that takes draws and may fail with an error of type `ε`. The roller survives a
failure. -/
abbrev Rolling (ε β : Type) := ExceptT ε (StateM Roller) β

namespace Rolling

variable {ε β : Type}

/-- A result or failure that takes no draw. -/
def ofExcept (x : Except ε β) : Rolling ε β := fun r => (x, r)

/-- The same computation with its error described in other terms. -/
def mapError {ε' : Type} (f : ε → ε') (x : Rolling ε β) : Rolling ε' β := fun r =>
  let (result, r) := x r
  (result.mapError f, r)

end Rolling

end DiceOdds
