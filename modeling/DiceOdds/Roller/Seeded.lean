import DiceOdds.Roller

/-!
# Rollers from a seed

A seeded roller is the keystream of the ChaCha stream cipher with 12 rounds. The seed is spread
over the 256 bits of the key by a linear congruential generator whose states are scrambled before
use. A keystream block is a function of its number alone, so a draw can be computed from its
position without the draws before it.
-/

namespace DiceOdds.Seeded

/-- `x` with its bits moved `n` places to the left, those that leave coming in on the right. -/
@[inline] def rotateLeft (x n : UInt32) : UInt32 := (x <<< n) ||| (x >>> (32 - n))

/-- The sixteen words that a block is computed in, row by row. -/
abbrev Block := Vector UInt32 16

/-- The quarter round on four words. -/
@[inline] def quarterRound (a b c d : UInt32) : UInt32 × UInt32 × UInt32 × UInt32 :=
  let a := a + b
  let d := rotateLeft (d ^^^ a) 16
  let c := c + d
  let b := rotateLeft (b ^^^ c) 12
  let a := a + b
  let d := rotateLeft (d ^^^ a) 8
  let c := c + d
  let b := rotateLeft (b ^^^ c) 7
  (a, b, c, d)

/-- The quarter round on the words at four places of a block. -/
@[inline] def quarterAt (i j k l : Fin 16) (s : Block) : Block :=
  let (a, b, c, d) := quarterRound s[i] s[j] s[k] s[l]
  (((s.set i a).set j b).set k c).set l d

/-- A round on the columns of a block and one on its diagonals. -/
def doubleRound (s : Block) : Block :=
  -- The columns.
  let s := quarterAt 0 4 8 12 s
  let s := quarterAt 1 5 9 13 s
  let s := quarterAt 2 6 10 14 s
  let s := quarterAt 3 7 11 15 s
  -- The diagonals.
  let s := quarterAt 0 5 10 15 s
  let s := quarterAt 1 6 11 12 s
  let s := quarterAt 2 7 8 13 s
  quarterAt 3 4 9 14 s

/-- Twelve rounds, two at a time. -/
def rounds (s : Block) : Block := Nat.repeat doubleRound 6 s

/-- The block that keystream block `number` is computed from: the words of "expand 32-byte k",
the key, the block number of 64 bits with its low word first, and a zero nonce. -/
def initialBlock (key : Vector UInt32 8) (number : Nat) : Block :=
  (#v[0x61707865, 0x3320646e, 0x79622d32, 0x6b206574] : Vector UInt32 4) ++ key ++
    #v[UInt32.ofNat number, UInt32.ofNat (number >>> 32), 0, 0]

/-- A block of the keystream. -/
def keystreamBlock (key : Vector UInt32 8) (number : Nat) : Block :=
  let start := initialBlock key number
  (rounds start).zipWith (· + ·) start

/-- One step of the generator that spreads a seed. -/
@[inline] def advance (state : UInt64) : UInt64 :=
  state * 6364136223846793005 + 11634580027462260723

/-- The word that a state of the generator stands for: its high bits folded into a word, turned
right by the highest five. -/
@[inline] def scramble (state : UInt64) : UInt32 :=
  let folded := (((state >>> 18) ^^^ state) >>> 27).toUInt32
  let turn := (state >>> 59).toUInt32
  (folded >>> turn) ||| (folded <<< ((32 - turn) % 32))

/-- The key of a seed: the words of the eight states that follow it. -/
def key (seed : UInt64) : Vector UInt32 8 :=
  Vector.ofFn fun i => scramble (Nat.repeat advance (i + 1) seed)

end DiceOdds.Seeded

namespace DiceOdds.Roller

/-- The roller of a seed. -/
def seeded (seed : UInt64) : Roller :=
  let key := Seeded.key seed
  ofStream fun n => (Seeded.keystreamBlock key (n / 16)).get ⟨n % 16, Nat.mod_lt n (by decide)⟩

end DiceOdds.Roller
