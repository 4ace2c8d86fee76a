/-!
# Blank text

A line is blank if it holds white space only. White space is meant as Unicode lists it, which is
more than the lexer skips between tokens: a no-break space makes a line no less blank, although
inside an expression it is an error.
-/

namespace DiceOdds

/-- The characters with the property `White_Space`. -/
def isWhiteSpace (c : Char) : Bool :=
  let n := c.toNat
  (0x9 ≤ n && n ≤ 0xd) || n = 0x20 || n = 0x85 || n = 0xa0 || n = 0x1680 ||
    (0x2000 ≤ n && n ≤ 0x200a) || n = 0x2028 || n = 0x2029 || n = 0x202f || n = 0x205f ||
    n = 0x3000

/-- Whether a line holds nothing but white space. -/
def isBlank (line : List Char) : Bool := line.all isWhiteSpace

end DiceOdds
