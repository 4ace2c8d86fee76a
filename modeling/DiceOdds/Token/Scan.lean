import DiceOdds.Token.Kind

/-!
# The tokens of a text

Every token is the longest piece of text of some kind that starts where it starts. Spaces, tabs
and line ends stand between tokens and are passed over; any other character that begins no token
is an error token by itself, and the text after it is read as usual.
-/

namespace DiceOdds

/-- The number of bytes that a text takes in UTF-8. -/
def byteLength : List Char → Nat
  | [] => 0
  | c :: rest => c.utf8Size + byteLength rest

/-- Texts that follow each other take the bytes of both. -/
@[simp] theorem byteLength_append (s t : List Char) :
    byteLength (s ++ t) = byteLength s + byteLength t := by
  induction s with
  | nil => simp [byteLength]
  | cons c s ih => simp [byteLength, ih, Nat.add_assoc]

/-- A piece of text with its kind and its place. -/
structure Token where
  /-- What the piece is. -/
  kind : TokenKind
  /-- The number of bytes before the piece. -/
  start : Nat
  /-- The piece itself. -/
  text : List Char
  deriving Repr, DecidableEq

namespace Token

/-- The number of bytes before the end of the piece. -/
def stop (t : Token) : Nat := t.start + byteLength t.text

/-- The characters that separate tokens. -/
def isSeparator (c : Char) : Bool := c = ' ' || c = '\t' || c = '\r' || c = '\n'

/-- The tokens of one character, other than a lone digit. -/
def symbol? : Char → Option TokenKind
  | 'd' | 'D' => some .dice
  | '(' => some .leftParen
  | ')' => some .rightParen
  | ',' => some .comma
  | '+' => some .plus
  | '*' => some .star
  | _ => none

/-- The reduction whose name a text starts with. -/
def reduction? (text : List Char) : Option Reduction :=
  [Reduction.roll, .avg, .prob].find? fun f => f.name.isPrefixOf text

/-- How many digits a text starts with. -/
def leadingDigits (text : List Char) : Nat := (text.takeWhile Char.isDigit).length

/-- The longest token that starts with `c`, in a text that goes on with `rest`: its kind and how
many characters of `rest` belong to it. A point makes a row of digits a decimal even if no digit
follows, but no decimal is a point alone. -/
def longest (c : Char) (rest : List Char) : TokenKind × Nat :=
  if c.isDigit then
    -- A point right after digits belongs to them whatever follows it.
    let whole := leadingDigits rest
    match rest.drop whole with
    | '.' :: places => (.decimal, whole + 1 + leadingDigits places)
    | _ => (.integer, whole)
  else if c = '.' then
    let places := leadingDigits rest
    if places = 0 then (.error, 0) else (.decimal, places)
  else
    match symbol? c, reduction? (c :: rest) with
    | some kind, _ => (kind, 0)
    | none, some f => (.reduction f, f.name.length - 1)
    | none, none => (.error, 0)

/-- A text starts with no more digits than it has characters. -/
theorem leadingDigits_le (text : List Char) : leadingDigits text ≤ text.length :=
  (List.takeWhile_sublist _).length_le

/-- A name that a text starts with is no longer than the text. -/
theorem length_le_of_reduction? {text : List Char} {f : Reduction} (h : reduction? text = some f) :
    f.name.length ≤ text.length := by
  have := List.find?_some h
  exact (List.isPrefixOf_iff_prefix.1 this).length_le

/-- A token takes no more of the text than there is. -/
theorem longest_le (c : Char) (rest : List Char) : (longest c rest).2 ≤ rest.length := by
  have hdigits := leadingDigits_le rest
  simp only [longest]
  split
  · split
    · next places hplaces =>
      have := congrArg List.length hplaces
      have := leadingDigits_le places
      simp at *
      omega
    · exact hdigits
  · split
    · split <;> simp [hdigits]
    · split
      · simp
      · next hf =>
        have := length_le_of_reduction? hf
        simp at *
        omega
      · simp

/-- The tokens of a text that has `start` bytes before it. -/
def scanFrom (start : Nat) : List Char → List Token
  | [] => []
  | c :: rest =>
    if isSeparator c then scanFrom (start + c.utf8Size) rest
    else
      let (kind, more) := longest c rest
      let token : Token := ⟨kind, start, c :: rest.take more⟩
      token :: scanFrom token.stop (rest.drop more)
termination_by text => text.length
decreasing_by all_goals simp only [List.length_cons, List.length_drop]; omega

/-- The tokens of a text, from left to right. -/
def scan (text : String) : List Token := scanFrom 0 text.toList

end Token

end DiceOdds
