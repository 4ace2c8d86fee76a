import DiceOdds.Text.Unprintable

/-!
# Text quoted in messages

A message shows a piece of the input between double quotes. Characters that would break the line
or end the quotation are written with a backslash, and unprintable ones by number, so that a
message is one line of visible characters whatever the input was.
-/

namespace DiceOdds.Quoted

/-- One character as it stands between quotes. An apostrophe needs no escape there. -/
def escape (c : Char) : List Char :=
  if c = '\x00' then ['\\', '0']
  else if c = '\t' then ['\\', 't']
  else if c = '\n' then ['\\', 'n']
  else if c = '\r' then ['\\', 'r']
  else if c = '"' then ['\\', '"']
  else if c = '\\' then ['\\', '\\']
  else if isUnprintable c then
    ['\\', 'u', '\x7b'] ++ Nat.toDigits 16 c.toNat ++ ['\x7d']
  else [c]

/-- A text between quotes. -/
def encode (text : List Char) : List Char :=
  '"' :: text.flatMap escape ++ ['"']

end DiceOdds.Quoted
