import DiceOdds.Proofs.Token.Numerals

/-!
# The grammar of expressions

```text
sum     ::= product ('+' product)*
product ::= dice ('*' dice)*
dice    ::= ('d' term | term) ('d' term)*
term    ::= INTEGER | DECIMAL | '(' sum ')'
          | 'roll' '(' sum ')' | 'avg' '(' sum ')' | 'prob' '(' sum ',' sum ')'
```

A `Derivation` is a tree of these rules with the tokens they stand on. A repetition is read from its
right end: the last operand is split off, and what is before it derives from the same rule again. So
the derivation of a chain is its grouping to the left, and two derivations of a chain differ only if
they have different operands.

The `yield` of a derivation is the row of tokens it derives and its `tree` the expression it stands
for. How much of the grammar a row of tokens fits is not said here.
-/

namespace DiceOdds

/-- The rules of the grammar. -/
inductive Phrase where
  /-- A number, a parenthesis or a call. -/
  | term
  /-- Terms joined by marks of dice. -/
  | dice
  /-- Dice joined by `*`. -/
  | product
  /-- Products joined by `+`. -/
  | sum
  deriving DecidableEq

/-- The tokens of one kind. -/
abbrev TokenOf (kind : TokenKind) := { t : Token // t.kind = kind }

/-- The derivations from each rule. -/
inductive Derivation : Phrase → Type where
  /-- An integer. -/
  | integer (n : TokenOf .integer) : Derivation .term
  /-- A decimal. -/
  | decimal (x : TokenOf .decimal) : Derivation .term
  /-- A parenthesis. -/
  | paren (opening : TokenOf .leftParen) (e : Derivation .sum) (closing : TokenOf .rightParen) :
      Derivation .term
  /-- A call of `roll`. -/
  | roll (f : TokenOf (.reduction .roll)) (opening : TokenOf .leftParen) (e : Derivation .sum)
      (closing : TokenOf .rightParen) : Derivation .term
  /-- A call of `avg`. -/
  | avg (f : TokenOf (.reduction .avg)) (opening : TokenOf .leftParen) (e : Derivation .sum)
      (closing : TokenOf .rightParen) : Derivation .term
  /-- A call of `prob`. -/
  | prob (f : TokenOf (.reduction .prob)) (opening : TokenOf .leftParen) (target : Derivation .sum)
      (comma : TokenOf .comma) (e : Derivation .sum) (closing : TokenOf .rightParen) :
      Derivation .term
  /-- A term alone. -/
  | ofTerm (e : Derivation .term) : Derivation .dice
  /-- A mark of dice without a count. -/
  | oneDie (mark : TokenOf .dice) (faces : Derivation .term) : Derivation .dice
  /-- A mark of dice after a count. -/
  | dice (count : Derivation .dice) (mark : TokenOf .dice) (faces : Derivation .term) :
      Derivation .dice
  /-- Dice alone. -/
  | ofDice (e : Derivation .dice) : Derivation .product
  /-- A factor after others. -/
  | times (left : Derivation .product) (star : TokenOf .star) (right : Derivation .dice) :
      Derivation .product
  /-- A product alone. -/
  | ofProduct (e : Derivation .product) : Derivation .sum
  /-- A summand after others. -/
  | plus (left : Derivation .sum) (plus : TokenOf .plus) (right : Derivation .product) :
      Derivation .sum

namespace Derivation

/-- The tokens that a derivation derives. -/
@[simp] def yield {p : Phrase} : Derivation p → List Token
  | integer n => [n.1]
  | decimal x => [x.1]
  | paren l e r => l.1 :: (e.yield ++ [r.1])
  | roll f l e r | avg f l e r => f.1 :: l.1 :: (e.yield ++ [r.1])
  | prob f l target c e r => f.1 :: l.1 :: (target.yield ++ c.1 :: (e.yield ++ [r.1]))
  | ofTerm e => e.yield
  | oneDie d e => d.1 :: e.yield
  | dice l d r => l.yield ++ d.1 :: r.yield
  | ofDice e => e.yield
  | times l s r => l.yield ++ s.1 :: r.yield
  | ofProduct e => e.yield
  | plus l s r => l.yield ++ s.1 :: r.yield

/-- The expression that a derivation stands for. Numbers are what their digits stand for, and dice
without a count are one die. -/
def tree {α : Type} [Arithmetic α] {p : Phrase} : Derivation p → Expr α
  | integer n => .int (Token.placeValue n.1.text)
  | decimal x => .decimal (Token.pointValue x.1.text)
  | paren _ e _ => .paren e.tree
  | roll _ _ e _ => .roll e.tree
  | avg _ _ e _ => .avg e.tree
  | prob _ _ target _ e _ => .prob target.tree e.tree
  | ofTerm e => e.tree
  | oneDie _ e => .binary (.int 1) .dice e.tree
  | dice l _ r => .binary l.tree .dice r.tree
  | ofDice e => e.tree
  | times l _ r => .binary l.tree .times r.tree
  | ofProduct e => e.tree
  | plus l _ r => .binary l.tree .plus r.tree

/-- A derivation has no error token. -/
theorem kind_ne_error {p : Phrase} (D : Derivation p) : ∀ t ∈ D.yield, t.kind ≠ .error := by
  have hne : ∀ {kind : TokenKind}, kind ≠ .error → ∀ t : TokenOf kind, t.1.kind ≠ .error := by
    intro kind hkind t
    rwa [t.2]
  induction D with
  | integer n => exact List.forall_mem_singleton.2 (hne (by decide) n)
  | decimal x => exact List.forall_mem_singleton.2 (hne (by decide) x)
  | paren l e r ih =>
    simp only [yield, List.forall_mem_cons, List.forall_mem_append, List.not_mem_nil]
    exact ⟨hne (by decide) l, ih, hne (by decide) r, fun _ h => h.elim⟩
  | roll f l e r ih | avg f l e r ih =>
    simp only [yield, List.forall_mem_cons, List.forall_mem_append, List.not_mem_nil]
    exact ⟨hne (by decide) f, hne (by decide) l, ih, hne (by decide) r, fun _ h => h.elim⟩
  | prob f l target c e r iht ihe =>
    simp only [yield, List.forall_mem_cons, List.forall_mem_append, List.not_mem_nil]
    exact ⟨hne (by decide) f, hne (by decide) l, iht, hne (by decide) c, ihe, hne (by decide) r,
      fun _ h => h.elim⟩
  | oneDie d e ih =>
    simp only [yield, List.forall_mem_cons]
    exact ⟨hne (by decide) d, ih⟩
  | ofTerm e ih | ofDice e ih | ofProduct e ih => exact ih
  | dice l d r ihl ihr | times l d r ihl ihr | plus l d r ihl ihr =>
    simp only [yield, List.forall_mem_cons, List.forall_mem_append]
    exact ⟨ihl, hne (by decide) d, ihr⟩

end Derivation

end DiceOdds
