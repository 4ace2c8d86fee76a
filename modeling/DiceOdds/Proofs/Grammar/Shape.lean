import DiceOdds.Proofs.Grammar.Parse

/-!
# The shape of expressions

Nothing but a parenthesis or a call lets an operator stand inside of one that binds more tightly.
The expressions that keep to this are the `Shaped` ones, with a condition on their decimals. Every
derivation stands for one of them.
-/

namespace DiceOdds

namespace Expr

variable {α : Type} {P Q : α → Prop} {p : Phrase} {e : Expr α}

/-- Whether an expression has the shape of a phrase, and its decimals satisfy `P`. Its integers are
neither negative nor too large, and operators group to the left. -/
inductive Shaped (P : α → Prop) : Phrase → Expr α → Prop where
  /-- An integer. -/
  | int {n : Int} (nonneg : 0 ≤ n) (le : n ≤ 2 ^ 63 - 1) : Shaped P .term (.int n)
  /-- A decimal. -/
  | decimal {x : α} (hx : P x) : Shaped P .term (.decimal x)
  /-- A parenthesis. -/
  | paren {e : Expr α} (he : Shaped P .sum e) : Shaped P .term (.paren e)
  /-- A call of `roll`. -/
  | roll {e : Expr α} (he : Shaped P .sum e) : Shaped P .term (.roll e)
  /-- A call of `avg`. -/
  | avg {e : Expr α} (he : Shaped P .sum e) : Shaped P .term (.avg e)
  /-- A call of `prob`. -/
  | prob {target e : Expr α} (htarget : Shaped P .sum target) (he : Shaped P .sum e) :
      Shaped P .term (.prob target e)
  /-- A term alone. -/
  | ofTerm {e : Expr α} (he : Shaped P .term e) : Shaped P .dice e
  /-- Dice. -/
  | dice {count faces : Expr α} (hcount : Shaped P .dice count) (hfaces : Shaped P .term faces) :
      Shaped P .dice (.binary count .dice faces)
  /-- Dice alone. -/
  | ofDice {e : Expr α} (he : Shaped P .dice e) : Shaped P .product e
  /-- A factor after others. -/
  | times {left right : Expr α} (hleft : Shaped P .product left) (hright : Shaped P .dice right) :
      Shaped P .product (.binary left .times right)
  /-- A product alone. -/
  | ofProduct {e : Expr α} (he : Shaped P .product e) : Shaped P .sum e
  /-- A summand after others. -/
  | plus {left right : Expr α} (hleft : Shaped P .sum left) (hright : Shaped P .product right) :
      Shaped P .sum (.binary left .plus right)

/-- The decimals in an expression, from left to right. -/
def decimals : Expr α → List α
  | int _ => []
  | decimal x => [x]
  | paren e | roll e | avg e => e.decimals
  | binary l _ r => l.decimals ++ r.decimals
  | prob target e => target.decimals ++ e.decimals

/-- The decimals of a shaped expression satisfy the condition on them. -/
theorem Shaped.of_mem_decimals (h : e.Shaped P p) : ∀ x ∈ e.decimals, P x := by
  induction h with
  | int _ _ => exact fun x hx => (List.not_mem_nil hx).elim
  | decimal hx => exact List.forall_mem_singleton.mpr hx
  | paren _ ih | roll _ ih | avg _ ih | ofTerm _ ih | ofDice _ ih | ofProduct _ ih => exact ih
  | prob _ _ ihl ihr | dice _ _ ihl ihr | times _ _ ihl ihr | plus _ _ ihl ihr =>
    exact List.forall_mem_append.mpr ⟨ihl, ihr⟩

/-- A shaped expression may be put under any other condition that its decimals satisfy. -/
theorem Shaped.of_decimals (h : e.Shaped P p) (hQ : ∀ x ∈ e.decimals, Q x) : e.Shaped Q p := by
  induction h with
  | int nonneg le => exact .int nonneg le
  | decimal _ => exact .decimal (hQ _ List.mem_cons_self)
  | paren _ ih => exact .paren (ih hQ)
  | roll _ ih => exact .roll (ih hQ)
  | avg _ ih => exact .avg (ih hQ)
  | ofTerm _ ih => exact .ofTerm (ih hQ)
  | ofDice _ ih => exact .ofDice (ih hQ)
  | ofProduct _ ih => exact .ofProduct (ih hQ)
  | prob _ _ ihl ihr =>
    obtain ⟨hl, hr⟩ := List.forall_mem_append.mp hQ
    exact .prob (ihl hl) (ihr hr)
  | dice _ _ ihl ihr =>
    obtain ⟨hl, hr⟩ := List.forall_mem_append.mp hQ
    exact .dice (ihl hl) (ihr hr)
  | times _ _ ihl ihr =>
    obtain ⟨hl, hr⟩ := List.forall_mem_append.mp hQ
    exact .times (ihl hl) (ihr hr)
  | plus _ _ ihl ihr =>
    obtain ⟨hl, hr⟩ := List.forall_mem_append.mp hQ
    exact .plus (ihl hl) (ihr hr)

end Expr

variable {α : Type} [Arithmetic α] {P : α → Prop}

/-- A derivation stands for an expression of its shape, if no integer in it is too large and what it
makes of digits with a point satisfies the condition on decimals. -/
theorem Derivation.shaped_tree (hP : ∀ digits places, P (Arithmetic.ofDecimal digits places))
    {p : Phrase} (D : Derivation p) (hrange : ∀ t ∈ D.yield, t.InRange) :
    (D.tree : Expr α).Shaped P p := by
  induction D with
  | integer n =>
    have hle := hrange n.1 List.mem_cons_self n.2
    exact .int (Int.natCast_nonneg _) (by omega)
  | decimal x => exact .decimal (hP _ _)
  | paren l e r ih =>
    simp only [yield, List.forall_mem_cons, List.forall_mem_append] at hrange
    exact .paren (ih hrange.2.1)
  | roll f l e r ih =>
    simp only [yield, List.forall_mem_cons, List.forall_mem_append] at hrange
    exact .roll (ih hrange.2.2.1)
  | avg f l e r ih =>
    simp only [yield, List.forall_mem_cons, List.forall_mem_append] at hrange
    exact .avg (ih hrange.2.2.1)
  | prob f l target c e r iht ihe =>
    simp only [yield, List.forall_mem_cons, List.forall_mem_append] at hrange
    exact .prob (iht hrange.2.2.1) (ihe hrange.2.2.2.2.1)
  | ofTerm e ih => exact .ofTerm (ih hrange)
  | oneDie d e ih =>
    -- The count that is left out is an integer like any other.
    have hone : (Expr.int 1 : Expr α).Shaped P .term := .int (by decide) (by decide)
    exact .dice (.ofTerm hone) (ih (List.forall_mem_cons.mp hrange).2)
  | ofDice e ih => exact .ofDice (ih hrange)
  | ofProduct e ih => exact .ofProduct (ih hrange)
  | dice l d r ihl ihr =>
    simp only [yield, List.forall_mem_cons, List.forall_mem_append] at hrange
    exact .dice (ihl hrange.1) (ihr hrange.2.2)
  | times l s r ihl ihr =>
    simp only [yield, List.forall_mem_cons, List.forall_mem_append] at hrange
    exact .times (ihl hrange.1) (ihr hrange.2.2)
  | plus l s r ihl ihr =>
    simp only [yield, List.forall_mem_cons, List.forall_mem_append] at hrange
    exact .plus (ihl hrange.1) (ihr hrange.2.2)

/-- What a text is read as has the shape of a sum. -/
theorem Expr.shaped_of_parse (hP : ∀ digits places, P (Arithmetic.ofDecimal digits places))
    {text : String} {e : Expr α} (h : Expr.parse text = .ok e) : e.Shaped P .sum := by
  obtain ⟨hrange, D, hyield, rfl⟩ := (Expr.ofTokens_eq_ok_iff _ _ e).mp h
  rw [← hyield] at hrange
  exact D.shaped_tree hP hrange

end DiceOdds
