import DiceOdds.Expr.Print
import DiceOdds.Proofs.Grammar.Shape
import DiceOdds.Proofs.Token.Pieces

/-!
# Reading what is written

A shaped expression is read from the text that it is written as, provided that each of its decimals
is written as a numeral that is read as it. Wherever a part of the text stands, it is scanned as the
tokens of a derivation of the part of the expression (`ReadsAs`): numbers end where an operator, a
comma or a parenthesis follows.
-/

namespace DiceOdds

open Token ParseState

namespace Operator

/-- The kind of token that an operator is written as. -/
def kind : Operator → TokenKind
  | plus => .plus
  | times => .star
  | dice => .dice

/-- The sign of an operator is its token. -/
theorem symbol?_symbol (op : Operator) : symbol? op.symbol = some op.kind := by
  cases op with
  | plus | times | dice => rfl

end Operator

namespace Expr

variable {α : Type} [Arithmetic α] {p q : Phrase} {e : Expr α} {text : List Char}

/-- Whether a text that no number goes on after is scanned as the tokens of a derivation of `e`, and
none of its integers is too large. -/
def ReadsAs (p : Phrase) (text : List Char) (e : Expr α) : Prop :=
  ∀ start rest, Ends rest → ∃ (D : Derivation p) (stop : Nat), D.tree = e ∧
    (∀ t ∈ D.yield, t.InRange) ∧ scanFrom start (text ++ rest) = D.yield ++ scanFrom stop rest

/-- A number ends before an operator. -/
theorem ends_operatorChars (op : Operator) (rest : List Char) :
    Ends (operatorChars op ++ rest) := by
  cases op with
  | plus | times | dice => exact ends_cons rfl (by decide)

/-- The characters of an operator are scanned as one token. -/
theorem exists_scanFrom_operatorChars (op : Operator) (start : Nat) (rest : List Char) :
    ∃ (t : TokenOf op.kind) (stop : Nat),
      scanFrom start (operatorChars op ++ rest) = t.1 :: scanFrom stop rest := by
  have hsign (start : Nat) (rest : List Char) :
      ∃ (t : TokenOf op.kind) (stop : Nat),
        scanFrom start (op.symbol :: rest) = t.1 :: scanFrom stop rest :=
    ⟨⟨_, rfl⟩, _, scanFrom_symbol op.symbol?_symbol start rest⟩
  cases op with
  | dice => exact hsign start rest
  | plus | times =>
    -- A separator stands on either side of the sign.
    obtain ⟨t, stop, ht⟩ := hsign (start + ' '.utf8Size) (' ' :: rest)
    refine ⟨t, stop + ' '.utf8Size, (scanFrom_separator rfl start _).trans (ht.trans ?_)⟩
    rw [scanFrom_separator rfl stop rest]

namespace ReadsAs

/-- An expression is the one of a text that it reads from. -/
theorem parse_eq (h : e.ReadsAs .sum text) : Expr.parse (String.ofList text) = .ok e := by
  obtain ⟨D, stop, htree, hrange, hscan⟩ := h 0 [] ends_nil
  have htokens : Token.scan (String.ofList text) = D.yield := by
    rw [scan, String.toList_ofList, ← List.append_nil text, hscan, scanFrom, List.append_nil]
  rw [Expr.parse, Expr.ofTokens_eq_ok_iff, htokens]
  exact ⟨hrange, D, rfl, htree⟩

/-- The digits of an integer that is not too large are read as it. -/
theorem int {n : Int} (nonneg : 0 ≤ n) (le : n ≤ 2 ^ 63 - 1) :
    ReadsAs .term (toString n).toList (.int n : Expr α) := by
  intro start rest hrest
  obtain ⟨k, rfl⟩ := Int.eq_ofNat_of_zero_le nonneg
  have htext : (toString (k : Int)).toList = Nat.toDigits 10 k := String.toList_ofList
  have hvalue := placeValue_toDigits k
  have hdigit : ∀ c ∈ Nat.toDigits 10 k, c.isDigit :=
    fun c hc => Nat.isDigit_of_mem_toDigits (by decide) (by decide) hc
  rw [htext]
  refine ⟨.integer ⟨⟨.integer, start, Nat.toDigits 10 k⟩, rfl⟩, _, ?_, ?_,
    scanFrom_digits Nat.toDigits_ne_nil hdigit hrest start⟩
  · rw [Derivation.tree, hvalue]
  · refine List.forall_mem_singleton.mpr fun _ => ?_
    rw [hvalue]
    omega

/-- A numeral is read as its value. -/
theorem numeral (n : Numeral) : ReadsAs .term n.text (.decimal (pointValue n.text) : Expr α) := by
  intro start rest hrest
  refine ⟨.decimal ⟨⟨.decimal, start, n.text⟩, rfl⟩, _, rfl, ?_,
    scanFrom_numeral n hrest start⟩
  exact List.forall_mem_singleton.mpr fun h => by cases h

/-- What is read by a rule is read by a rule that goes over to it. -/
theorem of_map (f : Derivation p → Derivation q) (htree : ∀ D, (f D).tree = (D.tree : Expr α))
    (hyield : ∀ D, (f D).yield = D.yield) (h : e.ReadsAs p text) : e.ReadsAs q text := by
  intro start rest hrest
  obtain ⟨D, stop, rfl, hrange, hscan⟩ := h start rest hrest
  refine ⟨f D, stop, htree D, ?_⟩
  rw [hyield]
  exact ⟨hrange, hscan⟩

/-- Two expressions with an operator between them are read from their texts with the operator
between them, by a rule that joins derivations so. -/
theorem binary {o : Phrase} {left right : Expr α} {l r : List Char} {op : Operator}
    (join : Derivation p → TokenOf op.kind → Derivation q → Derivation o)
    (htree : ∀ L t R, (join L t R).tree = Expr.binary (L.tree : Expr α) op R.tree)
    (hyield : ∀ L t R, (join L t R).yield = L.yield ++ t.1 :: R.yield)
    (hleft : left.ReadsAs p l) (hright : right.ReadsAs q r) :
    (Expr.binary left op right).ReadsAs o (l ++ operatorChars op ++ r) := by
  intro start rest hrest
  obtain ⟨L, stopLeft, rfl, hrangeL, hscanL⟩ :=
    hleft start (operatorChars op ++ (r ++ rest)) (ends_operatorChars op _)
  obtain ⟨t, stopSign, ht⟩ := exists_scanFrom_operatorChars op stopLeft (r ++ rest)
  obtain ⟨R, stop, rfl, hrangeR, hscanR⟩ := hright stopSign rest hrest
  have hsign : op.kind ≠ .integer := (of_symbol? op.symbol?_symbol).1
  refine ⟨join L t R, stop, htree L t R, ?_⟩
  rw [hyield, List.forall_mem_append, List.forall_mem_cons]
  refine ⟨⟨hrangeL, Reading.inRange_of_ne hsign t, hrangeR⟩, ?_⟩
  rw [List.append_assoc, List.append_assoc, hscanL, ht, hscanR, List.append_assoc,
    List.cons_append]

/-! ## Parentheses and calls -/

/-- An expression is scanned up to the token of one character that ends it. -/
theorem exists_scanFrom_closed (h : e.ReadsAs .sum text) {kind : TokenKind} {c : Char}
    (hc : symbol? c = some kind) (start : Nat) (rest : List Char) :
    ∃ (D : Derivation .sum) (t : TokenOf kind) (stop : Nat), D.tree = e ∧
      (∀ u ∈ D.yield ++ [t.1], u.InRange) ∧
      scanFrom start (text ++ c :: rest) = D.yield ++ t.1 :: scanFrom stop rest := by
  obtain ⟨D, stop, htree, hrange, hscan⟩ := h start (c :: rest) (ends_symbol hc rest)
  refine ⟨D, ⟨⟨kind, stop, [c]⟩, rfl⟩, stop + byteLength [c], htree, ?_, ?_⟩
  · have hkind : kind ≠ .integer := (of_symbol? hc).1
    rw [List.forall_mem_append, List.forall_mem_singleton]
    exact ⟨hrange, Reading.inRange_of_ne hkind ⟨_, rfl⟩⟩
  · rw [hscan, scanFrom_symbol hc]

/-- An expression in parentheses is scanned as its tokens between two others. -/
theorem exists_scanFrom_paren (h : e.ReadsAs .sum text) (start : Nat) (rest : List Char) :
    ∃ (l : TokenOf .leftParen) (D : Derivation .sum) (r : TokenOf .rightParen) (stop : Nat),
      D.tree = e ∧ (∀ u ∈ l.1 :: (D.yield ++ [r.1]), u.InRange) ∧
      scanFrom start ('(' :: text ++ ')' :: rest) =
        l.1 :: (D.yield ++ r.1 :: scanFrom stop rest) := by
  obtain ⟨D, r, stop, htree, hrange, hscan⟩ :=
    h.exists_scanFrom_closed (c := ')') rfl (start + byteLength ['(']) rest
  let l : TokenOf .leftParen := ⟨⟨.leftParen, start, ['(']⟩, rfl⟩
  refine ⟨l, D, r, stop, htree, ?_, ?_⟩
  · exact List.forall_mem_cons.mpr ⟨Reading.inRange_of_ne (by decide) l, hrange⟩
  · rw [List.cons_append, scanFrom_symbol rfl, hscan]

/-- A call of one argument is scanned as the name and what is in the parentheses. -/
theorem exists_scanFrom_call (f : Reduction) (h : e.ReadsAs .sum text) (start : Nat)
    (rest : List Char) :
    ∃ (name : TokenOf (.reduction f)) (l : TokenOf .leftParen) (D : Derivation .sum)
      (r : TokenOf .rightParen) (stop : Nat), D.tree = e ∧
      (∀ u ∈ name.1 :: l.1 :: (D.yield ++ [r.1]), u.InRange) ∧
      scanFrom start (callChars f text ++ rest) =
        name.1 :: l.1 :: (D.yield ++ [r.1]) ++ scanFrom stop rest := by
  obtain ⟨l, D, r, stop, htree, hrange, hscan⟩ :=
    h.exists_scanFrom_paren (start + byteLength f.name) rest
  let name : TokenOf (.reduction f) := ⟨⟨.reduction f, start, f.name⟩, rfl⟩
  refine ⟨name, l, D, r, stop, htree, ?_, ?_⟩
  · exact List.forall_mem_cons.mpr ⟨Reading.inRange_of_ne (by simp) name, hrange⟩
  · have htext : callChars f text ++ rest = f.name ++ ('(' :: text ++ ')' :: rest) := by
      simp [callChars]
    rw [htext, scanFrom_name, hscan]
    simp [name]

/-- An expression in parentheses is read from its text in parentheses. -/
theorem paren (h : e.ReadsAs .sum text) :
    ReadsAs .term ('(' :: text ++ [')']) (.paren e : Expr α) := by
  intro start rest _
  obtain ⟨l, D, r, stop, rfl, hrange, hscan⟩ := h.exists_scanFrom_paren start rest
  refine ⟨.paren l D r, stop, rfl, hrange, ?_⟩
  rw [List.append_assoc, List.singleton_append, hscan]
  simp

/-- A call of `roll` is read from the text of its argument. -/
theorem roll (h : e.ReadsAs .sum text) :
    ReadsAs .term (callChars .roll text) (.roll e : Expr α) := by
  intro start rest _
  obtain ⟨name, l, D, r, stop, rfl, hrange, hscan⟩ := h.exists_scanFrom_call .roll start rest
  exact ⟨.roll name l D r, stop, rfl, hrange, hscan⟩

/-- A call of `avg` is read from the text of its argument. -/
theorem avg (h : e.ReadsAs .sum text) :
    ReadsAs .term (callChars .avg text) (.avg e : Expr α) := by
  intro start rest _
  obtain ⟨name, l, D, r, stop, rfl, hrange, hscan⟩ := h.exists_scanFrom_call .avg start rest
  exact ⟨.avg name l D r, stop, rfl, hrange, hscan⟩

/-- A call of `prob` is read from the texts of its arguments. -/
theorem prob {target : Expr α} {t : List Char} (htarget : target.ReadsAs .sum t)
    (h : e.ReadsAs .sum text) :
    ReadsAs .term (callChars .prob (t ++ ',' :: ' ' :: text)) (.prob target e : Expr α) := by
  intro start rest _
  -- The target is read up to the comma, and the rest of the call from the separator after it.
  obtain ⟨T, comma, stopTarget, rfl, hrangeT, hscanT⟩ := htarget.exists_scanFrom_closed (c := ',')
    rfl (start + byteLength Reduction.prob.name + byteLength ['('])
    (' ' :: (text ++ ')' :: rest))
  obtain ⟨D, r, stop, rfl, hrange, hscan⟩ :=
    h.exists_scanFrom_closed (c := ')') rfl (stopTarget + ' '.utf8Size) rest
  let name : TokenOf (.reduction .prob) :=
    ⟨⟨.reduction .prob, start, Reduction.prob.name⟩, rfl⟩
  let l : TokenOf .leftParen := ⟨⟨.leftParen, start + byteLength Reduction.prob.name, ['(']⟩, rfl⟩
  refine ⟨.prob name l T comma D r, stop, rfl, ?_, ?_⟩
  · rw [Derivation.yield, List.append_cons T.yield, List.forall_mem_cons, List.forall_mem_cons,
      List.forall_mem_append]
    exact ⟨Reading.inRange_of_ne (by decide) name, Reading.inRange_of_ne (by decide) l, hrangeT,
      hrange⟩
  · have htext : callChars .prob (t ++ ',' :: ' ' :: text) ++ rest =
        Reduction.prob.name ++ '(' :: (t ++ ',' :: ' ' :: (text ++ ')' :: rest)) := by
      simp [callChars]
    rw [htext, scanFrom_name, scanFrom_symbol rfl, hscanT, scanFrom_separator rfl, hscan]
    simp [name, l]

end ReadsAs

/-! ## Whole expressions -/

/-- The characters of an expression whose decimals are written by `number`. -/
def written (number : α → List Char) : Expr α → List Char
  | int n => (toString n).toList
  | decimal x => number x
  | paren e => '(' :: e.written number ++ [')']
  | binary l op r => l.written number ++ operatorChars op ++ r.written number
  | roll e => callChars .roll (e.written number)
  | avg e => callChars .avg (e.written number)
  | prob target e => callChars .prob (target.written number ++ ',' :: ' ' :: e.written number)

/-- A shaped expression is read from the text that it is written as, if each of its decimals is read
from the numeral that it is written as. -/
theorem Shaped.readsAs {P : α → Prop} {number : α → List Char}
    (hnumber : ∀ x, P x → ∃ n : Numeral, number x = n.text ∧ pointValue n.text = x)
    (h : e.Shaped P p) : e.ReadsAs p (e.written number) := by
  induction h with
  | int nonneg le => exact .int nonneg le
  | decimal hx =>
    obtain ⟨n, htext, hvalue⟩ := hnumber _ hx
    have hread := ReadsAs.numeral (α := α) n
    rw [hvalue] at hread
    rwa [written, htext]
  | paren _ ih => exact ih.paren
  | roll _ ih => exact ih.roll
  | avg _ ih => exact ih.avg
  | prob _ _ iht ihe => exact iht.prob ihe
  | ofTerm _ ih => exact ih.of_map .ofTerm (fun _ => rfl) fun _ => rfl
  | dice _ _ ihl ihr => exact ihl.binary .dice (fun _ _ _ => rfl) (fun _ _ _ => rfl) ihr
  | ofDice _ ih => exact ih.of_map .ofDice (fun _ => rfl) fun _ => rfl
  | times _ _ ihl ihr => exact ihl.binary .times (fun _ _ _ => rfl) (fun _ _ _ => rfl) ihr
  | ofProduct _ ih => exact ih.of_map .ofProduct (fun _ => rfl) fun _ => rfl
  | plus _ _ ihl ihr => exact ihl.binary .plus (fun _ _ _ => rfl) (fun _ _ _ => rfl) ihr

/-- The characters of an expression are written with the layout of literals. -/
theorem written_literal_number (e : Expr Float) : e.written Layout.literal.number = e.chars := by
  induction e with
  | int _ | decimal _ => rfl
  | paren _ ih | roll _ ih | avg _ ih => rw [written, chars, ih]
  | binary _ _ _ ihl ihr | prob _ _ ihl ihr => rw [written, chars, ihl, ihr]

end Expr

end DiceOdds
