import DiceOdds.Proofs.Decimal.Layout
import DiceOdds.Proofs.Grammar.Writing

/-!
# Texts and expressions

Which expressions are read from some text, and which of them from their own. Every shaped expression
is read from a text, since every double that is neither undefined nor negative is read from a
numeral. The text that is printed for an expression has its decimals as numerals only between
`10 ^ -4` and `10 ^ 16`; beyond, it is no expression at all.
-/

namespace DiceOdds.Expr

open Binary64 Token

/-- What is read from digits with a point has a clear sign bit. -/
theorem isUnsigned_ofDecimal (digits places : ℕ) :
    IsUnsigned (Arithmetic.ofDecimal digits places) :=
  isUnsigned_ofScientific digits places

/-- An expression is read from some text exactly if it has the shape of a sum: its integers are
neither negative nor larger than the largest one, its decimals are neither undefined nor have their
sign bit set, operators group to the left, and only parentheses and calls let an operator stand
inside of one that binds more tightly. -/
theorem exists_parse_eq_ok_iff (e : Expr Float) :
    (∃ text, Expr.parse text = .ok e) ↔
      e.Shaped (fun x => x.isNaN = false ∧ Binary.isNegative x = false) .sum := by
  constructor
  · rintro ⟨text, h⟩
    exact shaped_of_parse isUnsigned_ofDecimal h
  · intro h
    -- Each decimal is written as a numeral that is read as it, however long that is.
    have hnumeral (x : Float) : ∃ text : List Char, IsUnsigned x →
        ∃ n : Numeral, text = n.text ∧ Token.pointValue n.text = x := by
      by_cases hx : IsUnsigned x
      · obtain ⟨n, hn⟩ := Layout.exists_numeral_pointValue hx
        exact ⟨n.text, fun _ => ⟨n, rfl, hn⟩⟩
      · exact ⟨[], fun hx' => absurd hx' hx⟩
    choose number hnumber using hnumeral
    exact ⟨_, (h.readsAs hnumber).parse_eq⟩

/-- What is written for a decimal of an expression stands in what is written for the expression. -/
theorem mem_written {α : Type} {number : α → List Char} {e : Expr α} {x : α} (hx : x ∈ e.decimals)
    {c : Char} (hc : c ∈ number x) : c ∈ e.written number := by
  induction e with
  | int n => exact (List.not_mem_nil hx).elim
  | decimal y =>
    obtain rfl := List.mem_singleton.mp hx
    exact hc
  | paren e ih => simp [written, ih hx]
  | roll e ih | avg e ih => simp [written, callChars, ih hx]
  | binary l op r ihl ihr =>
    obtain hx | hx := List.mem_append.mp hx
    · simp [written, ihl hx]
    · simp [written, ihr hx]
  | prob target e iht ihe =>
    obtain hx | hx := List.mem_append.mp hx
    · simp [written, callChars, iht hx]
    · simp [written, callChars, ihe hx]

/-- What is read is made of separators and characters of tokens. -/
theorem isWritten_of_parse {α : Type} [Arithmetic α] {text : List Char} {e : Expr α}
    (h : Expr.parse (String.ofList text) = .ok e) :
    ∀ c ∈ text, isSeparator c = true ∨ IsWritten c := by
  obtain ⟨-, D, hyield, -⟩ := (Expr.ofTokens_eq_ok_iff _ _ e).mp h
  have herror := D.kind_ne_error
  rw [hyield, scan, String.toList_ofList] at herror
  exact isWritten_of_scanFrom herror

/-- An expression that was read is read again from the text that is printed for it exactly if each
of its decimals is 0 or at least `10 ^ -4` and below `10 ^ 16`, and nothing else is read from that
text. A decimal that is smaller or larger is printed with an exponent, and an infinite one as a
name, which no token is written with. -/
theorem parse_print_eq_ok_iff {text : String} {e : Expr Float} (h : Expr.parse text = .ok e)
    (e' : Expr Float) :
    Expr.parse e.print = .ok e' ↔ e' = e ∧ ∀ x ∈ e.decimals, x = 0 ∨ 1e-4 ≤ x ∧ x < 1e16 := by
  have hshape : e.Shaped IsUnsigned .sum := shaped_of_parse isUnsigned_ofDecimal h
  have hprint : e.print = String.ofList (e.written Layout.literal.number) := by
    rw [print_eq_ofList_chars, written_literal_number]
  have hread (hfull : ∀ x ∈ e.decimals, x = 0 ∨ 1e-4 ≤ x ∧ x < 1e16) :
      Expr.parse e.print = .ok e := by
    have hshape' : e.Shaped (fun x => IsUnsigned x ∧ (x = 0 ∨ 1e-4 ≤ x ∧ x < 1e16)) .sum :=
      hshape.of_decimals fun x hx => ⟨hshape.of_mem_decimals x hx, hfull x hx⟩
    rw [hprint]
    exact (hshape'.readsAs fun x hx => (Layout.number_literal hx.1).1 hx.2).parse_eq
  constructor
  · intro h'
    have hfull : ∀ x ∈ e.decimals, x = 0 ∨ 1e-4 ≤ x ∧ x < 1e16 := by
      intro x hx
      by_contra hx'
      obtain ⟨c, hc, hseparator, hwritten⟩ :=
        (Layout.number_literal (hshape.of_mem_decimals x hx)).2 hx'
      rw [hprint] at h'
      obtain hc' | hc' := isWritten_of_parse h' c (mem_written hx hc)
      · exact absurd (hseparator.symm.trans hc') Bool.false_ne_true
      · exact hwritten hc'
    rw [hread hfull] at h'
    exact ⟨(Except.ok.inj h').symm, hfull⟩
  · rintro ⟨rfl, hfull⟩
    exact hread hfull

/-- Half a die is printed without the spaces that it was read with, and read again. -/
theorem parse_print_half_die :
    ∃ e : Expr Float, Expr.parse "0.5 d 6" = .ok e ∧ e.print = "0.5d6" ∧
      (∀ x ∈ e.decimals, x = 0 ∨ 1e-4 ≤ x ∧ x < 1e16) ∧ Expr.parse e.print = .ok e := by
  have hscan : Token.scan "0.5 d 6" =
      [⟨.decimal, 0, ['0', '.', '5']⟩, ⟨.dice, 4, ['d']⟩, ⟨.integer, 6, ['6']⟩] := by
    cbv
  have h : Expr.parse "0.5 d 6" = .ok (.binary (.decimal (0.5 : Float)) .dice (.int 6)) := by
    rw [Expr.parse, hscan]
    rfl
  have hfull : ∀ x ∈ (binary (.decimal (0.5 : Float)) .dice (.int 6)).decimals,
      x = 0 ∨ 1e-4 ≤ x ∧ x < 1e16 :=
    List.forall_mem_singleton.mpr (.inr (by decide +kernel))
  exact ⟨_, h, by decide +kernel, hfull, (parse_print_eq_ok_iff h _).mpr ⟨rfl, hfull⟩⟩

/-- The decimal `10 ^ 16` is read from its digits but printed as `1e16`, which is no expression. -/
theorem not_forall_parse_print :
    ¬ ∀ (text : String) (e : Expr Float), Expr.parse text = .ok e → Expr.parse e.print = .ok e := by
  intro h
  have hscan : Token.scan "10000000000000000.0" =
      [⟨.decimal, 0, '1' :: List.replicate 16 '0' ++ ['.', '0']⟩] := by
    cbv
  have hvalue : Token.pointValue ('1' :: List.replicate 16 '0' ++ ['.', '0']) =
      (1e16 : Float) := by
    decide +kernel
  have hread : Expr.parse "10000000000000000.0" = .ok (decimal (1e16 : Float)) := by
    rw [Expr.parse, hscan, ← hvalue]
    rfl
  have hprint : (decimal 1e16).print = "1e16" := by
    decide +kernel
  have herror : (Expr.parse "1e16" : Except ParseError (Expr Float)) =
      .error ⟨.unexpectedText ParseState.operators, 1, 2, ['e']⟩ := by
    cbv
  have hagain := h _ _ hread
  rw [hprint, herror] at hagain
  cases hagain

end DiceOdds.Expr
