import DiceOdds.Arithmetic.Rational
import DiceOdds.Proofs.Rolling
import DiceOdds.Proofs.Token.Spacing

/-!
# Separators mean nothing

The parser looks at what its tokens are and not at where they stand; places are only repeated in
errors. So two rows of tokens that differ in nothing but their places are read as the same
expression, or refused for the same cause with the same slice (`unplaced_ofTokens`), and so are
two texts that differ in nothing but the separators around their tokens (`parse_respace`).
-/

namespace DiceOdds

open Token

/-- An error without its place: what is wrong, and with which piece of the text. -/
def ParseError.unplaced (err : ParseError) : ParseError.Cause × List Char := (err.cause, err.slice)

variable {α : Type} [Arithmetic α]

namespace ParseState

/-- What a token leads to does not depend on its place. -/
theorem unplaced_step {t t' : Token} (h : t.content = t'.content) (s : ParseState α) :
    (s.step t).mapError ParseError.unplaced = (s.step t').mapError ParseError.unplaced := by
  obtain ⟨kind, start, text⟩ := t
  obtain ⟨kind', start', text'⟩ := t'
  obtain ⟨rfl, rfl⟩ := Prod.mk.inj h
  cases s with
  | operand outer pending =>
    simp only [step, stepOperand]
    split
    · split <;> rfl
    · rfl
    · rfl
    · rfl
    · rfl
    · rfl
  | call outer pending f =>
    simp only [step]
    split <;> rfl
  | operator outer pending dice =>
    simp only [step]
    split
    · rfl
    · rfl
    · rfl
    · cases outer with
      | nil =>
        simp only [stepClose]
        split <;> rfl
      | cons level outer =>
        simp only [stepClose]
        split <;> rfl

/-- What a row of tokens leads to does not depend on their places. -/
theorem unplaced_foldlM {tokens tokens' : List Token}
    (h : tokens.map content = tokens'.map content) (s : ParseState α) :
    (tokens.foldlM step s).mapError ParseError.unplaced =
      (tokens'.foldlM step s).mapError ParseError.unplaced := by
  induction tokens generalizing tokens' s with
  | nil => rw [List.map_eq_nil_iff.mp h.symm]
  | cons t tokens ih =>
    obtain ⟨t', tokens', rfl, ht, htokens⟩ := List.map_eq_cons_iff.mp h.symm
    rw [List.foldlM_cons, List.foldlM_cons, Except.mapError_bind, Except.mapError_bind,
      unplaced_step ht.symm]
    exact congrArg _ (funext fun s' => ih htokens.symm s')

omit [Arithmetic α] in
/-- What the end of the text leads to does not depend on where it is. -/
theorem unplaced_finish (length length' : Nat) (s : ParseState α) :
    (s.finish length).mapError ParseError.unplaced =
      (s.finish length').mapError ParseError.unplaced := by
  cases s with
  | operand => rfl
  | call => rfl
  | operator outer => cases outer <;> rfl

end ParseState

namespace Expr

/-- Tokens are read the same wherever they stand. -/
theorem unplaced_ofTokens {tokens tokens' : List Token}
    (h : tokens.map content = tokens'.map content) (length length' : Nat) :
    (ofTokens tokens length : Except ParseError (Expr α)).mapError ParseError.unplaced =
      (ofTokens tokens' length').mapError ParseError.unplaced := by
  unfold ofTokens
  rw [Except.mapError_bind, Except.mapError_bind, ParseState.unplaced_foldlM h]
  exact congrArg _ (funext (ParseState.unplaced_finish length length'))

/-- A text whose tokens are written with other separators before, between and after them, but with
some wherever there were some between two, has the same tokens. It is the same expression, or no
expression for the same cause and with the same slice. -/
theorem parse_respace {text text' : String} {rows : List Spaced} {last : List Char}
    (hrows : rows.map (·.token) = scan text) (hlast : ∀ c ∈ last, c ∈ separators)
    (hapart : KeepsApart rows) (htext : text'.toList = respace rows last) :
    (scan text').map content = (scan text).map content ∧
      (parse text' : Except ParseError (Expr α)).mapError ParseError.unplaced =
        (parse text).mapError ParseError.unplaced := by
  have hcontent : (scan text').map content = (scan text).map content := by
    rw [scan, htext]
    exact map_content_scanFrom_respace hlast hrows hapart 0
  exact ⟨hcontent, unplaced_ofTokens hcontent _ _⟩

/-- The decimal after `1 ` stays one token too many, whatever separates the two. -/
theorem parse_respace_trailing_decimal :
    ∃ rows : List Spaced, rows.map (·.token) = scan "1 .5" ∧ KeepsApart rows ∧
      "1\n\t.5 ".toList = respace rows [' '] ∧
      (scan "1\n\t.5 ").map content = [(.integer, ['1']), (.decimal, ['.', '5'])] ∧
      (parse "1\n\t.5 " : Except ParseError (Expr Rat)).mapError ParseError.unplaced =
        .error (.trailingInput .decimal, ['.', '5']) := by
  have hscan : scan "1 .5" = [⟨.integer, 0, ['1']⟩, ⟨.decimal, 2, ['.', '5']⟩] := by
    change scanFrom 0 (['1'] ++ ' ' :: ('.' :: ['5'] ++ [])) = _
    rw [scanFrom_digits (List.cons_ne_nil _ _) (List.forall_mem_singleton.mpr rfl)
        (ends_cons rfl (by decide)), scanFrom_separator rfl, scanFrom_longest rfl rfl, scanFrom]
    rfl
  let rows : List Spaced :=
    [⟨[], ⟨.integer, 0, ['1']⟩, fun _ h => (List.not_mem_nil h).elim⟩,
      ⟨['\n', '\t'], ⟨.decimal, 2, ['.', '5']⟩, by simp [separators]⟩]
  have hapart : KeepsApart rows := .cons_cons (fun _ => List.cons_ne_nil _ _) (.singleton _)
  obtain ⟨htokens, hparse⟩ := @parse_respace Rat _ "1 .5" "1\n\t.5 " rows [' '] hscan.symm
    (by simp [separators]) hapart rfl
  refine ⟨rows, hscan.symm, hapart, rfl, ?_, ?_⟩
  · rw [htokens, hscan]
    rfl
  · rw [hparse, parse, hscan]
    rfl

end Expr

end DiceOdds
