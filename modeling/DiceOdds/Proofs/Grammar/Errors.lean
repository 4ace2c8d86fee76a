import DiceOdds.Arithmetic.Rational
import DiceOdds.Proofs.Grammar.Parse
import DiceOdds.Proofs.Token.Pieces
import DiceOdds.Proofs.Token.Tiling

/-!
# Where a text stops being an expression

Whatever has been read can be completed to an expression: a term follows where one is missing, and
then the open brackets are closed one by one (`Reading.isCompletable`). So the parser goes on
exactly as long as the tokens are the beginning of a sentence (`isViable_iff_foldlM`), and the token
at which it stops is the first after which no sentence is left. What the error says of that token is
read off the state before it (`ParseState.blames_of_step`).
-/

namespace DiceOdds

variable {α : Type} [Arithmetic α]

/-! ## Sentences and their beginnings -/

/-- A row of tokens is a sentence if it has a derivation and no integer in it is too large. No
derivation has an error token. -/
def IsSentence (tokens : List Token) : Prop :=
  (∀ t ∈ tokens, t.InRange) ∧ ∃ D : Derivation .sum, D.yield = tokens

/-- A row of tokens is viable if a sentence begins with it. -/
def IsViable (tokens : List Token) : Prop := ∃ rest, IsSentence (tokens ++ rest)

/-- A row of tokens admits a kind if it stays viable with any token of that kind that is in range
after it. -/
def Admits (tokens : List Token) (kind : TokenKind) : Prop :=
  ∀ t : Token, t.kind = kind → t.InRange → IsViable (tokens ++ [t])

/-! ## Completing what has been read -/

namespace Completion

/-- A term that can stand wherever one is missing. -/
def one : TokenOf .integer := ⟨⟨.integer, 0, ['1']⟩, rfl⟩

/-- The token that opens the bracket of a call. -/
def leftParen : TokenOf .leftParen := ⟨⟨.leftParen, 0, ['(']⟩, rfl⟩

/-- The token that ends most brackets. -/
def rightParen : TokenOf .rightParen := ⟨⟨.rightParen, 0, [')']⟩, rfl⟩

/-- The token that ends the first operand of `prob`. -/
def comma : TokenOf .comma := ⟨⟨.comma, 0, [',']⟩, rfl⟩

/-- The term is in range. -/
theorem inRange_one : one.1.InRange := fun _ => by decide

end Completion

namespace Reading

open Completion

/-- Whether tokens in range lead from what has been read to a whole derivation. -/
def IsCompletable (S : Reading) : Prop :=
  ∃ rest, (∀ t ∈ rest, t.InRange) ∧ ∃ S' D, S.Reads rest S' ∧ S'.finish = some D

/-- What can be completed after one more token can be completed. -/
theorem IsCompletable.of_step {S S₁ : Reading} {kind : TokenKind} {t : TokenOf kind}
    (hrange : t.1.InRange) (hstep : S.stepOf kind t = some S₁) (h : S₁.IsCompletable) :
    S.IsCompletable := by
  obtain ⟨rest, hranges, S', D, hread, hfinish⟩ := h
  exact ⟨t.1 :: rest, List.forall_mem_cons.mpr ⟨hrange, hranges⟩, S', D, .cons hstep hread, hfinish⟩

/-- After complete dice the open brackets can be closed, whatever waits in them. -/
theorem isCompletable_operator (outer : List OpenLevel) (w : Waiting) (e : Derivation .dice) :
    (operator outer w e).IsCompletable := by
  have hright : rightParen.1.InRange := inRange_of_ne (by decide) rightParen
  induction outer generalizing w e with
  | nil => exact ⟨[], fun _ h => (List.not_mem_nil h).elim, _, _, .nil _, rfl⟩
  | cons level outer ih =>
    obtain ⟨o, w'⟩ := level
    cases o with
    | paren | roll | avg | prob => exact .of_step (t := rightParen) hright rfl (ih _ _)
    | target =>
      -- The comma opens a second operand, which is closed in turn.
      have hcomma : comma.1.InRange := inRange_of_ne (by decide) comma
      exact .of_step (t := comma) hcomma rfl (.of_step (t := one) inRange_one rfl
        (.of_step (t := rightParen) hright rfl (ih _ _)))

/-- Where a term has to follow, one can. -/
theorem isCompletable_operand (outer : List OpenLevel) (w : Waiting) :
    (operand outer w).IsCompletable :=
  .of_step (t := one) inRange_one rfl (isCompletable_operator outer w _)

/-- Whatever has been read can be completed. -/
theorem isCompletable (S : Reading) : S.IsCompletable := by
  cases S with
  | operand outer w => exact isCompletable_operand outer w
  | operator outer w e => exact isCompletable_operator outer w e
  | call outer w f name =>
    have hleft : leftParen.1.InRange := inRange_of_ne (by decide) leftParen
    refine .of_step (t := leftParen) hleft rfl ?_
    cases f with
    | roll | avg | prob => exact isCompletable_operand _ _

end Reading

/-- A row of tokens is viable exactly if it can be read. -/
theorem isViable_iff_reads (tokens : List Token) :
    IsViable tokens ↔
      (∀ t ∈ tokens, t.InRange) ∧ ∃ S, (Reading.operand [] {}).Reads tokens S := by
  constructor
  · rintro ⟨rest, hranges, D, hyield⟩
    have hderive := derive?_yield D
    rw [hyield, derive?, List.foldlM_append] at hderive
    obtain ⟨S', hread, -⟩ := Option.bind_eq_some_iff.mp hderive
    obtain ⟨S, hread, -⟩ := Option.bind_eq_some_iff.mp hread
    exact ⟨fun t ht => hranges t (List.mem_append_left rest ht), S, hread⟩
  · rintro ⟨hranges, S, hread⟩
    obtain ⟨rest, hranges', S', D, hread', hfinish⟩ := S.isCompletable
    refine ⟨rest, List.forall_mem_append.mpr ⟨hranges, hranges'⟩, D, ?_⟩
    exact yield_of_derive? (Option.bind_eq_some_iff.mpr ⟨S', hread.append hread', hfinish⟩)

/-- A row of tokens is viable exactly if the parser gets to its end. -/
theorem isViable_iff_foldlM (tokens : List Token) :
    IsViable tokens ↔ ∃ s : ParseState α, tokens.foldlM ParseState.step .start = .ok s := by
  have hrun := Reading.foldlM_state_iff (α := α) tokens (.operand [] {})
  rw [isViable_iff_reads]
  constructor
  · rintro ⟨hranges, S, hread⟩
    exact ⟨S.state, (hrun S.state).mpr ⟨hranges, S, hread, rfl⟩⟩
  · rintro ⟨s, hs⟩
    obtain ⟨hranges, S, hread, -⟩ := (hrun s).mp hs
    exact ⟨hranges, S, hread⟩

/-- A row of tokens is a sentence exactly if the parser makes an expression of it. -/
theorem isSentence_iff_ofTokens (tokens : List Token) (length : Nat) :
    IsSentence tokens ↔ ∃ e : Expr α, Expr.ofTokens tokens length = .ok e := by
  simp only [Expr.ofTokens_eq_ok_iff]
  constructor
  · rintro ⟨hranges, D, hyield⟩
    exact ⟨D.tree, hranges, D, hyield, rfl⟩
  · rintro ⟨e, hranges, D, hyield, -⟩
    exact ⟨hranges, D, hyield⟩

/-! ## Why a token is refused -/

/-- The kinds of tokens that a cause names as right. -/
def ParseError.Cause.expected : ParseError.Cause → List TokenKind
  | unexpectedToken _ kinds | unexpectedText kinds => kinds
  | invalidNumber | trailingInput _ => []

namespace ParseState

/-- Whether the parser goes on from a state with every token of a kind that is in range. -/
def GoesOn (s : ParseState α) (kind : TokenKind) : Prop :=
  ∀ t : Token, t.kind = kind → t.InRange → ∃ s', s.step t = .ok s'

/-- What a cause says of a state and the token refused there: the kinds it names as right are so,
and it blames a number or a character exactly where that is what is wrong. -/
structure Blames (s : ParseState α) (t : Token) (cause : ParseError.Cause) : Prop where
  /-- The parser goes on with every kind that is named. -/
  expected : ∀ kind ∈ cause.expected, s.GoesOn kind
  /-- A number is blamed exactly if it is too large where an integer may stand. -/
  invalidNumber : cause = .invalidNumber ↔ t.kind = .integer ∧ ¬ t.InRange ∧ s.GoesOn .integer
  /-- A character is blamed exactly if it begins no token. -/
  unexpectedText : (∃ kinds, cause = .unexpectedText kinds) ↔ t.kind = .error

/-- The cause that is given for a token that is none of the expected ones. -/
theorem Blames.unexpected {s : ParseState α} {t : Token} {kinds : List TokenKind}
    (hexpected : ∀ kind ∈ kinds, s.GoesOn kind)
    (hnumber : ¬ (t.kind = .integer ∧ s.GoesOn .integer)) :
    ∃ cause, .unexpected t kinds = ParseError.atToken t cause ∧ s.Blames t cause := by
  have hnumber' : ¬ (t.kind = .integer ∧ ¬ t.InRange ∧ s.GoesOn .integer) :=
    fun h => hnumber ⟨h.1, h.2.2⟩
  refine ⟨_, rfl, ?_⟩
  split
  next herror =>
    exact ⟨hexpected, iff_of_false (fun h => by cases h) hnumber', iff_of_true ⟨_, rfl⟩ herror⟩
  next herror =>
    exact ⟨hexpected, iff_of_false (fun h => by cases h) hnumber',
      iff_of_false (fun ⟨_, h⟩ => by cases h) herror⟩

/-- Where a term has to follow, the parser goes on with all that a term starts with. -/
theorem goesOn_operand (outer : List (Level α)) (pending : Pending α) :
    ∀ kind ∈ termStarts, (operand outer pending).GoesOn kind := by
  intro kind hkind t ht hrange
  simp only [termStarts, List.mem_cons, List.not_mem_nil, or_false] at hkind
  unfold step stepOperand
  rcases hkind with rfl | rfl | rfl | rfl | rfl | rfl
  · simp only [ht]
    rw [if_pos ((Token.inRange_iff ht).mp hrange)]
    exact ⟨_, rfl⟩
  all_goals
    simp only [ht]
    exact ⟨_, rfl⟩

/-- Where a term has to follow, what is refused is an integer that is too large or starts no
term. -/
theorem blames_of_stepOperand {outer : List (Level α)} {pending : Pending α} {t : Token}
    {err : ParseError} (h : stepOperand outer pending t = .error err) :
    ∃ cause, err = .atToken t cause ∧ (operand outer pending).Blames t cause := by
  have hgoes := goesOn_operand outer pending
  unfold stepOperand at h
  split at h
  next hkind =>
    dsimp only at h
    split at h
    · cases h
    next hlarge =>
      refine ⟨.invalidNumber, (Except.error.inj h).symm, ?_⟩
      have hrange : ¬ t.InRange := mt (Token.inRange_iff hkind).mp hlarge
      exact ⟨fun _ hk => (List.not_mem_nil hk).elim,
        iff_of_true rfl ⟨hkind, hrange, hgoes _ (by decide)⟩,
        iff_of_false (fun ⟨_, hc⟩ => by cases hc) (by rw [hkind]; decide)⟩
  · cases h
  · cases h
  · cases h
  · cases h
  next hinteger _ _ _ _ =>
    rw [← Except.error.inj h]
    exact Blames.unexpected hgoes fun hnumber => hinteger hnumber.1

/-- After the name of a reduction what is refused is anything but its parenthesis. -/
theorem blames_of_step_call {outer : List (Level α)} {pending : Pending α} {f : Reduction}
    {t : Token} {err : ParseError} (h : (call outer pending f).step t = .error err) :
    ∃ cause, err = .atToken t cause ∧ (call outer pending f).Blames t cause := by
  have hgoes : ∀ kind ∈ [TokenKind.leftParen], (call outer pending f).GoesOn kind := by
    intro kind hkind t ht _
    rw [List.mem_singleton.mp hkind] at ht
    exact ⟨_, if_pos ht⟩
  have hinteger : ¬ (call outer pending f).GoesOn .integer := by
    intro hgoes
    obtain ⟨s', hs'⟩ := hgoes Completion.one.1 rfl Completion.inRange_one
    cases hs'
  simp only [step] at h
  split at h
  · cases h
  · rw [← Except.error.inj h]
    exact Blames.unexpected hgoes fun hnumber => hinteger hnumber.2

/-- After complete dice the parser goes on with every operator. -/
theorem goesOn_operator (outer : List (Level α)) (pending : Pending α) (dice : Expr α) :
    ∀ kind ∈ operators, (operator outer pending dice).GoesOn kind := by
  intro kind hkind t ht _
  simp only [operators, List.mem_cons, List.not_mem_nil, or_false] at hkind
  unfold step
  rcases hkind with rfl | rfl | rfl
  all_goals
    simp only [ht]
    exact ⟨_, rfl⟩

/-- Inside a bracket the parser goes on with the token that ends it. -/
theorem goesOn_closer (level : Level α) (outer : List (Level α)) (pending : Pending α)
    (dice : Expr α) : (operator (level :: outer) pending dice).GoesOn level.bracket.closer := by
  intro t ht _
  obtain ⟨bracket, pending'⟩ := level
  unfold step stepClose
  cases bracket with
  | paren | roll | avg | target | prob =>
    simp only [ht, Bracket.closer, if_true]
    exact ⟨_, rfl⟩

/-- After complete dice no term can follow. -/
theorem not_goesOn_integer (outer : List (Level α)) (pending : Pending α) (dice : Expr α) :
    ¬ (operator outer pending dice).GoesOn .integer := by
  intro hgoes
  obtain ⟨s', hs'⟩ := hgoes Completion.one.1 rfl Completion.inRange_one
  cases outer with
  | nil => cases hs'
  | cons level outer =>
    obtain ⟨bracket, pending'⟩ := level
    cases bracket with
    | paren | roll | avg | target | prob => cases hs'

/-- After complete dice what is refused is anything but an operator and what ends the bracket. -/
theorem blames_of_stepClose {outer : List (Level α)} {pending : Pending α} {dice : Expr α}
    {t : Token} {err : ParseError} (h : stepClose outer pending dice t = .error err) :
    ∃ cause, err = .atToken t cause ∧ (operator outer pending dice).Blames t cause := by
  have hinteger := not_goesOn_integer outer pending dice
  unfold stepClose at h
  cases outer with
  | nil =>
    dsimp only at h
    split at h
    · rw [← Except.error.inj h]
      exact Blames.unexpected (goesOn_operator [] pending dice) fun hnumber => hinteger hnumber.2
    next herror =>
      refine ⟨.trailingInput t.kind, (Except.error.inj h).symm, ?_⟩
      exact ⟨fun _ hk => (List.not_mem_nil hk).elim,
        iff_of_false (fun hc => by cases hc) fun hnumber => hinteger hnumber.2.2,
        iff_of_false (fun ⟨_, hc⟩ => by cases hc) herror⟩
  | cons level outer =>
    dsimp only at h
    split at h
    · cases h
    · rw [← Except.error.inj h]
      refine Blames.unexpected (fun kind hkind => ?_) fun hnumber => hinteger hnumber.2
      rw [List.mem_singleton.mp hkind]
      exact goesOn_closer level outer pending dice

/-- A token that is refused is blamed for what is wrong with it in its place. -/
theorem blames_of_step {s : ParseState α} {t : Token} {err : ParseError}
    (h : s.step t = .error err) : ∃ cause, err = .atToken t cause ∧ s.Blames t cause := by
  cases s with
  | operand outer pending => exact blames_of_stepOperand h
  | call outer pending f => exact blames_of_step_call h
  | operator outer pending dice =>
    simp only [step] at h
    split at h
    · cases h
    · cases h
    · cases h
    · exact blames_of_stepClose h

/-- At the end of the text what is missing is a term, a parenthesis or what ends a bracket. -/
theorem goesOn_of_finish {s : ParseState α} {length : Nat} {err : ParseError}
    (h : s.finish length = .error err) :
    ∃ kinds, err = .unexpectedEnd length kinds ∧ ∀ kind ∈ kinds, s.GoesOn kind := by
  cases s with
  | operand outer pending =>
    exact ⟨termStarts, (Except.error.inj h).symm, goesOn_operand outer pending⟩
  | call outer pending f =>
    refine ⟨[.leftParen], (Except.error.inj h).symm, fun kind hkind t ht _ => ?_⟩
    rw [List.mem_singleton.mp hkind] at ht
    exact ⟨_, if_pos ht⟩
  | operator outer pending dice =>
    cases outer with
    | nil => cases h
    | cons level outer =>
      refine ⟨[level.bracket.closer], (Except.error.inj h).symm, fun kind hkind => ?_⟩
      rw [List.mem_singleton.mp hkind]
      exact goesOn_closer level outer pending dice

end ParseState

/-! ## Where it stops -/

/-- A run of steps that fails does so at one element, after those before it went through. -/
theorem exists_of_foldlM_eq_error {σ τ ε : Type} {f : σ → τ → Except ε σ} {xs : List τ} {s : σ}
    {err : ε} (h : xs.foldlM f s = .error err) :
    ∃ before x after s', xs = before ++ x :: after ∧ before.foldlM f s = .ok s' ∧
      f s' x = .error err := by
  induction xs generalizing s with
  | nil => cases h
  | cons x xs ih =>
    rw [List.foldlM_cons] at h
    cases hstep : f s x with
    | error err' =>
      rw [hstep] at h
      exact ⟨[], x, xs, s, rfl, rfl, hstep.trans (congrArg Except.error (Except.error.inj h))⟩
    | ok s₁ =>
      rw [hstep] at h
      obtain ⟨before, y, after, s', hxs, hbefore, hy⟩ := ih h
      refine ⟨x :: before, y, after, s', congrArg (x :: ·) hxs, ?_, hy⟩
      rw [List.foldlM_cons, hstep]
      exact hbefore

section Read

variable {tokens : List Token} {s : ParseState α}
  (hread : tokens.foldlM ParseState.step .start = .ok s)

include hread

/-- What has been read is viable. -/
theorem isViable_of_foldlM : IsViable tokens := (isViable_iff_foldlM (α := α) tokens).mpr ⟨s, hread⟩

/-- What has been read stays viable with one more token exactly if the parser goes on with it. -/
theorem isViable_append_singleton_iff (t : Token) :
    IsViable (tokens ++ [t]) ↔ ∃ s', s.step t = .ok s' := by
  have hstep : (tokens ++ [t]).foldlM ParseState.step ParseState.start = s.step t := by
    rw [List.foldlM_append, hread]
    exact bind_pure (s.step t)
  rw [isViable_iff_foldlM (α := α), hstep]

/-- What has been read admits the kinds that the parser goes on with. -/
theorem admits_iff_goesOn (kind : TokenKind) : Admits tokens kind ↔ s.GoesOn kind :=
  forall_congr' fun t => imp_congr_right fun _ => imp_congr_right fun _ =>
    isViable_append_singleton_iff hread t

end Read

/-- A text that is no expression is reported at its first token after which no sentence is left, or
at its end if it is only the beginning of a sentence. The slice is the text of the span. A number is
blamed exactly if it is too large where an integer could stand, and a character exactly if it begins
no token; each kind of token that is named as right leaves a sentence. -/
theorem Expr.parse_error_at_first_hopeless {text : String} {err : ParseError}
    (h : (Expr.parse text : Except ParseError (Expr α)) = .error err) :
    (∃ before after, text.toList = before ++ err.slice ++ after ∧
      err.start = byteLength before ∧ err.stop = byteLength (before ++ err.slice)) ∧
    ∃ read, IsViable read ∧ (∀ kind ∈ err.cause.expected, Admits read kind) ∧
      ((∃ t rest, Token.scan text = read ++ t :: rest ∧
          err.start = t.start ∧ err.stop = t.stop ∧ err.slice = t.text ∧
          ¬ IsViable (read ++ [t]) ∧
          (err.cause = .invalidNumber ↔
            t.kind = .integer ∧ ¬ t.InRange ∧ Admits read .integer) ∧
          ((∃ kinds, err.cause = .unexpectedText kinds) ↔ t.kind = .error)) ∨
        (Token.scan text = read ∧
          err.start = byteLength text.toList ∧ err.stop = byteLength text.toList ∧ err.slice = [] ∧
          ¬ IsSentence read ∧
          err.cause ≠ .invalidNumber ∧ ∀ kinds, err.cause ≠ .unexpectedText kinds)) := by
  have hrun : ((Token.scan text).foldlM ParseState.step ParseState.start >>=
      ParseState.finish (α := α) (byteLength text.toList)) = .error err := h
  cases hscan : (Token.scan text).foldlM ParseState.step (ParseState.start (α := α)) with
  | error err' =>
    -- The parser stops at a token.
    rw [hscan] at hrun
    cases Except.error.inj hrun
    obtain ⟨read, t, rest, s, htokens, hread, hstep⟩ := exists_of_foldlM_eq_error hscan
    obtain ⟨cause, rfl, hblames⟩ := ParseState.blames_of_step hstep
    constructor
    · have ht : t ∈ Token.scan text := htokens ▸ List.mem_append_right read List.mem_cons_self
      obtain ⟨before, after, htext, hstart⟩ := Token.exists_slice ht
      rw [Nat.zero_add] at hstart
      refine ⟨before, after, htext, hstart, ?_⟩
      show t.start + byteLength t.text = _
      rw [hstart, byteLength_append]
      rfl
    · refine ⟨read, isViable_of_foldlM hread, fun kind hkind => ?_,
        .inl ⟨t, rest, htokens, rfl, rfl, rfl, ?_, ?_, hblames.unexpectedText⟩⟩
      · exact (admits_iff_goesOn hread kind).mpr (hblames.expected kind hkind)
      · rw [isViable_append_singleton_iff hread, hstep]
        rintro ⟨s', hs'⟩
        cases hs'
      · rw [admits_iff_goesOn hread]
        exact hblames.invalidNumber
  | ok s =>
    -- The parser stops at the end.
    rw [hscan] at hrun
    obtain ⟨kinds, rfl, hgoes⟩ := ParseState.goesOn_of_finish hrun
    constructor
    · exact ⟨text.toList, [], by rw [List.append_nil]; exact (List.append_nil _).symm, rfl,
        (congrArg byteLength (List.append_nil _)).symm⟩
    · refine ⟨Token.scan text, isViable_of_foldlM hscan, fun kind hkind => ?_,
        .inr ⟨rfl, rfl, rfl, rfl, ?_, (by rintro ⟨⟩), by rintro kinds ⟨⟩⟩⟩
      · exact (admits_iff_goesOn hscan kind).mpr (hgoes kind hkind)
      · rw [isSentence_iff_ofTokens (α := α) _ (byteLength text.toList)]
        rintro ⟨e, he⟩
        cases he.symm.trans h

/-- In `2 dd6` the second mark of dice is the first token after which no sentence is left. -/
theorem parse_error_at_first_hopeless_second_mark :
    ∃ err, (Expr.parse "2 dd6" : Except ParseError (Expr Rat)) = .error err ∧
      err.start = 3 ∧ err.cause = .unexpectedToken (some .dice) ParseState.termStarts ∧
      ∃ read, IsViable read ∧ (∀ kind ∈ err.cause.expected, Admits read kind) ∧
        ∃ t rest, Token.scan "2 dd6" = read ++ t :: rest ∧ t.start = 3 ∧
          ¬ IsViable (read ++ [t]) := by
  have hscan : Token.scan "2 dd6" =
      [⟨.integer, 0, ['2']⟩, ⟨.dice, 2, ['d']⟩, ⟨.dice, 3, ['d']⟩, ⟨.integer, 4, ['6']⟩] := by
    change Token.scanFrom 0 (['2'] ++ ' ' :: 'd' :: 'd' :: (['6'] ++ [])) = _
    rw [Token.scanFrom_digits (List.cons_ne_nil _ _) (List.forall_mem_singleton.mpr rfl)
        (Token.ends_cons rfl (by decide)),
      Token.scanFrom_separator rfl, Token.scanFrom_symbol rfl, Token.scanFrom_symbol rfl,
      Token.scanFrom_digits (List.cons_ne_nil _ _) (List.forall_mem_singleton.mpr rfl)
        Token.ends_nil, Token.scanFrom]
    rfl
  have h : (Expr.parse "2 dd6" : Except ParseError (Expr Rat)) =
      .error ⟨.unexpectedToken (some .dice) ParseState.termStarts, 3, 4, ['d']⟩ := by
    rw [Expr.parse, hscan]
    rfl
  obtain ⟨-, read, hread, hexpected, ⟨t, rest, hscan, hstart, -, -, ht, -⟩ | hend⟩ :=
    Expr.parse_error_at_first_hopeless h
  · exact ⟨_, h, rfl, rfl, read, hread, hexpected, t, rest, hscan, hstart.symm, ht⟩
  · cases hend.2.2.2.1

end DiceOdds
