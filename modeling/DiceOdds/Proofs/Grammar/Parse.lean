import DiceOdds.Proofs.Grammar.Reading

/-!
# The parser accepts its grammar

The parser keeps the expressions of the derivations that a `Reading` keeps, so each of its steps is
a step of a reading, unless an integer is too large (`agree_stepOf`). Hence it accepts the rows of
tokens that have a derivation and no integer that is too large, and what it makes of them is the
expression of that derivation.
-/

namespace DiceOdds

variable {α : Type} [Arithmetic α]

/-- A token is in range if it is no integer that is too large. -/
def Token.InRange (t : Token) : Prop :=
  t.kind = .integer → Token.placeValue t.text ≤ 2 ^ 63 - 1

/-- The parser tests whether an integer is in range. -/
theorem Token.inRange_iff {t : Token} (h : t.kind = .integer) :
    t.InRange ↔ ParseState.integerValue t.text ≤ maxInteger := by
  rw [integerValue_eq_placeValue]
  exact forall_prop_of_true h

/-! ## The expressions of what is read -/

/-- The operands that wait. -/
def Waiting.pending (w : Waiting) : Pending α where
  sum := w.sum.map fun l => l.1.tree
  product := w.product.map fun l => l.1.tree
  dice := w.dice.map fun l => l.1.elim (.int 1) Derivation.tree

/-- The open bracket. -/
def Opening.bracket : Opening → Bracket α
  | paren _ => .paren
  | roll _ _ => .roll
  | avg _ _ => .avg
  | target _ _ => .target
  | prob _ _ e _ => .prob e.tree

/-- The kind of token that ends the expression in a bracket. -/
def Opening.closer : Opening → TokenKind
  | target _ _ => .comma
  | _ => .rightParen

/-- A bracket is ended by the token that the parser expects. -/
theorem Opening.closer_bracket (o : Opening) : (o.bracket : Bracket α).closer = o.closer := by
  cases o with
  | paren | roll | avg | target | prob => rfl

/-- No bracket is ended by an integer. -/
theorem Opening.closer_ne_integer (o : Opening) : o.closer ≠ .integer := by
  cases o with
  | paren | roll | avg | target | prob =>
    intro h
    cases h

/-- The open bracket with the operands that wait in front of it. -/
def OpenLevel.level (level : OpenLevel) : Level α := ⟨level.opening.bracket, level.waiting.pending⟩

/-- The state of the parser after what has been read. -/
def Reading.state : Reading → ParseState α
  | operand outer w => .operand (outer.map OpenLevel.level) w.pending
  | call outer w f _ => .call (outer.map OpenLevel.level) w.pending f
  | operator outer w e => .operator (outer.map OpenLevel.level) w.pending e.tree

namespace Waiting

/-- The expression of the dice that a term completes. -/
theorem tree_toDice (w : Waiting) (e : Derivation .term) :
    ((w.toDice e).tree : Expr α) = w.pending.toDice e.tree := by
  unfold toDice Pending.toDice pending
  rcases w.dice with _ | ⟨_ | l, d⟩
  · rfl
  · rfl
  · rfl

/-- The expression of the product that complete dice belong to. -/
theorem tree_toProduct (w : Waiting) (e : Derivation .dice) :
    ((w.toProduct e).tree : Expr α) = w.pending.toProduct e.tree := by
  unfold toProduct Pending.toProduct pending
  rcases w.product with _ | ⟨l, s⟩
  · rfl
  · rfl

/-- The expression of the sum that complete dice belong to. -/
theorem tree_toSum (w : Waiting) (e : Derivation .dice) :
    ((w.toSum e).tree : Expr α) = w.pending.toSum e.tree := by
  unfold Pending.toSum
  rw [← tree_toProduct]
  unfold toSum pending
  rcases w.sum with _ | ⟨l, s⟩
  · rfl
  · rfl

end Waiting

namespace Reading

/-- The state of the parser after a term. -/
theorem state_term (outer : List OpenLevel) (w : Waiting) (e : Derivation .term) :
    ((term outer w e).state : ParseState α) =
      .term (outer.map OpenLevel.level) w.pending e.tree :=
  congrArg (ParseState.operator _ _) (w.tree_toDice e)

/-! ## One token -/

/-- The steps `x` of the parser and `y` of a reading agree on a token that satisfies `range` if it
is in range: they both fail, or both succeed with the same state. -/
def Agree (x : Except ParseError (ParseState α)) (range : Prop) (y : Option Reading) : Prop :=
  ∀ s, x = .ok s ↔ range ∧ ∃ S, y = some S ∧ S.state = s

/-- Steps that succeed agree if they reach the same state. -/
theorem Agree.of_ok {range : Prop} {S : Reading} {s : ParseState α} (hrange : range)
    (hs : s = S.state) : Agree (.ok s) range (some S) := by
  intro s'
  rw [Except.ok.injEq]
  constructor
  · rintro rfl
    exact ⟨hrange, S, rfl, hs.symm⟩
  · rintro ⟨-, S', hS, rfl⟩
    rw [hs, Option.some.inj hS]

/-- Steps that fail agree. -/
theorem Agree.of_error {e : ParseError} {range : Prop} :
    Agree (.error e : Except ParseError (ParseState α)) range none := by
  intro s
  constructor
  · intro h
    cases h
  · rintro ⟨-, S, hS, -⟩
    cases hS

/-- A token out of range has to fail. -/
theorem Agree.of_not_range {e : ParseError} {range : Prop} (h : ¬ range) (y : Option Reading) :
    Agree (.error e : Except ParseError (ParseState α)) range y := by
  intro s
  constructor
  · intro h
    cases h
  · exact fun hrange => absurd hrange.1 h

/-- A token of another kind is in range. -/
theorem inRange_of_ne {kind : TokenKind} (h : kind ≠ .integer)
    (t : TokenOf kind) : t.1.InRange :=
  fun hkind => absurd (t.2.symm.trans hkind) h

/-- Where a term has to follow, the parser steps as a reading does, up to the range of integers. -/
theorem agree_stepOperand (outer : List OpenLevel) (w : Waiting) {kind : TokenKind}
    (t : TokenOf kind) :
    Agree (α := α) (ParseState.stepOperand (outer.map OpenLevel.level) w.pending t.1) t.1.InRange
      (stepOperand outer w kind t) := by
  have hkind := t.2
  unfold ParseState.stepOperand
  cases kind with
  | integer =>
    simp only [hkind]
    by_cases hrange : t.1.InRange
    · rw [if_pos ((Token.inRange_iff hkind).mp hrange), Token.integerValue_eq_placeValue]
      exact .of_ok hrange (state_term outer w (.integer t)).symm
    · rw [if_neg (mt (Token.inRange_iff hkind).mpr hrange)]
      exact .of_not_range hrange _
  | decimal =>
    simp only [hkind]
    rw [Token.decimalValue_eq_pointValue]
    exact .of_ok (inRange_of_ne (by decide) t) (state_term outer w (.decimal t)).symm
  | leftParen =>
    simp only [hkind]
    exact .of_ok (inRange_of_ne (by decide) t) rfl
  | reduction f =>
    simp only [hkind]
    exact .of_ok (inRange_of_ne (by simp) t) rfl
  | dice =>
    cases hdice : w.dice with
    | none =>
      simp only [hkind, stepOperand, Waiting.pending, hdice]
      exact .of_ok (inRange_of_ne (by decide) t) rfl
    | some d =>
      simp only [hkind, stepOperand, Waiting.pending, hdice]
      exact .of_error
  | _ =>
    simp only [hkind]
    exact .of_error

/-- The token that ends a bracket closes it in a reading as in the parser. -/
theorem close_closer (outer : List OpenLevel) (w : Waiting) (e : Derivation .sum) (o : Opening)
    (t : TokenOf o.closer) :
    ∃ S, close outer w e o o.closer t = some S ∧
      (S.state : ParseState α) =
        ParseState.close (outer.map OpenLevel.level) w.pending e.tree o.bracket := by
  cases o with
  | paren l => exact ⟨_, rfl, state_term outer w (.paren l e t)⟩
  | roll f l => exact ⟨_, rfl, state_term outer w (.roll f l e t)⟩
  | avg f l => exact ⟨_, rfl, state_term outer w (.avg f l e t)⟩
  | target f l => exact ⟨_, rfl, rfl⟩
  | prob f l target c => exact ⟨_, rfl, state_term outer w (.prob f l target c e t)⟩

/-- No other token ends a bracket. -/
theorem close_of_ne {outer : List OpenLevel} {w : Waiting} {e : Derivation .sum} {o : Opening}
    {kind : TokenKind} (h : kind ≠ o.closer) (t : TokenOf kind) :
    close outer w e o kind t = none := by
  unfold close
  split
  · exact absurd rfl h
  · exact absurd rfl h
  · exact absurd rfl h
  · exact absurd rfl h
  · exact absurd rfl h
  · rfl

/-- After complete dice that are followed by no operator, the parser steps as a reading does. -/
theorem agree_stepClose (outer : List OpenLevel) (w : Waiting) (e : Derivation .dice)
    {kind : TokenKind} (t : TokenOf kind) :
    Agree (α := α) (ParseState.stepClose (outer.map OpenLevel.level) w.pending e.tree t.1)
      t.1.InRange (match outer with
        | [] => none
        | level :: outer => close outer level.waiting (w.toSum e) level.opening kind t) := by
  unfold ParseState.stepClose
  cases outer with
  | nil =>
    simp only [List.map_nil]
    split
    · exact .of_error
    · exact .of_error
  | cons level outer =>
    obtain ⟨o, w'⟩ := level
    simp only [List.map_cons, OpenLevel.level, ← Waiting.tree_toSum, Opening.closer_bracket, t.2]
    by_cases hkind : kind = o.closer
    · subst hkind
      obtain ⟨S, hclose, hstate⟩ := close_closer (α := α) outer w' (w.toSum e) o t
      rw [if_pos rfl, hclose]
      exact .of_ok (inRange_of_ne o.closer_ne_integer t) hstate.symm
    · rw [if_neg hkind, close_of_ne hkind]
      exact .of_error

/-- The parser steps as a reading does, up to the range of integers. -/
theorem agree_stepOf (S : Reading) {kind : TokenKind} (t : TokenOf kind) :
    Agree (α := α) (S.state.step t.1) t.1.InRange (S.stepOf kind t) := by
  have hkind := t.2
  cases S with
  | operand outer w => exact agree_stepOperand outer w t
  | call outer w f name =>
    show Agree (if t.1.kind = .leftParen then _ else _) _ _
    by_cases hl : kind = .leftParen
    · subst hl
      rw [if_pos hkind]
      refine .of_ok (inRange_of_ne (by decide) t) ?_
      cases f with
      | roll | avg | prob => rfl
    · rw [if_neg (fun h => hl (hkind.symm.trans h))]
      cases kind with
      | leftParen => exact absurd rfl hl
      | _ => exact .of_error
  | operator outer w e =>
    have hclose := agree_stepClose (α := α) outer w e t
    simp only [state, ParseState.step, hkind]
    -- An operator takes what binds more tightly than it, and any other token ends a bracket.
    cases kind with
    | dice => exact .of_ok (inRange_of_ne (by decide) t) rfl
    | star =>
      rw [← Waiting.tree_toProduct]
      exact .of_ok (inRange_of_ne (by decide) t) rfl
    | plus =>
      rw [← Waiting.tree_toSum]
      exact .of_ok (inRange_of_ne (by decide) t) rfl
    | _ =>
      cases outer with
      | nil => exact hclose
      | cons => exact hclose

/-! ## Rows of tokens -/

/-- The parser reads a row of tokens if no integer in it is too large and a reading reads it, and
stands then where the reading does. -/
theorem foldlM_state_iff (tokens : List Token) (S : Reading) (s : ParseState α) :
    tokens.foldlM ParseState.step S.state = .ok s ↔
      (∀ t ∈ tokens, t.InRange) ∧ ∃ S', S.Reads tokens S' ∧ S'.state = s := by
  induction tokens generalizing S with
  | nil =>
    constructor
    · intro h
      exact ⟨fun t ht => (List.not_mem_nil ht).elim, S, .nil S, Except.ok.inj h⟩
    · rintro ⟨-, S', hread, rfl⟩
      rw [← Option.some.inj hread]
      rfl
  | cons t tokens ih =>
    have hagree := agree_stepOf (α := α) S ⟨t, rfl⟩
    rw [List.foldlM_cons, List.forall_mem_cons]
    constructor
    · intro h
      cases hstep : (S.state : ParseState α).step t with
      | error err =>
        rw [hstep] at h
        cases h
      | ok s₁ =>
        rw [hstep] at h
        obtain ⟨hrange, S₁, hS₁, rfl⟩ := (hagree s₁).1 hstep
        obtain ⟨hranges, S', hread, hstate⟩ := (ih S₁).1 h
        exact ⟨⟨hrange, hranges⟩, S', .cons (t := ⟨t, rfl⟩) hS₁ hread, hstate⟩
    · rintro ⟨⟨hrange, hranges⟩, S', hread, hstate⟩
      unfold Reads at hread
      rw [List.foldlM_cons] at hread
      obtain ⟨S₁, hS₁, hrest⟩ := Option.bind_eq_some_iff.1 hread
      rw [show S.state.step t = _ from (hagree S₁.state).2 ⟨hrange, S₁, hS₁, rfl⟩]
      exact (ih S₁).2 ⟨hranges, S', hrest, hstate⟩

/-- The parser is done where a reading is. -/
theorem finish_state_iff (S : Reading) (length : Nat) (e : Expr α) :
    S.state.finish length = .ok e ↔ ∃ D, S.finish = some D ∧ D.tree = e := by
  have hfail : ∀ {err : ParseError}, (.error err : Except ParseError (Expr α)) = .ok e ↔
      ∃ D : Derivation .sum, none = some D ∧ D.tree = e := by
    intro err
    constructor
    · intro h
      cases h
    · rintro ⟨D, hD, -⟩
      cases hD
  cases S with
  | operand => exact hfail
  | call => exact hfail
  | operator outer w d =>
    cases outer with
    | nil =>
      show Except.ok (w.pending.toSum d.tree) = _ ↔ ∃ D, some (w.toSum d) = some D ∧ D.tree = e
      rw [Except.ok.injEq, ← Waiting.tree_toSum]
      constructor
      · intro h
        exact ⟨_, rfl, h⟩
      · rintro ⟨D, hD, htree⟩
        rw [Option.some.inj hD, htree]
    | cons => exact hfail

end Reading

/-- A row of tokens is read as the expression of its derivation, unless it has none or an integer in
it is too large. -/
theorem Expr.ofTokens_eq_ok_iff (tokens : List Token) (length : Nat) (e : Expr α) :
    Expr.ofTokens tokens length = .ok e ↔
      (∀ t ∈ tokens, t.InRange) ∧ ∃ D : Derivation .sum, D.yield = tokens ∧ D.tree = e := by
  have hrun := Reading.foldlM_state_iff (α := α) tokens (.operand [] {})
  have hderive : ∀ D, derive? tokens = some D ↔ D.yield = tokens := by
    intro D
    constructor
    · exact yield_of_derive?
    · rintro rfl
      exact derive?_yield D
  -- The parser starts where a reading starts that has nothing waiting.
  have hparse : Expr.ofTokens tokens length =
      (tokens.foldlM ParseState.step (Reading.operand [] {}).state).bind
        (ParseState.finish (α := α) length) := rfl
  rw [hparse]
  constructor
  · intro h
    cases hstate : tokens.foldlM (ParseState.step (α := α)) (Reading.operand [] {}).state with
    | error err =>
      rw [hstate] at h
      cases h
    | ok s =>
      rw [hstate] at h
      obtain ⟨hranges, S, hread, rfl⟩ := (hrun s).1 hstate
      obtain ⟨D, hfinish, htree⟩ := (S.finish_state_iff length e).1 h
      refine ⟨hranges, D, (hderive D).1 ?_, htree⟩
      exact Option.bind_eq_some_iff.2 ⟨S, hread, hfinish⟩
  · rintro ⟨hranges, D, hyield, htree⟩
    obtain ⟨S, hread, hfinish⟩ := Option.bind_eq_some_iff.1 ((hderive D).2 hyield)
    rw [(hrun S.state).2 ⟨hranges, S, hread, rfl⟩]
    exact (S.finish_state_iff length e).2 ⟨D, hfinish, htree⟩

/-- A text is an expression exactly if none of its tokens is an error, none of its integers is too
large and its tokens have a derivation, and it is the expression of that derivation. There is no
other derivation of these tokens. -/
theorem Expr.parse_eq_ok_iff (text : String) (e : Expr α) :
    (Expr.parse text = .ok e ↔
      (∀ t ∈ Token.scan text, t.kind ≠ .error) ∧
      (∀ t ∈ Token.scan text, t.kind = .integer →
        Token.placeValue t.text ≤ 2 ^ 63 - 1) ∧
      ∃ D : Derivation .sum, D.yield = Token.scan text ∧ D.tree = e) ∧
    ∀ D D' : Derivation .sum, D.yield = Token.scan text → D'.yield = Token.scan text → D = D' := by
  refine ⟨?_, fun D D' h h' => Derivation.yield_injective (h.trans h'.symm)⟩
  unfold Expr.parse
  rw [Expr.ofTokens_eq_ok_iff]
  constructor
  · rintro ⟨hranges, D, hyield, htree⟩
    -- That no token is an error need not be tested, as no derivation has one.
    exact ⟨hyield ▸ D.kind_ne_error, hranges, D, hyield, htree⟩
  · rintro ⟨-, hranges, D, hyield, htree⟩
    exact ⟨hranges, D, hyield, htree⟩

end DiceOdds
