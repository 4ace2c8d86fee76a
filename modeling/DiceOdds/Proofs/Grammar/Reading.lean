import DiceOdds.Proofs.Grammar.Derivation

/-!
# Reading a derivation

A `Reading` is what has been read of a row of tokens, as the derivations that are complete and wait
for the rest. It moves token by token, and never guesses: a derivation is read back from its own
tokens (`derive?_yield`), and nothing else is (`yield_of_derive?`). So a row of tokens has at most
one derivation.
-/

namespace DiceOdds

/-! ## What waits -/

/-- The derivations at one level that wait for their right-hand side, with the tokens after them. -/
structure Waiting where
  /-- The summands before a `+`. -/
  sum : Option (Derivation .sum × TokenOf .plus) := none
  /-- The factors before a `*`. -/
  product : Option (Derivation .product × TokenOf .star) := none
  /-- The count before a mark of dice, if there is one. -/
  dice : Option (Option (Derivation .dice) × TokenOf .dice) := none

namespace Waiting

/-- The dice that a term completes. -/
def toDice (w : Waiting) (e : Derivation .term) : Derivation .dice :=
  match w.dice with
  | none => .ofTerm e
  | some (none, d) => .oneDie d e
  | some (some l, d) => .dice l d e

/-- The product that complete dice belong to. -/
def toProduct (w : Waiting) (e : Derivation .dice) : Derivation .product :=
  match w.product with
  | none => .ofDice e
  | some (l, s) => .times l s e

/-- The sum that complete dice belong to. -/
def toSum (w : Waiting) (e : Derivation .dice) : Derivation .sum :=
  match w.sum with
  | none => .ofProduct (w.toProduct e)
  | some (l, s) => .plus l s (w.toProduct e)

/-- The tokens up to the `+` that waits. -/
def summands (w : Waiting) : List Token := w.sum.elim [] fun (l, s) => l.yield ++ [s.1]

/-- The tokens up to the `*` that waits. -/
def factors (w : Waiting) : List Token :=
  w.summands ++ w.product.elim [] fun (l, s) => l.yield ++ [s.1]

/-- The tokens of all that waits. -/
def yield (w : Waiting) : List Token :=
  w.factors ++ w.dice.elim [] fun (l, d) => l.elim [] Derivation.yield ++ [d.1]

/-- Where nothing waits there are no tokens. -/
@[simp] theorem yield_empty : ({} : Waiting).yield = [] := rfl

/-- A term completes the dice that wait for it. -/
theorem yield_toDice (w : Waiting) (e : Derivation .term) :
    w.factors ++ (w.toDice e).yield = w.yield ++ e.yield := by
  unfold toDice yield
  rcases w.dice with _ | ⟨_ | l, d⟩
  · simp
  · simp
  · simp

/-- Complete dice end the product that waits for them. -/
theorem yield_toProduct (w : Waiting) (e : Derivation .dice) :
    w.summands ++ (w.toProduct e).yield = w.factors ++ e.yield := by
  unfold toProduct factors
  rcases w.product with _ | ⟨l, s⟩
  · simp
  · simp

/-- Complete dice end the sum that waits for them. -/
theorem yield_toSum (w : Waiting) (e : Derivation .dice) :
    (w.toSum e).yield = w.factors ++ e.yield := by
  rw [← yield_toProduct]
  unfold toSum summands
  rcases w.sum with _ | ⟨l, s⟩
  · simp
  · simp

end Waiting

/-! ## Open brackets -/

/-- A bracket that is open, with its tokens. -/
inductive Opening where
  /-- A parenthesis around an expression. -/
  | paren (l : TokenOf .leftParen)
  /-- The call of `roll`. -/
  | roll (f : TokenOf (.reduction .roll)) (l : TokenOf .leftParen)
  /-- The call of `avg`. -/
  | avg (f : TokenOf (.reduction .avg)) (l : TokenOf .leftParen)
  /-- The call of `prob`, before its comma. -/
  | target (f : TokenOf (.reduction .prob)) (l : TokenOf .leftParen)
  /-- The call of `prob` after its comma. -/
  | prob (f : TokenOf (.reduction .prob)) (l : TokenOf .leftParen) (target : Derivation .sum)
      (comma : TokenOf .comma)

/-- The tokens of an open bracket. -/
@[simp] def Opening.yield : Opening → List Token
  | paren l => [l.1]
  | roll f l | avg f l | target f l => [f.1, l.1]
  | prob f l e c => f.1 :: l.1 :: (e.yield ++ [c.1])

/-- A bracket that is open, and what waits in front of it. -/
structure OpenLevel where
  /-- The bracket. -/
  opening : Opening
  /-- What waits for it. -/
  waiting : Waiting

/-- The tokens of all open brackets, from the innermost outward. -/
@[simp] def OpenLevel.yields : List OpenLevel → List Token
  | [] => []
  | level :: outer => yields outer ++ level.waiting.yield ++ level.opening.yield

/-! ## Token by token -/

/-- What has been read of a row of tokens. -/
inductive Reading where
  /-- A term has to follow. -/
  | operand (outer : List OpenLevel) (waiting : Waiting)
  /-- The name of a reduction was read, and its parenthesis has to follow. -/
  | call (outer : List OpenLevel) (waiting : Waiting) (f : Reduction)
    (name : TokenOf (.reduction f))
  /-- Complete dice were read. What of dice was waiting before them is done with. -/
  | operator (outer : List OpenLevel) (waiting : Waiting) (dice : Derivation .dice)

namespace Reading

/-- A term has been read. -/
def term (outer : List OpenLevel) (w : Waiting) (e : Derivation .term) : Reading :=
  operator outer w (w.toDice e)

/-- What has been read after a token where a term has to follow. -/
def stepOperand (outer : List OpenLevel) (w : Waiting) :
    (kind : TokenKind) → TokenOf kind → Option Reading
  | .integer, n => some (term outer w (.integer n))
  | .decimal, x => some (term outer w (.decimal x))
  | .leftParen, l => some (operand (⟨.paren l, w⟩ :: outer) {})
  | .reduction f, name => some (call outer w f name)
  | .dice, d => w.dice.elim (some (operand outer { w with dice := some (none, d) })) fun _ => none
  | _, _ => none

/-- What has been read after the left parenthesis of a call. -/
def stepCall (outer : List OpenLevel) (w : Waiting) (l : TokenOf .leftParen) :
    (f : Reduction) → TokenOf (.reduction f) → Reading
  | .roll, name => operand (⟨.roll name l, w⟩ :: outer) {}
  | .avg, name => operand (⟨.avg name l, w⟩ :: outer) {}
  | .prob, name => operand (⟨.target name l, w⟩ :: outer) {}

/-- What has been read after the token that ends a bracket around `e`. -/
def close (outer : List OpenLevel) (w : Waiting) (e : Derivation .sum) :
    Opening → (kind : TokenKind) → TokenOf kind → Option Reading
  | .paren l, .rightParen, r => some (term outer w (.paren l e r))
  | .roll f l, .rightParen, r => some (term outer w (.roll f l e r))
  | .avg f l, .rightParen, r => some (term outer w (.avg f l e r))
  | .target f l, .comma, c => some (operand (⟨.prob f l e c, w⟩ :: outer) {})
  | .prob f l target c, .rightParen, r => some (term outer w (.prob f l target c e r))
  | _, _, _ => none

/-- What has been read after one more token of a known kind. -/
def stepOf : Reading → (kind : TokenKind) → TokenOf kind → Option Reading
  | operand outer w, kind, t => stepOperand outer w kind t
  | call outer w f name, .leftParen, l => some (stepCall outer w l f name)
  | operator outer w e, .dice, d => some (operand outer { w with dice := some (some e, d) })
  | operator outer w e, .star, s => some (operand outer ⟨w.sum, some (w.toProduct e, s), none⟩)
  | operator outer w e, .plus, s => some (operand outer ⟨some (w.toSum e, s), none, none⟩)
  | operator (level :: outer) w e, kind, t =>
    close outer level.waiting (w.toSum e) level.opening kind t
  | _, _, _ => none

/-- What has been read after one more token. -/
def step (S : Reading) (t : Token) : Option Reading := S.stepOf t.kind ⟨t, rfl⟩

/-- The derivation that was read, if it is complete. -/
def finish : Reading → Option (Derivation .sum)
  | operator [] w e => some (w.toSum e)
  | _ => none

/-- The tokens that were read. -/
def yield : Reading → List Token
  | operand outer w => OpenLevel.yields outer ++ w.yield
  | call outer w _ name => OpenLevel.yields outer ++ w.yield ++ [name.1]
  | operator outer w e => OpenLevel.yields outer ++ w.factors ++ e.yield

@[simp] theorem yield_operand (outer : List OpenLevel) (w : Waiting) :
    (operand outer w).yield = OpenLevel.yields outer ++ w.yield := rfl

@[simp] theorem yield_call (outer : List OpenLevel) (w : Waiting) (f : Reduction)
    (name : TokenOf (.reduction f)) :
    (call outer w f name).yield = OpenLevel.yields outer ++ w.yield ++ [name.1] := rfl

@[simp] theorem yield_operator (outer : List OpenLevel) (w : Waiting) (e : Derivation .dice) :
    (operator outer w e).yield = OpenLevel.yields outer ++ w.factors ++ e.yield := rfl

/-- The tokens read after a term. -/
@[simp] theorem yield_term (outer : List OpenLevel) (w : Waiting) (e : Derivation .term) :
    (term outer w e).yield = OpenLevel.yields outer ++ w.yield ++ e.yield := by
  rw [term, yield_operator, List.append_assoc, Waiting.yield_toDice, List.append_assoc]

/-- A token whose kind is known is read as one of that kind. -/
theorem step_eq (S : Reading) {kind : TokenKind} (t : TokenOf kind) :
    S.step t.1 = S.stepOf kind t := by
  obtain ⟨t, rfl⟩ := t
  rfl

/-! ## Nothing is read but what is there -/

/-- A token where a term has to follow is read and nothing else. -/
theorem yield_stepOperand {outer : List OpenLevel} {w : Waiting} {kind : TokenKind}
    {t : TokenOf kind} {S : Reading} (h : stepOperand outer w kind t = some S) :
    S.yield = OpenLevel.yields outer ++ w.yield ++ [t.1] := by
  cases kind with
  | integer | decimal =>
    rw [← Option.some.inj h, yield_term]
    rfl
  | leftParen =>
    rw [← Option.some.inj h]
    simp
  | reduction f =>
    rw [← Option.some.inj h]
    rfl
  | dice =>
    -- A prefix stands only where no count waits.
    simp only [stepOperand] at h
    cases hdice : w.dice with
    | none =>
      rw [hdice] at h
      rw [← Option.some.inj h]
      simp [Waiting.yield, Waiting.factors, Waiting.summands, hdice]
    | some d =>
      rw [hdice] at h
      cases h
  | _ => cases h

/-- The token that ends a bracket is read and nothing else. -/
theorem yield_close {outer : List OpenLevel} {w : Waiting} {e : Derivation .sum} {o : Opening}
    {kind : TokenKind} {t : TokenOf kind} {S : Reading}
    (h : close outer w e o kind t = some S) :
    S.yield = OpenLevel.yields outer ++ w.yield ++ o.yield ++ e.yield ++ [t.1] := by
  unfold close at h
  split at h
  · simp [← Option.some.inj h]
  · simp [← Option.some.inj h]
  · simp [← Option.some.inj h]
  · simp [← Option.some.inj h]
  · simp [← Option.some.inj h]
  · cases h

/-- One more token is read and nothing else. -/
theorem yield_stepOf {S S' : Reading} {kind : TokenKind} {t : TokenOf kind}
    (h : S.stepOf kind t = some S') : S'.yield = S.yield ++ [t.1] := by
  unfold stepOf at h
  split at h
  · exact yield_stepOperand h
  · next f name l =>
    rw [← Option.some.inj h]
    cases f with
    | roll | avg | prob => simp [stepCall]
  · rw [← Option.some.inj h]
    simp [Waiting.yield, Waiting.factors, Waiting.summands]
  · next outer w e s =>
    have hproduct := w.yield_toProduct e
    rw [← Option.some.inj h]
    simp only [yield_operand, yield_operator, List.append_assoc, ← hproduct]
    simp [Waiting.yield, Waiting.factors, Waiting.summands]
  · next outer w e s =>
    rw [← Option.some.inj h]
    simp [Waiting.yield, Waiting.factors, Waiting.summands, Waiting.yield_toSum]
  · rw [yield_close h, Waiting.yield_toSum]
    simp
  · cases h

/-- The tokens `tokens` are read from `S` to `S'`. -/
def Reads (S : Reading) (tokens : List Token) (S' : Reading) : Prop :=
  tokens.foldlM step S = some S'

/-- A row of tokens is read and nothing else. -/
theorem Reads.yield_eq {tokens : List Token} {S S' : Reading} (h : S.Reads tokens S') :
    S'.yield = S.yield ++ tokens := by
  unfold Reads at h
  induction tokens generalizing S with
  | nil =>
    rw [List.append_nil, Option.some.inj h]
  | cons t tokens ih =>
    rw [List.foldlM_cons] at h
    obtain ⟨S₁, hstep, hrest⟩ := Option.bind_eq_some_iff.1 h
    rw [ih hrest, yield_stepOf (t := ⟨t, rfl⟩) hstep, List.append_assoc]
    rfl

/-! ## What is there is read -/

/-- Reading no token changes nothing. -/
theorem Reads.nil (S : Reading) : S.Reads [] S := rfl

/-- A token is read by its step. -/
theorem Reads.cons {S S₁ S' : Reading} {kind : TokenKind} {t : TokenOf kind} {tokens : List Token}
    (hstep : S.stepOf kind t = some S₁) (h : S₁.Reads tokens S') : S.Reads (t.1 :: tokens) S' := by
  unfold Reads at h ⊢
  rw [List.foldlM_cons, step_eq, hstep]
  exact h

/-- What is read in two parts is read. -/
theorem Reads.append {S S₁ S' : Reading} {tokens rest : List Token} (h₁ : S.Reads tokens S₁)
    (h₂ : S₁.Reads rest S') : S.Reads (tokens ++ rest) S' := by
  unfold Reads at h₁ h₂ ⊢
  rw [List.foldlM_append, h₁]
  exact h₂

end Reading

/-- A derivation is read from its tokens wherever one of its rule may stand: a term with the dice
that wait for it, dice where no count waits, a product where no factor waits, and a sum where
nothing waits. What of the dice waits after it makes no difference any more. -/
def Derivation.IsRead {p : Phrase} (D : Derivation p) : Prop :=
  match p, D with
  | .term, e => ∀ outer w, (Reading.operand outer w).Reads e.yield (.term outer w e)
  | .dice, e => ∀ outer sum product, ∃ dice,
    (Reading.operand outer ⟨sum, product, none⟩).Reads e.yield
      (.operator outer ⟨sum, product, dice⟩ e)
  | .product, e => ∀ outer sum, ∃ product dice last,
    (Reading.operand outer ⟨sum, none, none⟩).Reads e.yield
      (.operator outer ⟨sum, product, dice⟩ last) ∧ Waiting.toProduct ⟨sum, product, dice⟩ last = e
  | .sum, e => ∀ outer, ∃ w last,
    (Reading.operand outer {}).Reads e.yield (.operator outer w last) ∧ w.toSum last = e

namespace Derivation

open Reading

/-- An expression in a bracket is read up to the token that ends the bracket. -/
theorem reads_bracket {e : Derivation .sum} (he : e.IsRead) {outer : List OpenLevel} {w : Waiting}
    {o : Opening} {kind : TokenKind} (hkind : kind = .rightParen ∨ kind = .comma) {t : TokenOf kind}
    {S : Reading} (h : close outer w e o kind t = some S) :
    (operand (⟨o, w⟩ :: outer) {}).Reads (e.yield ++ [t.1]) S := by
  obtain ⟨w', last, hread, hsum⟩ := he (⟨o, w⟩ :: outer)
  refine hread.append (.cons ?_ (.nil _))
  rw [← h, ← hsum]
  rcases hkind with rfl | rfl
  · rfl
  · rfl

/-- Every derivation is read from its tokens. -/
theorem isRead {p : Phrase} (D : Derivation p) : D.IsRead := by
  -- The parts of a derivation are read in turn, and what waits around it stays as it is.
  induction D with
  | integer n =>
    intro outer w
    exact .cons rfl (.nil _)
  | decimal x =>
    intro outer w
    exact .cons rfl (.nil _)
  | paren l e r ih =>
    intro outer w
    exact .cons rfl (reads_bracket ih (.inl rfl) rfl)
  | roll f l e r ih =>
    intro outer w
    exact .cons rfl (.cons rfl (reads_bracket ih (.inl rfl) rfl))
  | avg f l e r ih =>
    intro outer w
    exact .cons rfl (.cons rfl (reads_bracket ih (.inl rfl) rfl))
  | prob f l target c e r iht ihe =>
    intro outer w
    have htarget : (operand (⟨.target f l, w⟩ :: outer) {}).Reads (target.yield ++ [c.1])
        (operand (⟨.prob f l target c, w⟩ :: outer) {}) := reads_bracket iht (.inr rfl) rfl
    have hcall := htarget.append (reads_bracket (t := r) ihe (.inl rfl) rfl)
    rw [List.append_assoc] at hcall
    exact .cons rfl (.cons rfl hcall)
  | ofTerm e ih =>
    intro outer sum product
    exact ⟨none, ih outer ⟨sum, product, none⟩⟩
  | oneDie d e ih =>
    intro outer sum product
    exact ⟨some (none, d), .cons rfl (ih outer ⟨sum, product, some (none, d)⟩)⟩
  | dice l d r ihl ihr =>
    intro outer sum product
    obtain ⟨dice, hread⟩ := ihl outer sum product
    exact ⟨some (some l, d), hread.append (.cons rfl (ihr outer ⟨sum, product, some (some l, d)⟩))⟩
  | ofDice e ih =>
    intro outer sum
    obtain ⟨dice, hread⟩ := ih outer sum none
    exact ⟨none, dice, e, hread, rfl⟩
  | times l s r ihl ihr =>
    intro outer sum
    obtain ⟨product, dice, last, hread, rfl⟩ := ihl outer sum
    obtain ⟨dice', hread'⟩ :=
      ihr outer sum (some (Waiting.toProduct ⟨sum, product, dice⟩ last, s))
    exact ⟨_, dice', r, hread.append (.cons rfl hread'), rfl⟩
  | ofProduct e ih =>
    intro outer
    obtain ⟨product, dice, last, hread, rfl⟩ := ih outer none
    exact ⟨⟨none, product, dice⟩, last, hread, rfl⟩
  | plus l s r ihl ihr =>
    intro outer
    -- The sum so far waits for the product that is read next.
    obtain ⟨w, last, hread, rfl⟩ := ihl outer
    obtain ⟨product, dice, last', hread', rfl⟩ := ihr outer (some (w.toSum last, s))
    exact ⟨⟨_, product, dice⟩, last', hread.append (.cons rfl hread'), rfl⟩

end Derivation

/-! ## Derivations of rows of tokens -/

/-- The derivation of a row of tokens, if there is one. -/
def derive? (tokens : List Token) : Option (Derivation .sum) :=
  (tokens.foldlM Reading.step (.operand [] {})).bind Reading.finish

/-- A derivation is read back from its tokens. -/
theorem derive?_yield (D : Derivation .sum) : derive? D.yield = some D := by
  obtain ⟨w, last, hread, rfl⟩ := D.isRead []
  unfold derive?
  rw [show List.foldlM _ _ _ = _ from hread]
  rfl

/-- What is read of a row of tokens derives it. -/
theorem yield_of_derive? {tokens : List Token} {D : Derivation .sum} (h : derive? tokens = some D) :
    D.yield = tokens := by
  obtain ⟨S, hread, hfinish⟩ := Option.bind_eq_some_iff.1 h
  have hyield := Reading.Reads.yield_eq hread
  unfold Reading.finish at hfinish
  split at hfinish
  · next w e =>
    rw [← Option.some.inj hfinish, Waiting.yield_toSum]
    simpa using hyield
  · cases hfinish

/-- A row of tokens has at most one derivation. -/
theorem Derivation.yield_injective {D D' : Derivation .sum} (h : D.yield = D'.yield) : D = D' := by
  have hread := derive?_yield D
  rw [h, derive?_yield D'] at hread
  exact (Option.some.inj hread).symm

end DiceOdds
