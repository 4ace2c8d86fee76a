import DiceOdds.Proofs.Token.Numerals
import DiceOdds.Proofs.Token.Patterns

/-!
# Scanning a text piece by piece

A text that begins with the characters of a token is scanned as that token and what follows it. For
a row of digits, with or without a point, what follows must not go on with it (`Token.Ends`); every
other token ends by itself.
-/

namespace DiceOdds.Token

/-! ## What ends a number -/

/-- Whether a text that follows a number does not go on with it: it begins with neither a digit nor
a point. -/
def Ends (rest : List Char) : Prop := ∀ c ∈ rest.head?, c.isDigit = false ∧ c ≠ '.'

/-- A number ends at the end of the text. -/
theorem ends_nil : Ends [] := fun _ h => by cases h

/-- A number ends before any character that is neither a digit nor a point. -/
theorem ends_cons {c : Char} {rest : List Char} (hdigit : c.isDigit = false) (hpoint : c ≠ '.') :
    Ends (c :: rest) := by
  intro c' h
  obtain rfl : c = c' := Option.some.inj h
  exact ⟨hdigit, hpoint⟩

/-- Digits are taken up to a character that is none. -/
theorem takeWhile_digits {digits : List Char} (h : ∀ c ∈ digits, c.isDigit) {rest : List Char}
    (hrest : ∀ c ∈ rest.head?, c.isDigit = false) :
    (digits ++ rest).takeWhile Char.isDigit = digits := by
  rw [List.takeWhile_append_of_pos h]
  cases rest with
  | nil => rw [List.takeWhile_nil, List.append_nil]
  | cons c rest => rw [List.takeWhile_cons_of_neg (by simp [hrest c rfl]), List.append_nil]

/-- As many digits are counted as there are before a character that is none. -/
theorem leadingDigits_append {digits : List Char} (h : ∀ c ∈ digits, c.isDigit) {rest : List Char}
    (hrest : ∀ c ∈ rest.head?, c.isDigit = false) :
    leadingDigits (digits ++ rest) = digits.length :=
  congrArg List.length (takeWhile_digits h hrest)

/-! ## Pieces of a text -/

/-- A separator stands between tokens. -/
theorem scanFrom_separator {c : Char} (h : isSeparator c = true) (start : Nat) (rest : List Char) :
    scanFrom start (c :: rest) = scanFrom (start + c.utf8Size) rest := by
  rw [scanFrom, if_pos h]

/-- What the longest token takes is scanned as that token. -/
theorem scanFrom_longest {kind : TokenKind} {c : Char} {more rest : List Char}
    (hc : isSeparator c = false) (h : longest c (more ++ rest) = (kind, more.length))
    (start : Nat) :
    scanFrom start (c :: more ++ rest) =
      ⟨kind, start, c :: more⟩ :: scanFrom (start + byteLength (c :: more)) rest := by
  rw [List.cons_append, scanFrom, if_neg (by simp [hc]), h]
  simp [stop]

/-- A row of digits is an integer, if it does not go on. -/
theorem scanFrom_digits {digits rest : List Char} (hne : digits ≠ [])
    (h : ∀ c ∈ digits, c.isDigit) (hrest : Ends rest) (start : Nat) :
    scanFrom start (digits ++ rest) =
      ⟨.integer, start, digits⟩ :: scanFrom (start + byteLength digits) rest := by
  obtain ⟨c, more, rfl⟩ := List.exists_cons_of_ne_nil hne
  obtain ⟨hc, hmore⟩ := List.forall_mem_cons.mp h
  refine scanFrom_longest (isSeparator_of_isDigit hc) ?_ start
  have hwhole := leadingDigits_append hmore fun c hc => (hrest c hc).1
  simp only [longest, if_pos hc, hwhole, List.drop_left]
  -- A point after the digits would make them a decimal.
  split
  next places => exact absurd rfl (hrest '.' rfl).2
  · rfl

/-- A numeral is a decimal, if it does not go on. -/
theorem scanFrom_numeral (n : Numeral) {rest : List Char} (hrest : Ends rest) (start : Nat) :
    scanFrom start (n.text ++ rest) =
      ⟨.decimal, start, n.text⟩ :: scanFrom (start + byteLength n.text) rest := by
  obtain ⟨c, more, hwhole⟩ := List.exists_cons_of_ne_nil n.whole_ne_nil
  have hdigits := n.isDigit_whole
  rw [hwhole] at hdigits
  obtain ⟨hc, hmore⟩ := List.forall_mem_cons.mp hdigits
  have htext : n.text = c :: (more ++ '.' :: n.places) := by rw [Numeral.text, hwhole]; rfl
  rw [htext]
  refine scanFrom_longest (isSeparator_of_isDigit hc) ?_ start
  have hplaces := leadingDigits_append n.isDigit_places fun c hc => (hrest c hc).1
  rw [List.append_assoc, List.cons_append, longest_digits_point hc hmore, hplaces,
    List.length_append, List.length_cons, Nat.add_assoc, Nat.add_comm 1]

/-- A token of one character is neither a separator nor a part of a number. -/
theorem of_symbol? {kind : TokenKind} {c : Char} (h : symbol? c = some kind) :
    kind ≠ .integer ∧ isSeparator c = false ∧ c.isDigit = false ∧ c ≠ '.' := by
  unfold symbol? at h
  split at h <;> cases h <;> decide

/-- A number ends before a token of one character. -/
theorem ends_symbol {kind : TokenKind} {c : Char} (h : symbol? c = some kind) (rest : List Char) :
    Ends (c :: rest) :=
  have hc := (of_symbol? h).2.2
  ends_cons hc.1 hc.2

/-- The token of one character is scanned from that character. -/
theorem scanFrom_symbol {kind : TokenKind} {c : Char} (h : symbol? c = some kind) (start : Nat)
    (rest : List Char) :
    scanFrom start (c :: rest) = ⟨kind, start, [c]⟩ :: scanFrom (start + byteLength [c]) rest := by
  obtain ⟨-, hseparator, hdigit, hpoint⟩ := of_symbol? h
  change scanFrom start (c :: [] ++ rest) = _
  refine scanFrom_longest hseparator ?_ start
  rw [List.nil_append, longest, if_neg (by simp [hdigit]), if_neg hpoint, h]
  rfl

/-- The name of a reduction is scanned from its characters. -/
theorem scanFrom_name (f : Reduction) (start : Nat) (rest : List Char) :
    scanFrom start (f.name ++ rest) =
      ⟨.reduction f, start, f.name⟩ :: scanFrom (start + byteLength f.name) rest := by
  cases f with
  | roll =>
    change scanFrom start ('r' :: ['o', 'l', 'l'] ++ rest) = _
    exact scanFrom_longest rfl rfl start
  | avg =>
    change scanFrom start ('a' :: ['v', 'g'] ++ rest) = _
    exact scanFrom_longest rfl rfl start
  | prob =>
    change scanFrom start ('p' :: ['r', 'o', 'b'] ++ rest) = _
    exact scanFrom_longest rfl rfl start

/-! ## The characters of tokens -/

/-- Whether some token is written with a character. -/
def IsWritten (c : Char) : Prop :=
  c.isDigit = true ∨ c = '.' ∨ (symbol? c).isSome ∨ ∃ f : Reduction, c ∈ f.name

/-- A text that matches a pattern is made of characters of tokens. -/
theorem isWritten_of_matches {kind : TokenKind} {piece : List Char} (h : kind.Matches piece) :
    ∀ c ∈ piece, IsWritten c := by
  have hsymbol {c : Char} (h : (symbol? c).isSome) : ∀ c' ∈ [c], IsWritten c' :=
    List.forall_mem_singleton.mpr (.inr (.inr (.inl h)))
  cases h with
  | integer _ hdigits => exact fun c hc => .inl (hdigits c hc)
  | decimal _ hwhole hplaces =>
    exact List.forall_mem_append.mpr ⟨fun c hc => .inl (hwhole c hc),
      List.forall_mem_cons.mpr ⟨.inr (.inl rfl), fun c hc => .inl (hplaces c hc)⟩⟩
  | fraction _ hplaces =>
    exact List.forall_mem_cons.mpr ⟨.inr (.inl rfl), fun c hc => .inl (hplaces c hc)⟩
  | reduction f => exact fun c hc => .inr (.inr (.inr ⟨f, hc⟩))
  | _ => exact hsymbol rfl

/-- A text without error tokens is made of separators and characters of tokens. -/
theorem isWritten_of_scanFrom {start : Nat} {text : List Char}
    (h : ∀ t ∈ scanFrom start text, t.kind ≠ .error) :
    ∀ c ∈ text, isSeparator c = true ∨ IsWritten c := by
  fun_induction scanFrom start text with
  | case1 start => exact fun c hc => (List.not_mem_nil hc).elim
  | case2 start c rest hc ih =>
    exact List.forall_mem_cons.mpr ⟨.inl hc, ih h⟩
  | case3 start c rest hc kind more hlongest token ih =>
    obtain ⟨herror, hrest⟩ := List.forall_mem_cons.mp h
    have hmatch := (matches_longest c rest).resolve_left fun heq =>
      herror (congrArg Prod.fst (hlongest.symm.trans heq))
    rw [hlongest] at hmatch
    have htoken := isWritten_of_matches hmatch
    intro c' hc'
    rw [← List.take_append_drop more rest, ← List.cons_append, List.mem_append] at hc'
    obtain hc' | hc' := hc'
    · exact .inr (htoken c' hc')
    · exact ih hrest c' hc'

end DiceOdds.Token
