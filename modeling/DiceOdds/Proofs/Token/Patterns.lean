import DiceOdds.Token.Scan

/-!
# The token that a text begins with

Each kind of token has a pattern (`TokenKind.Matches`). A text begins with the longest of its
beginnings that match any pattern, or with its first character as an error if none matches and the
character is no separator (`Leads`). Since no pattern matches what another matches, that is one
token of one kind (`Leads.unique`), and `longest` finds it (`Leads.eq_longest`).

Only two kinds of numbers can begin the same text: a row of digits with a point is a decimal, and
its digits before the point alone an integer. `longer_or_eq_of_matches` says once what this comes
to: `longest` takes more than a given token, or that token itself.
-/

namespace DiceOdds

/-- The patterns: which texts are by themselves a token of a kind. None is an error. -/
inductive TokenKind.Matches : TokenKind → List Char → Prop where
  /-- Digits, and at least one. -/
  | integer {digits : List Char} (hne : digits ≠ []) (hdigits : ∀ c ∈ digits, c.isDigit) :
      Matches .integer digits
  /-- Digits, and at least one, before a point, and any number of digits after it. -/
  | decimal {whole places : List Char} (hne : whole ≠ []) (hwhole : ∀ c ∈ whole, c.isDigit)
      (hplaces : ∀ c ∈ places, c.isDigit) : Matches .decimal (whole ++ '.' :: places)
  /-- A point before digits, and at least one. -/
  | fraction {places : List Char} (hne : places ≠ []) (hplaces : ∀ c ∈ places, c.isDigit) :
      Matches .decimal ('.' :: places)
  /-- The mark of dice. -/
  | smallDice : Matches .dice ['d']
  /-- The mark of dice as a capital. -/
  | capitalDice : Matches .dice ['D']
  /-- The bracket that opens. -/
  | leftParen : Matches .leftParen ['(']
  /-- The bracket that closes. -/
  | rightParen : Matches .rightParen [')']
  /-- The comma. -/
  | comma : Matches .comma [',']
  /-- The sign of a sum. -/
  | plus : Matches .plus ['+']
  /-- The sign of a product. -/
  | star : Matches .star ['*']
  /-- The name of a reduction. -/
  | reduction (f : Reduction) : Matches (.reduction f) f.name

namespace Token

/-- The characters that stand between tokens: space, tab and the two that end lines. -/
def separators : List Char := [' ', '\t', '\r', '\n']

/-- The scanner passes over the separators. -/
theorem isSeparator_iff {c : Char} : isSeparator c = true ↔ c ∈ separators := by
  simp [isSeparator, separators, or_assoc]

/-- The scanner passes over nothing else. -/
theorem isSeparator_eq_false_iff {c : Char} : isSeparator c = false ↔ c ∉ separators := by
  rw [← isSeparator_iff, Bool.not_eq_true]

/-- What a text begins with: the longest of its beginnings that match a pattern, or its first
character if none does and that is no separator. -/
inductive Leads (text : List Char) : TokenKind → List Char → Prop where
  /-- No longer beginning matches any pattern. -/
  | token {kind : TokenKind} {piece : List Char} (hbegins : piece <+: text)
      (hmatch : kind.Matches piece)
      (hlongest : ∀ kind' piece', piece' <+: text → TokenKind.Matches kind' piece' →
        piece'.length ≤ piece.length) : Leads text kind piece
  /-- No beginning matches any pattern. -/
  | error {c : Char} (hbegins : [c] <+: text) (hseparator : c ∉ separators)
      (hnone : ∀ kind piece, piece <+: text → ¬ TokenKind.Matches kind piece) :
      Leads text .error [c]

/-! ## What matches -/

/-- A digit separates nothing. -/
theorem isSeparator_of_isDigit {c : Char} (h : c.isDigit = true) : isSeparator c = false := by
  cases hc : isSeparator c with
  | false => rfl
  | true =>
    simp only [isSeparator, Bool.or_eq_true, decide_eq_true_eq] at hc
    rcases hc with ((rfl | rfl) | rfl) | rfl <;> cases h

/-- Errors have no pattern. -/
theorem ne_error_of_matches {kind : TokenKind} {piece : List Char} (h : kind.Matches piece) :
    kind ≠ .error := by
  cases h <;> rintro ⟨⟩

/-- Every pattern asks for a character. -/
theorem ne_nil_of_matches {kind : TokenKind} {piece : List Char} (h : kind.Matches piece) :
    piece ≠ [] := by
  cases h with
  | integer hne => exact hne
  | decimal => simp
  | reduction f => cases f <;> exact List.cons_ne_nil _ _
  | _ => exact List.cons_ne_nil _ _

/-- No pattern has a separator. -/
theorem isSeparator_of_matches {kind : TokenKind} {piece : List Char} (h : kind.Matches piece) :
    ∀ c ∈ piece, isSeparator c = false := by
  have hdigit {digits : List Char} (hdigits : ∀ c ∈ digits, c.isDigit) :
      ∀ c ∈ digits, isSeparator c = false :=
    fun c hc => isSeparator_of_isDigit (hdigits c hc)
  cases h with
  | integer _ hdigits => exact hdigit hdigits
  | decimal _ hwhole hplaces =>
    exact List.forall_mem_append.mpr
      ⟨hdigit hwhole, List.forall_mem_cons.mpr ⟨rfl, hdigit hplaces⟩⟩
  | fraction _ hplaces => exact List.forall_mem_cons.mpr ⟨rfl, hdigit hplaces⟩
  | reduction f =>
    have hall : f.name.all (fun c => !isSeparator c) = true := by cases f <;> rfl
    exact fun c hc => (Bool.not_eq_true' _).mp (List.all_eq_true.mp hall c hc)
  | _ => exact List.forall_mem_singleton.mpr rfl

/-! ## What is found -/

/-- Digits go on with the digits that follow them. -/
theorem leadingDigits_digits_append {digits : List Char} (h : ∀ c ∈ digits, c.isDigit)
    (rest : List Char) : leadingDigits (digits ++ rest) = digits.length + leadingDigits rest := by
  rw [leadingDigits, List.takeWhile_append_of_pos h, List.length_append, leadingDigits]

/-- A point is no digit. -/
theorem leadingDigits_point (rest : List Char) : leadingDigits ('.' :: rest) = 0 := rfl

/-- The digits that a text starts with are digits. -/
theorem isDigit_of_mem_take {text : List Char} {c : Char}
    (h : c ∈ text.take (leadingDigits text)) : c.isDigit = true := by
  rw [leadingDigits, ← List.prefix_iff_eq_take.mp (List.takeWhile_prefix Char.isDigit)] at h
  exact List.all_eq_true.mp List.all_takeWhile c h

/-- Digits with a point after them are taken with all digits after the point. -/
theorem longest_digits_point {c : Char} {more : List Char} (hc : c.isDigit = true)
    (hmore : ∀ c ∈ more, c.isDigit) (rest : List Char) :
    longest c (more ++ '.' :: rest) = (.decimal, more.length + 1 + leadingDigits rest) := by
  have hlead : leadingDigits (more ++ '.' :: rest) = more.length := by
    rw [leadingDigits_digits_append hmore, leadingDigits_point, Nat.add_zero]
  simp only [longest, if_pos hc, hlead, List.drop_left]

/-- A point with digits after it is taken with all of them. -/
theorem longest_point {places : List Char} (hne : places ≠ []) (hplaces : ∀ c ∈ places, c.isDigit)
    (rest : List Char) :
    longest '.' (places ++ rest) = (.decimal, places.length + leadingDigits rest) := by
  have hpos := List.length_pos_iff.mpr hne
  rw [longest, if_neg (by decide), if_pos rfl, leadingDigits_digits_append hplaces]
  exact if_neg (by omega)

/-- Of what a text begins with, `longest` takes more than a token, or that token itself. -/
theorem longer_or_eq_of_matches {kind : TokenKind} {piece rest : List Char} {c : Char}
    (h : kind.Matches piece) (hbegins : piece <+: c :: rest) :
    piece.length ≤ (longest c rest).2 ∨
      kind = (longest c rest).1 ∧ piece.length = (longest c rest).2 + 1 := by
  obtain ⟨after, hafter⟩ := hbegins
  cases h with
  | integer hne hdigits =>
    obtain ⟨c', more, rfl⟩ := List.exists_cons_of_ne_nil hne
    rw [List.cons_append] at hafter
    obtain ⟨rfl, rfl⟩ := List.cons.inj hafter
    obtain ⟨hc, hmore⟩ := List.forall_mem_cons.mp hdigits
    simp only [longest, if_pos hc, leadingDigits_digits_append hmore, List.length_cons]
    -- More digits or a point make it longer.
    split
    · exact .inl (by dsimp only; omega)
    · rcases Nat.eq_zero_or_pos (leadingDigits after) with hzero | hpos
      · exact .inr ⟨rfl, by dsimp only; omega⟩
      · exact .inl (by dsimp only; omega)
  | @decimal whole places hne hwhole hplaces =>
    obtain ⟨c', more, rfl⟩ := List.exists_cons_of_ne_nil hne
    rw [List.append_assoc, List.cons_append, List.cons_append] at hafter
    obtain ⟨rfl, rfl⟩ := List.cons.inj hafter
    obtain ⟨hc, hmore⟩ := List.forall_mem_cons.mp hwhole
    rw [longest_digits_point hc hmore, leadingDigits_digits_append hplaces, List.cons_append,
      List.length_cons, List.length_append, List.length_cons]
    rcases Nat.eq_zero_or_pos (leadingDigits after) with hzero | hpos
    · exact .inr ⟨rfl, by dsimp only; omega⟩
    · exact .inl (by dsimp only; omega)
  | @fraction places hne hplaces =>
    rw [List.cons_append] at hafter
    obtain ⟨rfl, rfl⟩ := List.cons.inj hafter
    rw [longest_point hne hplaces, List.length_cons]
    rcases Nat.eq_zero_or_pos (leadingDigits after) with hzero | hpos
    · exact .inr ⟨rfl, by dsimp only; omega⟩
    · exact .inl (by dsimp only; omega)
  | reduction f =>
    cases f <;> obtain ⟨rfl, rfl⟩ := List.cons.inj hafter <;> exact .inr ⟨rfl, rfl⟩
  | _ =>
    obtain ⟨rfl, rfl⟩ := List.cons.inj hafter
    exact .inr ⟨rfl, rfl⟩

/-- What `longest` takes matches the pattern of its kind, unless it is an error. -/
theorem matches_longest (c : Char) (rest : List Char) :
    longest c rest = (.error, 0) ∨
      (longest c rest).1.Matches (c :: rest.take (longest c rest).2) := by
  unfold longest
  split
  next hdigit =>
    refine .inr ?_
    dsimp only
    split
    next places hplaces =>
      -- The digits before the point, the point, and the digits after it are taken one by one.
      have hsplit : rest.take (leadingDigits rest + 1 + leadingDigits places) =
          rest.take (leadingDigits rest) ++ '.' :: places.take (leadingDigits places) := by
        rw [Nat.add_assoc, List.take_add, hplaces, Nat.add_comm 1, List.take_succ_cons]
      dsimp only
      rw [hsplit, ← List.cons_append]
      exact .decimal (List.cons_ne_nil _ _)
        (List.forall_mem_cons.mpr ⟨hdigit, fun _ => isDigit_of_mem_take⟩)
        fun _ => isDigit_of_mem_take
    · exact .integer (List.cons_ne_nil _ _)
        (List.forall_mem_cons.mpr ⟨hdigit, fun _ => isDigit_of_mem_take⟩)
  · split
    next hpoint =>
      dsimp only
      split
      · exact .inl rfl
      next hplaces =>
        refine .inr (hpoint ▸ .fraction (fun hnil => hplaces ?_) fun _ => isDigit_of_mem_take)
        have hlength := congrArg List.length hnil
        rwa [List.length_take, Nat.min_eq_left (leadingDigits_le rest)] at hlength
    · split
      next kind hsymbol =>
        refine .inr ?_
        dsimp only
        rw [List.take_zero]
        unfold symbol? at hsymbol
        split at hsymbol <;> obtain ⟨⟩ := hsymbol <;> constructor
      next f _ hname =>
        refine .inr ?_
        have hfound := List.find?_some hname
        have hbegins := List.isPrefixOf_iff_prefix.mp hfound
        have hlength : f.name.length = f.name.length - 1 + 1 := by cases f <;> rfl
        have htake : c :: rest.take (f.name.length - 1) = f.name := by
          rw [← List.take_succ_cons, ← hlength, ← List.prefix_iff_eq_take.mp hbegins]
        dsimp only
        rw [htake]
        exact .reduction f
      · exact .inl rfl

/-- What `longest` takes is as long as it says. -/
theorem length_cons_take_longest (c : Char) (rest : List Char) :
    (c :: rest.take (longest c rest).2).length = (longest c rest).2 + 1 := by
  rw [List.length_cons, List.length_take, Nat.min_eq_left (longest_le c rest)]

/-- What `longest` takes is what the text begins with. -/
theorem take_longest_begins (c : Char) (rest : List Char) (n : Nat) :
    c :: rest.take n <+: c :: rest :=
  List.cons_prefix_cons.mpr ⟨rfl, List.take_prefix n rest⟩

/-- What `longest` takes leads the text, unless that begins with a separator. -/
theorem leads_longest {c : Char} (hseparator : isSeparator c = false) (rest : List Char) :
    Leads (c :: rest) (longest c rest).1 (c :: rest.take (longest c rest).2) := by
  obtain herror | hmatch := matches_longest c rest
  · rw [herror]
    refine .error (take_longest_begins c rest 0) (isSeparator_eq_false_iff.mp hseparator)
      fun kind piece hbegins hmatch => ?_
    have hne := List.length_pos_iff.mpr (ne_nil_of_matches hmatch)
    obtain hle | ⟨hkind, -⟩ := longer_or_eq_of_matches hmatch hbegins
    · rw [herror] at hle
      omega
    · exact ne_error_of_matches hmatch (by rw [hkind, herror])
  · refine .token (take_longest_begins c rest _) hmatch fun kind piece hbegins hmatch' => ?_
    rw [length_cons_take_longest]
    obtain hle | ⟨-, heq⟩ := longer_or_eq_of_matches hmatch' hbegins
    · exact Nat.le_succ_of_le hle
    · exact Nat.le_of_eq heq

/-- What leads a text is no separator, and it is what `longest` takes. -/
theorem Leads.eq_longest {c : Char} {rest : List Char} {kind : TokenKind} {piece : List Char}
    (h : Leads (c :: rest) kind piece) :
    isSeparator c = false ∧ kind = (longest c rest).1 ∧
      piece = c :: rest.take (longest c rest).2 := by
  cases h with
  | token hbegins hmatch hlongest =>
    have hne := ne_nil_of_matches hmatch
    have hseparator : isSeparator c = false := by
      obtain ⟨c', more, rfl⟩ := List.exists_cons_of_ne_nil hne
      obtain ⟨rfl, -⟩ := List.cons_prefix_cons.mp hbegins
      exact isSeparator_of_matches hmatch c' List.mem_cons_self
    refine ⟨hseparator, ?_⟩
    obtain hle | ⟨hkind, heq⟩ := longer_or_eq_of_matches hmatch hbegins
    · -- What is longer would match as well.
      obtain herror | hmatch' := matches_longest c rest
      · rw [herror] at hle
        exact absurd hle (Nat.not_le.mpr (List.length_pos_iff.mpr hne))
      · have hle' := hlongest _ _ (take_longest_begins c rest _) hmatch'
        rw [length_cons_take_longest] at hle'
        omega
    · refine ⟨hkind, ?_⟩
      rw [List.prefix_iff_eq_take.mp hbegins, heq, List.take_succ_cons]
  | @error c' hbegins hseparator hnone =>
    obtain rfl : c' = c := (List.cons_prefix_cons.mp hbegins).1
    obtain herror | hmatch := matches_longest c' rest
    · rw [herror]
      exact ⟨isSeparator_eq_false_iff.mpr hseparator, rfl, rfl⟩
    · exact absurd hmatch (hnone _ _ (take_longest_begins c' rest _))

namespace Leads

variable {text : List Char} {kind : TokenKind} {piece : List Char}

/-- What leads a text is where the text begins. -/
theorem isPrefix (h : Leads text kind piece) : piece <+: text := by
  cases h with
  | token hbegins => exact hbegins
  | error hbegins => exact hbegins

/-- What leads a text has a character. -/
theorem ne_nil (h : Leads text kind piece) : piece ≠ [] := by
  cases h with
  | token _ hmatch => exact ne_nil_of_matches hmatch
  | error => exact List.cons_ne_nil _ _

/-- Only one piece, of one kind, leads a text. -/
theorem unique {kind' : TokenKind} {piece' : List Char} (h : Leads text kind piece)
    (h' : Leads text kind' piece') : kind = kind' ∧ piece = piece' := by
  cases text with
  | nil => exact absurd (List.prefix_nil.mp h.isPrefix) h.ne_nil
  | cons c rest =>
    obtain ⟨-, hkind, hpiece⟩ := h.eq_longest
    obtain ⟨-, hkind', hpiece'⟩ := h'.eq_longest
    exact ⟨hkind.trans hkind'.symm, hpiece.trans hpiece'.symm⟩

end Leads

end Token

end DiceOdds
