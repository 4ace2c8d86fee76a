import Mathlib.Data.List.Chain
import DiceOdds.Proofs.Token.Pieces
import DiceOdds.Proofs.Token.Tiling

/-!
# Separators between tokens

The tokens of a text can be written down again with other separators around them (`respace`). They
are found again as long as two that stood apart still do (`KeepsApart`); two that touched may be
taken apart or not.

No pattern has a separator, so all that could make a token longer is the word that goes on after it,
up to the next separator. In the new text that word is made of tokens that touched in the old one,
so it begins what followed the token there as well (`wordWithin_respace`), and whatever matched
there leads here again (`Leads.of_wordWithin`).
-/

namespace DiceOdds.Token

/-! ## Words -/

/-- Whether what one text begins with before its first separator is what another begins with. -/
def WordWithin (text text' : List Char) : Prop :=
  ∀ piece, (∀ c ∈ piece, isSeparator c = false) → piece <+: text → piece <+: text'

/-- There is no word where a text ends. -/
theorem wordWithin_nil (text : List Char) : WordWithin [] text := by
  intro piece _ hbegins
  rw [List.prefix_nil.mp hbegins]
  exact List.nil_prefix

/-- There is no word where a separator stands. -/
theorem wordWithin_separators {gap : List Char} (hgap : ∀ c ∈ gap, c ∈ separators)
    (hne : gap ≠ []) (rest text : List Char) : WordWithin (gap ++ rest) text := by
  intro piece hpiece hbegins
  cases piece with
  | nil => exact List.nil_prefix
  | cons c piece =>
    obtain ⟨c', gap, rfl⟩ := List.exists_cons_of_ne_nil hne
    obtain ⟨rfl, -⟩ := List.cons_prefix_cons.mp hbegins
    exact absurd (hgap c List.mem_cons_self)
      (isSeparator_eq_false_iff.mp (hpiece c List.mem_cons_self))

/-- A word is longer by the same in front of both texts. -/
theorem WordWithin.append {rest rest' : List Char} (h : WordWithin rest rest')
    (front : List Char) : WordWithin (front ++ rest) (front ++ rest') := by
  intro piece hpiece hbegins
  obtain hshort | ⟨more, rfl⟩ :=
    List.prefix_or_prefix_of_prefix hbegins (List.prefix_append front rest)
  · exact hshort.trans (List.prefix_append front rest')
  · have hmore := (List.prefix_append_right_inj front).mp hbegins
    have hseparator := (List.forall_mem_append.mp hpiece).2
    exact (List.prefix_append_right_inj front).mpr (h more hseparator hmore)

namespace Leads

variable {kind : TokenKind} {piece rest : List Char}

/-- What leads a text leads it still if the word after it is not made longer. -/
theorem of_wordWithin {rest' : List Char} (h : Leads (piece ++ rest) kind piece)
    (hword : WordWithin rest' rest) : Leads (piece ++ rest') kind piece := by
  have hold : ∀ kind' piece', piece' <+: piece ++ rest' → TokenKind.Matches kind' piece' →
      piece' <+: piece ++ rest := fun _ piece' hbegins hmatch =>
    hword.append piece piece' (isSeparator_of_matches hmatch) hbegins
  cases h with
  | token _ hmatch hlongest =>
    exact .token (List.prefix_append _ _) hmatch fun kind' piece' hbegins hmatch' =>
      hlongest kind' piece' (hold kind' piece' hbegins hmatch') hmatch'
  | error _ hseparator hnone =>
    exact .error (List.prefix_append _ _) hseparator fun kind' piece' hbegins hmatch =>
      hnone kind' piece' (hold kind' piece' hbegins hmatch) hmatch

/-- What leads a text is scanned as its first token. -/
theorem scanFrom_eq (h : Leads (piece ++ rest) kind piece) (start : Nat) :
    scanFrom start (piece ++ rest) =
      ⟨kind, start, piece⟩ :: scanFrom (start + byteLength piece) rest := by
  obtain ⟨c, more, rfl⟩ := List.exists_cons_of_ne_nil h.ne_nil
  rw [List.cons_append] at h
  obtain ⟨hseparator, hkind, hpiece⟩ := h.eq_longest
  refine scanFrom_longest hseparator (Prod.ext hkind.symm ?_) start
  have hlength := congrArg List.length hpiece
  rw [length_cons_take_longest, List.length_cons] at hlength
  exact (Nat.succ.inj hlength).symm

end Leads

/-- Separators are passed over. -/
theorem scanFrom_separators {gap : List Char} (hgap : ∀ c ∈ gap, c ∈ separators)
    (start : Nat) (rest : List Char) :
    scanFrom start (gap ++ rest) = scanFrom (start + byteLength gap) rest := by
  induction gap generalizing start with
  | nil => rfl
  | cons c gap ih =>
    obtain ⟨hc, hgap⟩ := List.forall_mem_cons.mp hgap
    rw [List.cons_append, scanFrom_separator (isSeparator_iff.mpr hc), ih hgap, byteLength,
      Nat.add_assoc]

/-- Where a token is found, separators stand before it, and it leads the text from its start on. -/
theorem exists_of_scanFrom_eq_cons {start : Nat} {text : List Char} {t : Token}
    {tokens : List Token} (h : scanFrom start text = t :: tokens) :
    ∃ gap rest, text = gap ++ (t.text ++ rest) ∧ t.start = start + byteLength gap ∧
      Leads (t.text ++ rest) t.kind t.text ∧ tokens = scanFrom t.stop rest := by
  fun_induction scanFrom start text with
  | case1 start => cases h
  | case2 start c rest hc ih =>
    obtain ⟨gap, rest', rfl, hstart, hleads, htokens⟩ := ih h
    exact ⟨c :: gap, rest', rfl, by rw [hstart, byteLength, Nat.add_assoc], hleads, htokens⟩
  | case3 start c rest hc kind more hlongest token ih =>
    obtain ⟨rfl, rfl⟩ := List.cons.inj h
    have hleads := leads_longest (Bool.eq_false_iff.mpr hc) rest
    have hsplit : (c :: rest.take more) ++ rest.drop more = c :: rest := by
      rw [List.cons_append, List.take_append_drop]
    refine ⟨[], rest.drop more, hsplit.symm, rfl, ?_, rfl⟩
    show Leads ((c :: rest.take more) ++ rest.drop more) kind (c :: rest.take more)
    rw [hlongest] at hleads
    rwa [hsplit]

/-! ## Other separators -/

/-- A token with the separators that are to stand before it. -/
structure Spaced where
  /-- What is written before the token. -/
  gap : List Char
  /-- The token. -/
  token : Token
  /-- Only separators are written before it. -/
  gap_subset : ∀ c ∈ gap, c ∈ separators

/-- The text of tokens with separators before each, and `last` after them all. -/
def respace (rows : List Spaced) (last : List Char) : List Char :=
  rows.foldr (fun row rest => row.gap ++ (row.token.text ++ rest)) last

/-- Whether there is something between two tokens wherever there was. -/
def KeepsApart (rows : List Spaced) : Prop :=
  rows.IsChain fun row next => row.token.stop < next.token.start → next.gap ≠ []

/-- What a token is, wherever it stands. -/
def content (t : Token) : TokenKind × List Char := (t.kind, t.text)

variable {rows : List Spaced} {last : List Char} (hlast : ∀ c ∈ last, c ∈ separators)

include hlast

/-- The word that tokens with new separators begin with is one that they began with before, if
nothing stood before the first of them that does not now. -/
theorem wordWithin_respace {start : Nat} {text : List Char}
    (hrows : rows.map (·.token) = scanFrom start text) (hapart : KeepsApart rows)
    (hfirst : ∀ row ∈ rows.head?, start < row.token.start → row.gap ≠ []) :
    WordWithin (respace rows last) text := by
  induction rows generalizing start text with
  | nil =>
    by_cases hnil : last = []
    · rw [hnil]
      exact wordWithin_nil text
    · have hword := wordWithin_separators hlast hnil [] text
      rwa [List.append_nil] at hword
  | cons row rows ih =>
    rw [List.map_cons] at hrows
    obtain ⟨gap, rest, rfl, hstart, -, htokens⟩ := exists_of_scanFrom_eq_cons hrows.symm
    obtain ⟨hnext, hrest⟩ := List.isChain_cons.mp hapart
    show WordWithin (row.gap ++ (row.token.text ++ respace rows last)) _
    by_cases hgap : row.gap = []
    · -- Nothing stood before the token, and what follows it begins with the same word as before.
      have htouch : ¬ start < row.token.start := fun hlt => hfirst row rfl hlt hgap
      have hnone : gap = [] := byteLength_eq_zero.mp (by omega)
      rw [hgap, hnone, List.nil_append, List.nil_append]
      exact (ih htokens hrest hnext).append row.token.text
    · exact wordWithin_separators row.gap_subset hgap _ _

/-- Tokens with other separators around them are the same tokens. -/
theorem map_content_scanFrom_respace {start : Nat} {text : List Char}
    (hrows : rows.map (·.token) = scanFrom start text) (hapart : KeepsApart rows) (start' : Nat) :
    (scanFrom start' (respace rows last)).map content = (scanFrom start text).map content := by
  rw [← hrows]
  induction rows generalizing start text start' with
  | nil =>
    have hscan := scanFrom_separators hlast start' []
    rw [List.append_nil] at hscan
    show (scanFrom start' last).map content = []
    rw [hscan, scanFrom]
    rfl
  | cons row rows ih =>
    rw [List.map_cons] at hrows
    obtain ⟨gap, rest, -, -, hleads, htokens⟩ := exists_of_scanFrom_eq_cons hrows.symm
    obtain ⟨hnext, hrest⟩ := List.isChain_cons.mp hapart
    have hleads' := hleads.of_wordWithin (wordWithin_respace hlast htokens hrest hnext)
    show (scanFrom start' (row.gap ++ (row.token.text ++ respace rows last))).map content = _
    rw [scanFrom_separators row.gap_subset, hleads'.scanFrom_eq, List.map_cons,
      ih htokens hrest, List.map_cons, List.map_cons]
    rfl

end DiceOdds.Token
