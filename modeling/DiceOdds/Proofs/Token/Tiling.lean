import DiceOdds.Proofs.Token.Patterns

/-!
# The tokens tile the text

Tokens tile a text (`Tiles`) if their spans follow one another, each token is what the text begins
with where the token starts, and only separators are left between. Both sides of that are settled
one step at a time. Nothing tiles the empty text but no tokens (`tiles_nil_iff`), a separator in
front belongs to no token (`tiles_separator_iff`), and what leads the text is the first token, after
which the others tile what is left (`tiles_append_iff`). These are the steps of the scanner, so the
tokens that it finds are the only tiling there is (`tiles_iff_eq_scan`).
-/

namespace DiceOdds

/-- Every character takes a byte, so only the empty text takes none. -/
theorem byteLength_eq_zero {s : List Char} : byteLength s = 0 ↔ s = [] := by
  cases s with
  | nil => exact iff_of_true rfl rfl
  | cons c s =>
    have hpos := c.utf8Size_pos
    exact iff_of_false (by rw [byteLength]; omega) (List.cons_ne_nil c s)

/-- Of two beginnings of a text, the one with more bytes goes on from the other. -/
theorem exists_append_of_byteLength_le {front rest before after : List Char}
    (h : front ++ rest = before ++ after) (hle : byteLength front ≤ byteLength before) :
    ∃ between, before = front ++ between ∧ rest = between ++ after := by
  obtain ⟨between, hbefore, hrest⟩ | ⟨between, hfront, hafter⟩ := List.append_eq_append_iff.mp h
  · exact ⟨between, hbefore, hrest⟩
  · rw [hfront, byteLength_append] at hle
    have hnil : between = [] := byteLength_eq_zero.mp (by omega)
    rw [hnil] at hfront hafter
    exact ⟨[], by rw [hfront, List.append_nil, List.append_nil], hafter.symm⟩

namespace Token

/-- Whether tokens tile a text that has `base` bytes before it. -/
structure Tiles (base : Nat) (text : List Char) (tokens : List Token) : Prop where
  /-- No span is empty. -/
  start_lt_stop : ∀ t ∈ tokens, t.start < t.stop
  /-- The spans are in order, and none overlaps another. -/
  ordered : tokens.Pairwise fun t u => t.stop ≤ u.start
  /-- A token starts between two characters, and it leads the text from there on. -/
  leads : ∀ t ∈ tokens, ∃ before rest, text = before ++ rest ∧
    t.start = base + byteLength before ∧ Leads rest t.kind t.text
  /-- Outside of the spans stand only separators. -/
  covered : ∀ before c after, text = before ++ c :: after → c ∉ separators →
    ∃ t ∈ tokens, t.start ≤ base + byteLength before ∧ base + byteLength before < t.stop

variable {base : Nat} {tokens : List Token}

/-- The empty text has no tokens. -/
theorem tiles_nil_iff : Tiles base [] tokens ↔ tokens = [] := by
  constructor
  · intro h
    refine List.eq_nil_iff_forall_not_mem.mpr fun t ht => ?_
    obtain ⟨before, rest, htext, -, hleads⟩ := h.leads t ht
    obtain ⟨-, rfl⟩ := List.append_eq_nil_iff.mp htext.symm
    exact hleads.ne_nil (List.prefix_nil.mp hleads.isPrefix)
  · rintro rfl
    exact ⟨fun t ht => (List.not_mem_nil ht).elim, .nil, fun t ht => (List.not_mem_nil ht).elim,
      fun before c after h => by simp at h⟩

/-- A separator in front of a text belongs to none of its tokens. -/
theorem tiles_separator_iff {c : Char} (hc : isSeparator c = true) {rest : List Char} :
    Tiles base (c :: rest) tokens ↔ Tiles (base + c.utf8Size) rest tokens := by
  have hshift (before : List Char) :
      base + byteLength (c :: before) = base + c.utf8Size + byteLength before := by
    rw [byteLength, Nat.add_assoc]
  constructor
  · intro h
    refine ⟨h.start_lt_stop, h.ordered, fun t ht => ?_, fun before c' after htext hc' => ?_⟩
    · obtain ⟨before, rest', htext, hstart, hleads⟩ := h.leads t ht
      cases before with
      | nil =>
        -- A token does not start with the separator.
        obtain rfl : c :: rest = rest' := htext
        rw [hleads.eq_longest.1] at hc
        cases hc
      | cons c' before =>
        obtain ⟨rfl, rfl⟩ := List.cons.inj htext
        exact ⟨before, rest', rfl, by rw [hstart, hshift], hleads⟩
    · rw [← hshift]
      exact h.covered (c :: before) c' after (congrArg (c :: ·) htext) hc'
  · intro h
    refine ⟨h.start_lt_stop, h.ordered, fun t ht => ?_, fun before c' after htext hc' => ?_⟩
    · obtain ⟨before, rest', rfl, hstart, hleads⟩ := h.leads t ht
      exact ⟨c :: before, rest', rfl, by rw [hstart, hshift], hleads⟩
    · cases before with
      | nil =>
        obtain ⟨rfl, -⟩ := List.cons.inj htext
        exact absurd (isSeparator_iff.mp hc) hc'
      | cons c'' before =>
        obtain ⟨rfl, rfl⟩ := List.cons.inj htext
        rw [hshift]
        exact h.covered before c' after rfl hc'

section Step

variable {kind : TokenKind} {piece rest : List Char}

/-- In a tiling of a text, what leads the text is the first token. -/
theorem Tiles.exists_eq_cons (h : Tiles base (piece ++ rest) tokens)
    (hleads : Leads (piece ++ rest) kind piece) : ∃ tail, tokens = ⟨kind, base, piece⟩ :: tail := by
  have hbase : ∀ t ∈ tokens, base ≤ t.start := fun t ht => by
    obtain ⟨before, -, -, hstart, -⟩ := h.leads t ht
    omega
  -- No separator stands where the text begins, so a token does.
  obtain ⟨c, more, rfl⟩ := List.exists_cons_of_ne_nil hleads.ne_nil
  have hc : c ∉ separators := isSeparator_eq_false_iff.mp
    (show Leads (c :: (more ++ rest)) kind (c :: more) from hleads).eq_longest.1
  obtain ⟨t, ht, hle, hlt⟩ := h.covered [] c (more ++ rest) rfl hc
  rw [byteLength, Nat.add_zero] at hle hlt
  cases tokens with
  | nil => exact (List.not_mem_nil ht).elim
  | cons u tail =>
    -- It is the first one, since all others start after that one stops.
    obtain rfl : t = u := by
      obtain heq | htail := List.mem_cons.mp ht
      · exact heq
      · have hstop := List.rel_of_pairwise_cons h.ordered htail
        have hu := h.start_lt_stop u List.mem_cons_self
        have hu' := hbase u List.mem_cons_self
        omega
    obtain ⟨kind', start, piece'⟩ := t
    obtain ⟨before, rest', htext, hstart, hleads'⟩ := h.leads _ ht
    dsimp only at hle hstart hleads'
    have hbefore : before = [] := byteLength_eq_zero.mp (by omega)
    obtain rfl : start = base := by omega
    rw [hbefore, List.nil_append] at htext
    rw [← htext] at hleads'
    obtain ⟨rfl, rfl⟩ := hleads.unique hleads'
    exact ⟨tail, rfl⟩

/-- What leads a text is its first token, and the other tokens tile what is left. -/
theorem tiles_append_iff (hleads : Leads (piece ++ rest) kind piece) :
    Tiles base (piece ++ rest) tokens ↔
      ∃ tail, tokens = ⟨kind, base, piece⟩ :: tail ∧ Tiles (base + byteLength piece) rest tail := by
  have hshift (before : List Char) :
      base + byteLength (piece ++ before) = base + byteLength piece + byteLength before := by
    rw [byteLength_append, Nat.add_assoc]
  have hpos : 0 < byteLength piece :=
    Nat.pos_of_ne_zero fun hzero => hleads.ne_nil (byteLength_eq_zero.mp hzero)
  constructor
  · intro h
    obtain ⟨tail, rfl⟩ := h.exists_eq_cons hleads
    obtain ⟨hafter, hordered⟩ := List.pairwise_cons.mp h.ordered
    refine ⟨tail, rfl, (List.forall_mem_cons.mp h.start_lt_stop).2, hordered, fun t ht => ?_,
      fun before c after htext hc => ?_⟩
    · obtain ⟨before, rest', htext, hstart, hleads'⟩ := h.leads t (List.mem_cons_of_mem _ ht)
      have hstop : base + byteLength piece ≤ t.start := hafter t ht
      obtain ⟨between, rfl, hrest⟩ := exists_append_of_byteLength_le htext (by omega)
      exact ⟨between, rest', hrest, by rw [hstart, hshift], hleads'⟩
    · obtain ⟨t, ht, hle, hlt⟩ :=
        h.covered (piece ++ before) c after (by rw [htext, List.append_assoc]) hc
      rw [hshift] at hle hlt
      obtain rfl | htail := List.mem_cons.mp ht
      · -- The first span stops before what is left.
        have hlt' : base + byteLength piece + byteLength before < base + byteLength piece := hlt
        omega
      · exact ⟨t, htail, hle, hlt⟩
  · rintro ⟨tail, rfl, h⟩
    have hbase : ∀ t ∈ tail, base + byteLength piece ≤ t.start := fun t ht => by
      obtain ⟨before, -, -, hstart, -⟩ := h.leads t ht
      omega
    refine ⟨List.forall_mem_cons.mpr ⟨Nat.lt_add_of_pos_right hpos, h.start_lt_stop⟩,
      List.pairwise_cons.mpr ⟨hbase, h.ordered⟩,
      List.forall_mem_cons.mpr ⟨⟨[], _, rfl, rfl, hleads⟩, fun t ht => ?_⟩,
      fun before c after htext hc => ?_⟩
    · obtain ⟨before, rest', rfl, hstart, hleads'⟩ := h.leads t ht
      exact ⟨piece ++ before, rest', (List.append_assoc ..).symm, by rw [hstart, hshift], hleads'⟩
    · obtain hlt | hle := Nat.lt_or_ge (byteLength before) (byteLength piece)
      · exact ⟨_, List.mem_cons_self, Nat.le_add_right _ _, Nat.add_lt_add_left hlt base⟩
      · obtain ⟨between, rfl, hrest⟩ := exists_append_of_byteLength_le htext hle
        obtain ⟨t, ht, hspan⟩ := h.covered between c after hrest hc
        rw [hshift]
        exact ⟨t, List.mem_cons_of_mem _ ht, hspan⟩

end Step

/-- The scanner finds a tiling of the text, and there is no other. -/
theorem tiles_iff_eq_scanFrom (base : Nat) (text : List Char) :
    ∀ tokens, Tiles base text tokens ↔ tokens = scanFrom base text := by
  fun_induction scanFrom base text with
  | case1 base => exact fun _ => tiles_nil_iff
  | case2 base c rest hc ih => exact fun tokens => (tiles_separator_iff hc).trans (ih tokens)
  | case3 base c rest hc kind more hlongest token ih =>
    have hleads := leads_longest (Bool.eq_false_iff.mpr hc) rest
    rw [hlongest] at hleads
    have hsplit : c :: rest = (c :: rest.take more) ++ rest.drop more := by
      rw [List.cons_append, List.take_append_drop]
    rw [hsplit] at hleads ⊢
    intro tokens
    rw [tiles_append_iff hleads]
    constructor
    · rintro ⟨tail, rfl, htail⟩
      rw [(ih tail).mp htail]
    · rintro rfl
      exact ⟨_, rfl, (ih _).mpr rfl⟩

/-- A token is a piece of the text, at the place where it says it starts. -/
theorem exists_slice {start : Nat} {text : List Char} {t : Token} (h : t ∈ scanFrom start text) :
    ∃ before after, text = before ++ t.text ++ after ∧ t.start = start + byteLength before := by
  have htiles := (tiles_iff_eq_scanFrom start text _).mpr rfl
  obtain ⟨before, rest, rfl, hstart, hleads⟩ := htiles.leads t h
  obtain ⟨after, rfl⟩ := hleads.isPrefix
  exact ⟨before, after, (List.append_assoc ..).symm, hstart⟩

/-- The tokens of a text are the one tiling of it by what leads the text where they start. -/
theorem tiles_iff_eq_scan (text : String) (tokens : List Token) :
    Tiles 0 text.toList tokens ↔ tokens = scan text :=
  tiles_iff_eq_scanFrom 0 text.toList tokens

end Token

end DiceOdds
