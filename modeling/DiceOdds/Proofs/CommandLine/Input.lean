import DiceOdds.Proofs.CommandLine.Replies

/-!
# Expressions as lines of input

The command evaluates expressions alike whether they are its arguments or the lines of its input.
What is typed is read back line by line (`lines_inputText`), whichever way its lines end and however
many blank ones stand between the others. Then both sessions show the same replies.

They differ only where a fault stops the command: a session over lines has printed a prompt before
the line that stops it, and prints none after it.
-/

namespace DiceOdds.CommandLine

/-! ## Lines that are typed -/

/-- How a line of input ends. -/
inductive LineEnd where
  /-- With a line feed. -/
  | feed
  /-- With a carriage return and a line feed. -/
  | returnFeed
  deriving Repr, DecidableEq

/-- A line of input as it is typed. -/
structure InputLine where
  /-- The text of the line. -/
  text : String
  /-- What ends it. -/
  ending : LineEnd
  deriving Repr, DecidableEq

/-- The characters of a line end. -/
def LineEnd.chars : LineEnd → List Char
  | feed => ['\n']
  | returnFeed => ['\r', '\n']

/-- The input that lines make up. -/
def inputText (ls : List InputLine) : String :=
  String.ofList (ls.flatMap fun l => l.text.toList ++ l.ending.chars)

/-- The line that stands before a line feed, of which the last characters come first. -/
def lineBefore (reversed : List Char) : String :=
  String.ofList (match reversed with | '\r' :: line => line | line => line).reverse

/-- What is read of a line that is typed: a carriage return before a line feed belongs to the line
end. -/
def InputLine.content (l : InputLine) : String :=
  match l.ending with
  | .feed => lineBefore l.text.toList.reverse
  | .returnFeed => l.text

/-- Characters up to a line feed are a line. -/
theorem linesFrom_append {text : List Char} (h : '\n' ∉ text) (reversed rest : List Char) :
    linesFrom reversed (text ++ '\n' :: rest) =
      lineBefore (text.reverse ++ reversed) :: linesFrom [] rest := by
  induction text generalizing reversed with
  | nil => rfl
  | cons c text ih =>
    obtain ⟨hc, htext⟩ := not_or.mp (mt List.mem_cons.mpr h)
    have hstep : linesFrom reversed (c :: (text ++ '\n' :: rest)) =
        linesFrom (c :: reversed) (text ++ '\n' :: rest) := if_neg (Ne.symm hc)
    rw [List.cons_append, hstep, ih htext, List.reverse_cons, List.append_assoc,
      List.singleton_append]

/-- What is typed is read line by line. -/
theorem lines_inputText {ls : List InputLine} (h : ∀ l ∈ ls, '\n' ∉ l.text.toList) :
    lines (inputText ls) = ls.map InputLine.content := by
  rw [lines, inputText, String.toList_ofList]
  induction ls with
  | nil => rfl
  | cons l ls ih =>
    obtain ⟨hl, hls⟩ := List.forall_mem_cons.mp h
    rw [List.flatMap_cons, List.map_cons, List.append_assoc, ← ih hls, InputLine.content]
    cases l.ending with
    | feed => rw [LineEnd.chars, List.singleton_append, linesFrom_append hl, List.append_nil]
    | returnFeed =>
      have hreturn : '\n' ∉ l.text.toList ++ ['\r'] := by simp [hl]
      have hchars (rest : List Char) : l.text.toList ++ (LineEnd.returnFeed.chars ++ rest) =
          (l.text.toList ++ ['\r']) ++ '\n' :: rest := by simp [LineEnd.chars]
      rw [hchars, linesFrom_append hreturn]
      simp [lineBefore]

/-- A line that does not end in a carriage return is read as it is typed. -/
theorem InputLine.content_eq {l : InputLine} (h : l.text.toList.getLast? ≠ some '\r') :
    l.content = l.text := by
  rw [content]
  cases l.ending with
  | returnFeed => rfl
  | feed =>
    rw [← List.head?_reverse] at h
    change lineBefore l.text.toList.reverse = l.text
    unfold lineBefore
    split
    next line hline => exact absurd (by rw [hline]; rfl) h
    next => rw [List.reverse_reverse, String.ofList_toList]

/-- Blank lines are read as blank lines, and others as others. -/
theorem InputLine.isBlank_content (l : InputLine) :
    isBlank l.content.toList = isBlank l.text.toList := by
  rw [content]
  cases l.ending with
  | returnFeed => rfl
  | feed =>
    change isBlank (lineBefore l.text.toList.reverse).toList = _
    have hreverse : l.text.toList.all isWhiteSpace = l.text.toList.reverse.all isWhiteSpace :=
      List.all_reverse.symm
    unfold lineBefore
    rw [String.toList_ofList, isBlank, isBlank, List.all_reverse, hreverse]
    split
    next line hline =>
      rw [hline, List.all_cons]
      rfl
    next => rfl

/-- Whether a line can stand in an input and be read as it is: it holds no line feed, and if it is
not blank it does not end in a carriage return. -/
structure InputLine.IsReadable (l : InputLine) : Prop where
  /-- No line feed ends the line before its end. -/
  feed_not_mem : '\n' ∉ l.text.toList
  /-- No carriage return is taken for a part of the line end. -/
  return_not_last : isBlank l.text.toList = false → l.text.toList.getLast? ≠ some '\r'

instance (l : InputLine) : Decidable l.IsReadable :=
  decidable_of_iff ('\n' ∉ l.text.toList ∧
      (isBlank l.text.toList = false → l.text.toList.getLast? ≠ some '\r'))
    ⟨fun h => ⟨h.1, h.2⟩, fun h => ⟨h.1, h.2⟩⟩

/-- The expressions that are read are those that are typed. -/
theorem expressionsOf_map_content {ls : List InputLine} (h : ∀ l ∈ ls, l.IsReadable) :
    expressionsOf (ls.map InputLine.content) = expressionsOf (ls.map InputLine.text) := by
  induction ls with
  | nil => rfl
  | cons l ls ih =>
    obtain ⟨hl, hls⟩ := List.forall_mem_cons.mp h
    rw [List.map_cons, List.map_cons]
    cases hblank : isBlank l.text.toList with
    | true =>
      rw [expressionsOf_cons_of_isBlank _ hblank,
        expressionsOf_cons_of_isBlank _ (l.isBlank_content.trans hblank), ih hls]
    | false =>
      rw [expressionsOf_cons_of_not_isBlank _ hblank,
        expressionsOf_cons_of_not_isBlank _ (l.isBlank_content.trans hblank), ih hls,
        InputLine.content_eq (hl.return_not_last hblank)]

/-- What lines show depends on which are blank only. -/
theorem lineOutputs_map_content (ls : List InputLine) (outputs : List String) :
    lineOutputs (ls.map InputLine.content) outputs =
      lineOutputs (ls.map InputLine.text) outputs := by
  induction ls generalizing outputs with
  | nil => rfl
  | cons l ls ih =>
    rw [List.map_cons, List.map_cons, lineOutputs, lineOutputs, l.isBlank_content, ih, ih]

/-- Expressions are answered alike as arguments and as the lines of an input that are not blank,
with the same settings. In both the `k`-th is answered on the roller that the replies to those
before it leave. The error messages are the same, and so is the exit code. The standard output of
the lines is that of the arguments with a prompt before the output of each line and one at the end,
if and only if no expression ends with a fault. Otherwise it ends with the prompt before the one
that does. -/
theorem sessions_agree_iff [Memory] (arguments bare : List String)
    (options bareOptions : Options) (harguments : Request.ofArguments arguments = .run options)
    (hbare : Request.ofArguments bare = .run bareOptions)
    (hconfig : bareOptions.config = options.config) (htable : bareOptions.table = options.table)
    (hnone : bareOptions.expressions = []) (hsome : options.expressions ≠ [])
    (ls : List InputLine) (hreadable : ∀ l ∈ ls, l.IsReadable)
    (hexpressions : expressionsOf (ls.map InputLine.text) = options.expressions)
    (input : String) (entropy : UInt64) :
    let first := run arguments input entropy
    let second := run bare (inputText ls) entropy
    let replied texts := replies options.config options.table texts (options.config.roller entropy)
    let before k := (replied (options.expressions.take k)).2
    let rs := (replied options.expressions).1
    let outputs := lineOutputs (ls.map InputLine.text) (rs.map Reply.text)
    let stops := ∃ (k : Nat) (hk : k < options.expressions.length),
      Faults options.config.limits options.expressions[k] (before k)
    (∀ k (hk : k < options.expressions.length), .stop ∉ rs.take k →
      rs[k]? =
        some (answer options.config options.table options.expressions[k] (before k)).1) ∧
    first = .ofReplies rs ∧ second.errors = first.errors ∧ second.code = first.code ∧
    (second.output = prompted outputs ++ (prompt ++ "\n") ↔ ¬ stops) ∧
    (stops → ∃ n, ∃ h : n < ls.length, isBlank ls[n].text.toList = false ∧
      (expressionsOf ((ls.take n).map InputLine.text)).length + 1 = rs.length ∧
      second.output = prompted (outputs.take (n + 1))) := by
  intro first second replied before rs outputs stops
  have hstops : .stop ∈ rs ↔ stops := stop_mem_replies_iff _ _ _ _
  have hfirst : first = .ofReplies rs := by
    have hrun : first = (runArguments options.config options.table options.expressions
        (options.config.roller entropy)).1 := by
      simp only [first, run, harguments]
      rw [if_neg (by simpa using hsome)]
    rw [hrun, runArguments_eq]
  have hsecond : second = (runLines options.config options.table (ls.map InputLine.content)
      (options.config.roller entropy)).1 := by
    simp only [second, run, hbare, hnone, hconfig, htable,
      lines_inputText fun l hl => (hreadable l hl).feed_not_mem]
    rfl
  have hshows := (shows_runLines options.config options.table (ls.map InputLine.content)
    (options.config.roller entropy)).1
  rw [← hsecond, expressionsOf_map_content hreadable, hexpressions] at hshows
  have houtputs : lineOutputs (ls.map InputLine.content) (rs.map Reply.text) = outputs :=
    lineOutputs_map_content ls _
  refine ⟨fun k hk hstop => getElem?_replies _ _ _ _ hk hstop, hfirst, ?_, ?_, ?_, fun h => ?_⟩
  · rw [hshows.errors_eq, hfirst]
  · rw [hshows.code_eq, hfirst]
  · rw [← houtputs, hshows.output_eq_iff, ← hstops]
  · obtain ⟨n, hn, hlast, hlength, houtput⟩ := hshows.output_of_stops (hstops.mpr h)
    rw [List.length_map] at hn
    rw [List.getElem_map, InputLine.isBlank_content] at hlast
    rw [← List.map_take, expressionsOf_map_content fun l hl =>
      hreadable l (List.mem_of_mem_take hl)] at hlength
    exact ⟨n, hn, hlast, hlength, houtputs ▸ houtput⟩

/-- A text that is no expression and a roll of two dice, on lines that end in two ways and with a
blank line between them, give the same messages and the same exit code as among the arguments. -/
theorem sessions_agree_iff_blank_between :
    let first := run ["-t", "1 +", "--seed", "7", "2d6"] "" 0
    let second := run ["--seed=7", "-t"]
      (inputText [⟨"1 +", .returnFeed⟩, ⟨"\u3000", .feed⟩, ⟨"2d6", .feed⟩]) 0
    second.errors = first.errors ∧ second.code = first.code := by
  have hagree := sessions_agree_iff ["-t", "1 +", "--seed", "7", "2d6"] ["--seed=7", "-t"]
    { seed := some 7, table := true, expressions := ["1 +", "2d6"] }
    { seed := some 7, table := true } (by decide +kernel) (by decide +kernel) rfl rfl rfl
    (List.cons_ne_nil _ _) [⟨"1 +", .returnFeed⟩, ⟨"\u3000", .feed⟩, ⟨"2d6", .feed⟩]
    (by decide +kernel) (by decide +kernel) "" 0
  exact ⟨hagree.2.2.1, hagree.2.2.2.1⟩

/-- Where the only expression looks its value up past the end of a table, the prompt before it is
all that a session over lines shows. -/
theorem not_forall_sessions_agree :
    ¬ ∀ (arguments bare : List String) (options bareOptions : Options) (ls : List InputLine)
      (input : String) (entropy : UInt64), Request.ofArguments arguments = .run options →
      Request.ofArguments bare = .run bareOptions → bareOptions.config = options.config →
      bareOptions.table = options.table → bareOptions.expressions = [] →
      options.expressions ≠ [] → (∀ l ∈ ls, l.IsReadable) →
      expressionsOf (ls.map InputLine.text) = options.expressions →
      ∃ outputs : List String, outputs.length = options.expressions.length ∧
        (run arguments input entropy).output = String.join outputs ∧
        (run bare (inputText ls) entropy).output =
          prompted (lineOutputs (ls.map InputLine.text) outputs) ++ (prompt ++ "\n") := by
  intro hall
  let text := "prob(18014398509481988, 1d3 + 18014398509481984)"
  obtain ⟨outputs, hlength, hfirst, hsecond⟩ := hall [text] [] { expressions := [text] } {}
    [⟨text, .feed⟩] "" 0 (by decide +kernel) (by decide +kernel) rfl rfl rfl
    (List.cons_ne_nil _ _) (by decide +kernel) (by decide +kernel)
  obtain ⟨output, rfl⟩ := List.length_eq_one_iff.mp hlength
  have hempty : (run [text] "" 0).output = "" := by decide +kernel
  have hprompt : (run [] (inputText [⟨text, .feed⟩]) 0).output = "> " := by decide +kernel
  rw [hempty, String.join_cons, String.join_nil, String.append_empty] at hfirst
  rw [hprompt, ← hfirst] at hsecond
  exact absurd hsecond (by decide +kernel)

end DiceOdds.CommandLine
