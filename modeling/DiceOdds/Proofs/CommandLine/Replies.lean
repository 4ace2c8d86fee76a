import DiceOdds.CommandLine.Session

/-!
# The replies of a session

Expressions are answered in turn on one roller, and a fault ends this; `replies` is that and nothing
else. A session over arguments shows the replies to them (`runArguments_eq`). A session over lines
of input shows the replies to its lines that are not blank, with a prompt before each line
(`shows_runLines`). Both leave the roller where the replies leave it, so whatever came before an
expression, it is answered on the same roller in both.
-/

namespace DiceOdds.CommandLine

/-! ## Replies in turn -/

/-- The replies to texts that are answered one after another on one roller. A reply that stops the
command is the last. -/
def replies [Memory] (config : Config) (table : Bool) :
    List String → StateM Roller (List Reply)
  | [] => return []
  | text :: rest => do
    match ← answer config table text with
    | .stop => return [.stop]
    | r => return r :: (← replies config table rest)

section Steps

variable [Memory] {config : Config} {table : Bool} {text : String} {reply : Reply}
  {r r' : Roller}

/-- The replies to the rest follow on the roller that the first reply leaves, unless that stops the
command. -/
theorem replies_cons (rest : List String) (h : answer config table text r = (reply, r')) :
    replies config table (text :: rest) r =
      if reply = .stop then ([.stop], r')
      else (reply :: (replies config table rest r').1, (replies config table rest r').2) := by
  rw [replies]
  simp only [bind, StateT.bind, h]
  cases reply <;> rfl

/-- A session over arguments shows a reply and goes on with the rest, unless that stops the
command. -/
theorem runArguments_cons (rest : List String) (h : answer config table text r = (reply, r')) :
    runArguments config table (text :: rest) r =
      if reply = .stop then (.stopped, r')
      else ((runArguments config table rest r').1.reply reply,
        (runArguments config table rest r').2) := by
  rw [runArguments]
  simp only [bind, StateT.bind, h]
  cases reply <;> rfl

/-- A session over lines prompts once more for a blank line. -/
theorem runLines_cons_of_isBlank (rest : List String) (hblank : isBlank text.toList = true)
    (r : Roller) :
    runLines config table (text :: rest) r =
      ((runLines config table rest r).1.write prompt, (runLines config table rest r).2) := by
  rw [runLines]
  simp only [bind, StateT.bind, answerLine, hblank]
  rfl

/-- A line that is not blank is answered. -/
theorem answerLine_of_not_isBlank (hblank : isBlank text.toList = false)
    (h : answer config table text r = (reply, r')) :
    answerLine config table text r = (some reply, r') := by
  rw [answerLine, hblank, if_neg Bool.false_ne_true]
  simp only [bind, StateT.bind, h]
  rfl

/-- A session over lines prompts for any other line, shows the reply and goes on with the rest,
unless the reply stops the command. -/
theorem runLines_cons_of_not_isBlank (rest : List String) (hblank : isBlank text.toList = false)
    (h : answer config table text r = (reply, r')) :
    runLines config table (text :: rest) r =
      if reply = .stop then (Transcript.stopped.write prompt, r')
      else (((runLines config table rest r').1.reply reply).write prompt,
        (runLines config table rest r').2) := by
  rw [runLines]
  simp only [bind, StateT.bind, answerLine_of_not_isBlank hblank h]
  cases reply <;> rfl

end Steps

/-- Every reply, up to one that stops the command, is the answer on the roller that the replies
before it leave. -/
theorem getElem?_replies [Memory] (config : Config) (table : Bool) (texts : List String)
    (r : Roller) {k : Nat} (hk : k < texts.length)
    (hstop : .stop ∉ (replies config table texts r).1.take k) :
    (replies config table texts r).1[k]? =
      some (answer config table texts[k] (replies config table (texts.take k) r).2).1 := by
  induction texts generalizing r k with
  | nil => exact absurd hk (Nat.not_lt_zero k)
  | cons text rest ih =>
    rcases h : answer config table text r with ⟨reply, r'⟩
    rw [replies_cons rest h] at hstop ⊢
    by_cases hreply : reply = .stop
    · rw [if_pos hreply] at hstop ⊢
      cases k with
      | zero => exact congrArg some (hreply ▸ congrArg Prod.fst h.symm)
      | succ k => exact absurd (List.mem_cons_self ..) hstop
    · rw [if_neg hreply] at hstop ⊢
      cases k with
      | zero => exact congrArg (fun run => some run.1) h.symm
      | succ k =>
        rw [List.take_succ_cons, replies_cons _ h, if_neg hreply]
        exact ih r' (Nat.lt_of_succ_lt_succ hk) fun hmem => hstop (List.mem_cons_of_mem _ hmem)

/-! ## Faults -/

/-- Whether the evaluation of a text ends with a fault. -/
def Faults [Memory] (limits : Limits) (text : String) (r : Roller) : Prop :=
  ∃ f, ((rollText limits text : Rolling (TextError Float) (Outcome Float)) r).1 =
    .error (.roll (.distribution (.fault f)))

/-- The errors with a fault behind them are the faults. -/
theorem isSome_fault?_iff (e : RollError Float) :
    e.fault?.isSome = true ↔ ∃ f, e = .distribution (.fault f) := by
  cases e with
  | distribution e => cases e <;> simp [RollError.fault?]
  | _ => simp [RollError.fault?]

/-- A reply stops the command exactly if the evaluation ends with a fault. -/
theorem answer_fst_eq_stop_iff [Memory] (config : Config) (table : Bool) (text : String)
    (r : Roller) :
    (answer config table text r).1 = .stop ↔ Faults config.limits text r := by
  unfold answer Faults
  simp only [bind, StateT.bind, ExceptT.run]
  rcases (rollText config.limits text : Rolling (TextError Float) (Outcome Float)) r with
    ⟨result, r'⟩
  match result with
  | .ok outcome => exact iff_of_false Reply.noConfusion fun ⟨_, h⟩ => by cases h
  | .error (.parse e) => exact iff_of_false Reply.noConfusion fun ⟨_, h⟩ => by cases h
  | .error (.roll e) =>
    change Reply.ofError (.roll e) = .stop ↔ _
    simp only [Except.error.injEq, TextError.roll.injEq, ← isSome_fault?_iff, Reply.ofError]
    split
    next h => exact iff_of_true rfl h
    next h => exact iff_of_false Reply.noConfusion h

/-- Some reply stops the command exactly if some text ends with a fault, on the roller that the
replies before it leave. -/
theorem stop_mem_replies_iff [Memory] (config : Config) (table : Bool) (texts : List String)
    (r : Roller) :
    .stop ∈ (replies config table texts r).1 ↔ ∃ (k : Nat) (hk : k < texts.length),
      Faults config.limits texts[k] (replies config table (texts.take k) r).2 := by
  simp only [← answer_fst_eq_stop_iff config table]
  induction texts generalizing r with
  | nil => exact iff_of_false List.not_mem_nil fun ⟨_, hk, _⟩ => absurd hk (Nat.not_lt_zero _)
  | cons text rest ih =>
    rcases h : answer config table text r with ⟨reply, r'⟩
    have hfirst : (answer config table text r).1 = reply := congrArg Prod.fst h
    by_cases hstop : reply = .stop
    · rw [replies_cons rest h, if_pos hstop]
      exact iff_of_true (List.mem_singleton.mpr rfl) ⟨0, Nat.zero_lt_succ _, hfirst.trans hstop⟩
    · have hlater (k : Nat) : (replies config table ((text :: rest).take (k + 1)) r).2 =
          (replies config table (rest.take k) r').2 := by
        rw [List.take_succ_cons, replies_cons _ h, if_neg hstop]
      rw [replies_cons rest h, if_neg hstop, List.mem_cons, or_iff_right (Ne.symm hstop), ih r']
      constructor
      · rintro ⟨k, hk, hanswer⟩
        exact ⟨k + 1, Nat.succ_lt_succ hk, (hlater k).symm ▸ hanswer⟩
      · rintro ⟨k, hk, hanswer⟩
        cases k with
        | zero => exact absurd (hfirst.symm.trans hanswer) hstop
        | succ k => exact ⟨k, Nat.lt_of_succ_lt_succ hk, hlater k ▸ hanswer⟩

/-! ## Arguments -/

/-- The transcript that is made of replies alone. -/
def Transcript.ofReplies (replies : List Reply) : Transcript where
  output := String.join (replies.map Reply.text)
  errors := replies.flatMap Reply.errors
  code := if .stop ∈ replies then faultCode else 0

/-- A session over arguments shows the replies to them, and leaves the roller where these leave
it. -/
theorem runArguments_eq [Memory] (config : Config) (table : Bool) (texts : List String)
    (r : Roller) :
    runArguments config table texts r =
      (.ofReplies (replies config table texts r).1, (replies config table texts r).2) := by
  induction texts generalizing r with
  | nil => rfl
  | cons text rest ih =>
    rcases h : answer config table text r with ⟨reply, r'⟩
    rw [runArguments_cons rest h, replies_cons rest h]
    by_cases hstop : reply = .stop
    · rw [if_pos hstop, if_pos hstop]
      rfl
    · rw [if_neg hstop, if_neg hstop, ih]
      simp [Transcript.ofReplies, Transcript.reply, Ne.symm hstop]

/-! ## Lines -/

/-- The expressions among lines of input: the lines that are not blank. -/
def expressionsOf (lines : List String) : List String :=
  lines.filter fun line => !isBlank line.toList

/-- What each line of input shows, when the lines that are not blank show `outputs` in turn. A blank
line shows nothing, and neither does any line after the last of the outputs. -/
def lineOutputs : List String → List String → List String
  | [], _ => []
  | line :: rest, outputs =>
    if isBlank line.toList then "" :: lineOutputs rest outputs
    else outputs.headD "" :: lineOutputs rest outputs.tail

/-- Outputs with a prompt before each. -/
def prompted (outputs : List String) : String := String.join (outputs.map (prompt ++ ·))

section Lines

variable {line : String} (lines outputs : List String)

/-- A blank line is no expression. -/
theorem expressionsOf_cons_of_isBlank (h : isBlank line.toList = true) :
    expressionsOf (line :: lines) = expressionsOf lines := by
  rw [expressionsOf, List.filter_cons_of_neg (by simp [h]), expressionsOf]

/-- A line that is not blank is an expression. -/
theorem expressionsOf_cons_of_not_isBlank (h : isBlank line.toList = false) :
    expressionsOf (line :: lines) = line :: expressionsOf lines := by
  rw [expressionsOf, List.filter_cons_of_pos (by simp [h]), expressionsOf]

/-- A blank line shows nothing. -/
theorem lineOutputs_cons_of_isBlank (h : isBlank line.toList = true) :
    lineOutputs (line :: lines) outputs = "" :: lineOutputs lines outputs := by
  rw [lineOutputs, if_pos h]

/-- A line that is not blank shows the next output. -/
theorem lineOutputs_cons_of_not_isBlank (output : String) (h : isBlank line.toList = false) :
    lineOutputs (line :: lines) (output :: outputs) = output :: lineOutputs lines outputs := by
  rw [lineOutputs, if_neg (by simp [h])]
  rfl

/-- Prompted outputs are prompted one by one. -/
theorem prompted_cons (output : String) :
    prompted (output :: outputs) = prompt ++ (output ++ prompted outputs) := by
  rw [prompted, List.map_cons, String.join_cons, String.append_assoc, prompted]

end Lines

/-- Whether `t` is what lines of input show when those that are not blank get the replies `rs`. -/
structure Shows (lines : List String) (rs : List Reply) (t : Transcript) : Prop where
  /-- The messages are those of the replies. -/
  errors_eq : t.errors = (Transcript.ofReplies rs).errors
  /-- The exit code is that of the replies. -/
  code_eq : t.code = (Transcript.ofReplies rs).code
  /-- If no reply stops the command, there is a prompt before the output of every line, and one at
  the end. -/
  output_of_ends : .stop ∉ rs →
    t.output = prompted (lineOutputs lines (rs.map Reply.text)) ++ (prompt ++ "\n")
  /-- If one does, the prompt before the line it belongs to is the last. -/
  output_of_stops : .stop ∈ rs → ∃ n, ∃ h : n < lines.length,
    isBlank lines[n].toList = false ∧ (expressionsOf (lines.take n)).length + 1 = rs.length ∧
      t.output = prompted ((lineOutputs lines (rs.map Reply.text)).take (n + 1))

section Shows

variable {line : String} {lines : List String} {rs : List Reply} {t : Transcript}

/-- The end of the input shows one more prompt. -/
theorem shows_nil : Shows [] [] (Transcript.write (prompt ++ "\n") {}) where
  errors_eq := rfl
  code_eq := rfl
  output_of_ends _ := rfl
  output_of_stops h := absurd h List.not_mem_nil

/-- A blank line shows a prompt. -/
theorem Shows.blank (h : Shows lines rs t) (hblank : isBlank line.toList = true) :
    Shows (line :: lines) rs (t.write prompt) := by
  refine ⟨h.errors_eq, h.code_eq, fun hends => ?_, fun hstops => ?_⟩
  · rw [lineOutputs_cons_of_isBlank _ _ hblank, prompted_cons, Transcript.write,
      h.output_of_ends hends, String.empty_append, String.append_assoc]
  · obtain ⟨n, hn, hlast, hlength, houtput⟩ := h.output_of_stops hstops
    refine ⟨n + 1, Nat.succ_lt_succ hn, hlast, ?_, ?_⟩
    · rwa [List.take_succ_cons, expressionsOf_cons_of_isBlank _ hblank]
    · rw [lineOutputs_cons_of_isBlank _ _ hblank, List.take_succ_cons, prompted_cons,
        Transcript.write, houtput, String.empty_append]

/-- A line that stops the command shows a prompt and nothing after it. -/
theorem shows_stop (lines : List String) (hblank : isBlank line.toList = false) :
    Shows (line :: lines) [.stop] (Transcript.stopped.write prompt) where
  errors_eq := rfl
  code_eq := by decide
  output_of_ends h := absurd (List.mem_singleton.mpr rfl) h
  output_of_stops _ := by
    refine ⟨0, Nat.zero_lt_succ _, hblank, rfl, ?_⟩
    rw [List.map_singleton, lineOutputs_cons_of_not_isBlank _ _ _ hblank]
    rfl

/-- Any other line that is not blank shows a prompt and its reply. -/
theorem Shows.reply (h : Shows lines rs t) (hblank : isBlank line.toList = false) {reply : Reply}
    (hne : reply ≠ .stop) :
    Shows (line :: lines) (reply :: rs) ((t.reply reply).write prompt) := by
  have hmem : .stop ∈ reply :: rs ↔ .stop ∈ rs := by simp [hne.symm]
  refine ⟨?_, ?_, fun hends => ?_, fun hstops => ?_⟩
  · simp [Transcript.ofReplies, Transcript.write, Transcript.reply, h.errors_eq]
  · simp only [Transcript.ofReplies, hmem]
    exact h.code_eq
  · rw [List.map_cons, lineOutputs_cons_of_not_isBlank _ _ _ hblank, prompted_cons,
      Transcript.write, Transcript.reply, h.output_of_ends (mt hmem.mpr hends)]
    simp only [String.append_assoc]
  · obtain ⟨n, hn, hlast, hlength, houtput⟩ := h.output_of_stops (hmem.mp hstops)
    refine ⟨n + 1, Nat.succ_lt_succ hn, hlast, ?_, ?_⟩
    · rw [List.take_succ_cons, expressionsOf_cons_of_not_isBlank _ hblank, List.length_cons,
        List.length_cons, hlength]
    · rw [List.map_cons, lineOutputs_cons_of_not_isBlank _ _ _ hblank, List.take_succ_cons,
        prompted_cons, Transcript.write, Transcript.reply, houtput]

/-- A prompt stands before the output of every line, and one at the end, exactly if no reply stops
the command. -/
theorem Shows.output_eq_iff (h : Shows lines rs t) :
    t.output = prompted (lineOutputs lines (rs.map Reply.text)) ++ (prompt ++ "\n") ↔
      .stop ∉ rs := by
  refine ⟨fun houtput hstops => ?_, h.output_of_ends⟩
  obtain ⟨n, -, -, -, hshort⟩ := h.output_of_stops hstops
  have hsplit := List.take_append_drop (n + 1) (lineOutputs lines (rs.map Reply.text))
  have hlength := congrArg String.length (hshort.symm.trans houtput)
  rw [← hsplit, prompted, prompted, List.map_append, String.join_append, List.take_append_drop,
    String.length_append, String.length_append, String.length_append] at hlength
  have : "\n".length = 1 := rfl
  omega

end Shows

/-- A session over lines shows the replies to those that are not blank, and leaves the roller where
these leave it. -/
theorem shows_runLines [Memory] (config : Config) (table : Bool) (lines : List String)
    (r : Roller) :
    Shows lines (replies config table (expressionsOf lines) r).1
        (runLines config table lines r).1 ∧
      (runLines config table lines r).2 = (replies config table (expressionsOf lines) r).2 := by
  induction lines generalizing r with
  | nil => exact ⟨shows_nil, rfl⟩
  | cons line rest ih =>
    cases hblank : isBlank line.toList with
    | true =>
      rw [runLines_cons_of_isBlank rest hblank, expressionsOf_cons_of_isBlank _ hblank]
      exact ⟨(ih r).1.blank hblank, (ih r).2⟩
    | false =>
      rw [expressionsOf_cons_of_not_isBlank _ hblank]
      rcases h : answer config table line r with ⟨reply, r'⟩
      rw [runLines_cons_of_not_isBlank rest hblank h, replies_cons _ h]
      by_cases hstop : reply = .stop
      · rw [if_pos hstop, if_pos hstop]
        exact ⟨shows_stop rest hblank, rfl⟩
      · rw [if_neg hstop, if_neg hstop]
        exact ⟨(ih r').1.reply hblank hstop, (ih r').2⟩

end DiceOdds.CommandLine
