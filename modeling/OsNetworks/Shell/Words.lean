/-
What `parse_command` makes of a command of the grammar: the names in order, the
file of the last redirection of each kind, and whether any output redirection
was `>>`. It writes past `args` if there are more than 255 names.
-/
import OsNetworks.Shell.Recogniser
import OsNetworks.Shell.Executor

namespace OsNetworks.Shell

/-- What `parse_command` gives for a command with at most 255 names. -/
def Atomic.command (a : Atomic) : ParsedCommand where
  args := a.names
  inputFile := (a.parts.filterMap Part.inputFile).getLast?
  outputFile := ((a.parts.filterMap Part.outputFile).getLast?).map (·.1)
  appendOutput := (a.parts.filterMap Part.outputFile).any (·.2)

/-- What one part adds. -/
def ParsedCommand.add (cmd : ParsedCommand) : Part → ParsedCommand
  | .name _ n => { cmd with args := cmd.args ++ [n.text] }
  | .input _ _ n => { cmd with inputFile := some n.text }
  | .output _ append _ n => { cmd with appendOutput := cmd.appendOutput || append, outputFile := some n.text }

theorem foldl_add (parts : List Part) (cmd : ParsedCommand) :
    parts.foldl ParsedCommand.add cmd =
      { args := cmd.args ++ parts.filterMap Part.argument
        inputFile := ((parts.filterMap Part.inputFile).getLast?).or cmd.inputFile
        outputFile := (((parts.filterMap Part.outputFile).getLast?).map (·.1)).or cmd.outputFile
        appendOutput := cmd.appendOutput || (parts.filterMap Part.outputFile).any (·.2) } := by
  induction parts generalizing cmd with
  | nil => simp
  | cons p parts ih =>
    rw [List.foldl_cons, ih]
    cases p with
    | name gap n => simp [ParsedCommand.add, List.filterMap_cons, Part.argument, Part.inputFile, Part.outputFile]
    | input before after n =>
      simp [ParsedCommand.add, List.filterMap_cons, Part.argument, Part.inputFile, Part.outputFile,
        List.getLast?_cons]
    | output before append after n =>
      simp only [ParsedCommand.add, List.filterMap_cons, Part.argument, Part.inputFile, Part.outputFile,
        List.getLast?_cons, List.any_cons, Bool.or_assoc]
      cases (parts.filterMap Part.outputFile).getLast? <;> rfl

theorem Atomic.command_eq (a : Atomic) : a.command = a.parts.foldl ParsedCommand.add { args := [a.name.text] } := by
  rw [foldl_add]
  simp [Atomic.command, Atomic.names]

/-! ## One word -/

section
variable {r : Text} {cmd : ParsedCommand}

theorem isWordChar_of_nameChar {c : UInt8} (h : isNameChar c = true) : isWordChar c = true := by
  have hs := not_special_of_nameChar h
  simp only [isSpecialChar, Bool.or_eq_false_iff, decide_eq_false_iff_not] at hs
  simp only [isNameChar, Bool.and_eq_true, Bool.not_eq_true', decide_eq_true_eq] at h
  simp [isWordChar, h.1.1, h.1.2, hs.1.1.2, hs.1.2]

theorem not_wordChar_of_space {c : UInt8} (h : isspace c = true) : isWordChar c = false := by
  simp [isWordChar, h]

/-- What follows a name ends the word. -/
theorem not_wordChar_parts (ps : List Part) (after : Blank) :
    isWordChar (peek (ps.flatMap Part.text ++ after.text)) = false := by
  cases ps with
  | nil =>
    rw [List.flatMap_nil, List.nil_append]
    by_cases hb : after.text = []
    · rw [hb]
      decide
    · exact not_wordChar_of_space (after.spaces _ (peek_mem hb))
  | cons p ps =>
    rw [List.flatMap_cons, List.append_assoc]
    rcases p.peek_text (ps.flatMap Part.text ++ after.text) with h | h | h
    · exact not_wordChar_of_space h
    · rw [h]
      decide
    · rw [h]
      decide

theorem takeWhile_name (n : Name) (h : isWordChar (peek r) = false) : (n.text ++ r).takeWhile isWordChar = n.text :=
  takeWhile_run (fun c hc => isWordChar_of_nameChar (n.chars c hc)) (.inr h)

theorem dropWhile_name (n : Name) (h : isWordChar (peek r) = false) : (n.text ++ r).dropWhile isWordChar = r :=
  dropWhile_run (fun c hc => isWordChar_of_nameChar (n.chars c hc)) (.inr h)

theorem parseWord_name (n : Name) (h : isWordChar (peek r) = false) :
    parseWord (n.text ++ r) cmd =
      (store maxArgs cmd.args n.text).map fun args => (r, { cmd with args }) := by
  have hp := n.peek_nameChar
  rw [← n.peek_append r] at hp
  unfold parseWord
  rw [if_neg (fun he => by rw [he] at hp; cases hp), if_neg (fun he => by rw [he] at hp; cases hp),
    takeWhile_name n h, dropWhile_name n h]

/-- One round of the loop takes one part. -/
theorem parseWord_part (cmd : ParsedCommand) (p : Part) (h : isWordChar (peek r) = false) :
    parseWord (skipWhitespace (p.text ++ r)) cmd =
      if p.argument = none ∨ cmd.args.length < maxArgs then some (r, cmd.add p) else none := by
  cases p with
  | name gap n =>
    simp only [Part.text, List.append_assoc]
    rw [skipWhitespace_blank gap.toBlank (not_space_of_nameChar (n.peek_append r ▸ n.peek_nameChar)),
      parseWord_name n h, store]
    by_cases hlt : cmd.args.length < maxArgs
    · rw [if_pos hlt, if_pos (.inr hlt)]
      rfl
    · rw [if_neg hlt, if_neg (by simp [Part.argument, hlt])]
      rfl
  | input before after n =>
    simp only [Part.text, List.append_assoc, List.cons_append]
    rw [skipWhitespace_blank before rfl]
    simp [parseWord, skipChar_blank_name, takeWhile_name n h, dropWhile_name n h, strndup, n.ne, ParsedCommand.add,
      Part.argument]
  | output before append after n =>
    simp only [Part.text, List.append_assoc, List.cons_append]
    rw [skipWhitespace_blank before rfl]
    have hne : greater ≠ less := by decide
    cases append with
    | true =>
      simp [parseWord, hne, skipChar_blank_name, takeWhile_name n h, dropWhile_name n h, strndup, n.ne,
        ParsedCommand.add, Part.argument]
    | false =>
      simp [parseWord, hne, skipChar_blank_name, takeWhile_name n h, dropWhile_name n h, strndup, n.ne,
        ParsedCommand.add, Part.argument, not_greater_after after n r]

/-! ## The loop -/

theorem parseCommandLoop_word {ptr next : Text} {cmd' : ParsedCommand} (h0 : peek (skipWhitespace ptr) ≠ 0)
    (h : parseWord (skipWhitespace ptr) cmd = some (next, cmd')) :
    parseCommandLoop ptr cmd = parseCommandLoop next cmd' := by
  rw [parseCommandLoop, dif_neg h0]
  split
  next hn =>
    rw [h] at hn
    cases hn
  next hn =>
    rw [h] at hn
    cases hn
    rfl

theorem parseCommandLoop_overrun {ptr : Text} (h0 : peek (skipWhitespace ptr) ≠ 0)
    (h : parseWord (skipWhitespace ptr) cmd = none) : parseCommandLoop ptr cmd = none := by
  rw [parseCommandLoop, dif_neg h0]
  split
  · rfl
  next hn =>
    rw [h] at hn
    cases hn

theorem peek_skip_part (p : Part) (r : Text) : peek (skipWhitespace (p.text ++ r)) ≠ 0 := by
  have hname : ∀ (n : Name) (x : Text), peek (n.text ++ x) ≠ 0 := by
    intro n x h0
    have := n.peek_nameChar
    rw [← n.peek_append x, h0] at this
    cases this
  cases p with
  | name gap n =>
    simp only [Part.text, List.append_assoc]
    rw [skipWhitespace_blank gap.toBlank (not_space_of_nameChar (n.peek_append r ▸ n.peek_nameChar))]
    exact hname n r
  | input before after n =>
    simp only [Part.text, List.append_assoc, List.cons_append]
    rw [skipWhitespace_blank before rfl, peek_cons]
    decide
  | output before append after n =>
    simp only [Part.text, List.append_assoc, List.cons_append]
    rw [skipWhitespace_blank before rfl, peek_cons]
    decide

theorem length_foldl_add (ps : List Part) (cmd : ParsedCommand) :
    cmd.args.length ≤ (ps.foldl ParsedCommand.add cmd).args.length := by
  rw [foldl_add]
  simp

/-- The rest of a command after its first name. -/
theorem parseCommandLoop_parts (ps : List Part) (after : Blank) (cmd : ParsedCommand)
    (hcmd : cmd.args.length ≤ maxArgs) :
    parseCommandLoop (ps.flatMap Part.text ++ after.text) cmd =
      if (ps.foldl ParsedCommand.add cmd).args.length ≤ maxArgs then some (ps.foldl ParsedCommand.add cmd)
      else none := by
  induction ps generalizing cmd with
  | nil =>
    have hnil : skipWhitespace after.text = [] := by simpa using skipWhitespace_blank (r := []) after rfl
    rw [List.flatMap_nil, List.nil_append, parseCommandLoop, dif_pos (by rw [hnil]; rfl), List.foldl_nil, if_pos hcmd]
  | cons p ps ih =>
    have h0 := peek_skip_part p (ps.flatMap Part.text ++ after.text)
    have hw := parseWord_part cmd p (not_wordChar_parts ps after)
    rw [List.flatMap_cons, List.append_assoc, List.foldl_cons]
    split at hw
    next hroom =>
      rw [parseCommandLoop_word h0 hw, ih]
      cases p with
      | name gap n =>
        rcases hroom with h | h
        · cases h
        · simpa [ParsedCommand.add] using Nat.succ_le_of_lt h
      | input before after n => exact hcmd
      | output before append after n => exact hcmd
    next hfull =>
      rw [parseCommandLoop_overrun h0 hw, if_neg]
      have hle := length_foldl_add ps (cmd.add p)
      cases p with
      | name gap n =>
        simp only [ParsedCommand.add, List.length_append, List.length_singleton] at hle ⊢
        simp only [not_or, Nat.not_lt] at hfull
        omega
      | input before after n => exact absurd (.inl rfl) hfull
      | output before append after n => exact absurd (.inl rfl) hfull

end

/-- `parse_command` on a command of the grammar. -/
theorem parseCommand_text (a : Atomic) (h : a.text.length < maxInputLen) :
    parseCommand a.text = if a.names.length < maxArgs then some a.command else none := by
  have hcopy : copyInput a.text = a.text := List.take_of_length_le (by omega)
  have hskip : skipWhitespace a.text = a.name.text ++ (a.parts.flatMap Part.text ++ a.after.text) :=
    skipWhitespace_blank a.before (not_space_of_nameChar (a.name.peek_append _ ▸ a.name.peek_nameChar))
  have h0 : peek (skipWhitespace a.text) ≠ 0 := by
    intro h0
    have := a.name.peek_nameChar
    rw [hskip, a.name.peek_append] at h0
    rw [h0] at this
    cases this
  have hw : parseWord (skipWhitespace a.text) {} =
      some (a.parts.flatMap Part.text ++ a.after.text, { args := [a.name.text] }) := by
    rw [hskip, parseWord_name a.name (not_wordChar_parts a.parts a.after)]
    rfl
  unfold parseCommand
  rw [hcopy, parseCommandLoop_word h0 hw,
    parseCommandLoop_parts a.parts a.after { args := [a.name.text] } (by simp only [List.length_singleton]; decide),
    ← a.command_eq]
  have hlen : a.command.args.length = a.names.length := rfl
  by_cases hlt : a.names.length < maxArgs
  · rw [if_pos (by omega), Option.bind_some, if_pos (by omega), if_pos hlt]
  · rw [if_neg hlt]
    split
    · rw [Option.bind_some, if_neg (by omega)]
    · rfl

/-! ## The last redirection -/

/-- What the grammar means: the last output redirection says how its file is opened. -/
def Atomic.intended (a : Atomic) : ParsedCommand :=
  { a.command with appendOutput := ((a.parts.filterMap Part.outputFile).getLast?).any (·.2) }

theorem any_eq_last_iff {outputs : List (Text × Bool)} :
    outputs.any (·.2) = outputs.getLast?.any (·.2) ↔
      (∃ o ∈ outputs, o.2 = true) → ∃ o ∈ outputs.getLast?, o.2 = true := by
  have hmem : ∀ o ∈ outputs.getLast?, o ∈ outputs := fun o ho => List.mem_of_getLast? ho
  rw [Bool.eq_iff_iff, List.any_eq_true, Option.any_eq_true]
  constructor
  · exact fun h => h.mp
  · refine fun h => ⟨h, ?_⟩
    rintro ⟨o, ho, happend⟩
    exact ⟨o, hmem o ho, happend⟩

/-- **`parse_command` agrees with the grammar** on just those commands in which the last output redirection is
`>>` if any is. The texts of stages are shorter than the buffer. -/
theorem parseCommand_intended_iff (a : Atomic) (h : a.text.length < maxInputLen) (hnames : a.names.length < maxArgs) :
    parseCommand a.text = some a.intended ↔
      ((∃ o ∈ a.parts.filterMap Part.outputFile, o.2 = true) →
        ∃ o ∈ (a.parts.filterMap Part.outputFile).getLast?, o.2 = true) := by
  rw [parseCommand_text a h, if_pos hnames, Option.some.injEq, ← any_eq_last_iff]
  constructor
  · exact fun he => congrArg ParsedCommand.appendOutput he
  · intro he
    rw [Atomic.intended, ← he]
    rfl

/-- `a>b>>c` -/
def writesThenAppends : Atomic where
  before := ⟨[], nofun⟩
  name := ⟨[97], by decide, by simp; decide⟩
  parts := [.output ⟨[], nofun⟩ false ⟨[], nofun⟩ ⟨[98], by decide, by simp; decide⟩,
    .output ⟨[], nofun⟩ true ⟨[], nofun⟩ ⟨[99], by decide, by simp; decide⟩]
  after := ⟨[], nofun⟩

theorem parseCommand_intended_append :
    parseCommand writesThenAppends.text = some writesThenAppends.intended ↔
      ((∃ o ∈ writesThenAppends.parts.filterMap Part.outputFile, o.2 = true) →
        ∃ o ∈ (writesThenAppends.parts.filterMap Part.outputFile).getLast?, o.2 = true) :=
  parseCommand_intended_iff writesThenAppends (by decide) (by decide)

/-- `a>>b>c` -/
def appendsThenWrites : Atomic where
  before := ⟨[], nofun⟩
  name := ⟨[97], by decide, by simp; decide⟩
  parts := [.output ⟨[], nofun⟩ true ⟨[], nofun⟩ ⟨[98], by decide, by simp; decide⟩,
    .output ⟨[], nofun⟩ false ⟨[], nofun⟩ ⟨[99], by decide, by simp; decide⟩]
  after := ⟨[], nofun⟩

theorem append_kept :
    parseCommand appendsThenWrites.text = some { args := [[97]], outputFile := some [99], appendOutput := true } ∧
      parseCommand appendsThenWrites.text ≠ some appendsThenWrites.intended := by
  rw [parseCommand_text appendsThenWrites (by decide)]
  decide

end OsNetworks.Shell
