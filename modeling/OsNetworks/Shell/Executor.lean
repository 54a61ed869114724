/-
How `executor.c` takes an accepted line apart: `execute_full_command` cuts it
into groups, `execute_pipeline` a group into stages and `parse_command` a stage
into words. The first two write NULs into a copy of the text and keep pointers
into it, which are indices here.

A result `none` means that the C function wrote past one of its arrays, after
which its behaviour is undefined.
-/
import OsNetworks.Shell.Parser

namespace OsNetworks.Shell

/-- `MAX_INPUT_LEN`, and the size of the buffers of `executor.c`. -/
abbrev maxInputLen : Nat := 4096

abbrev maxArgs : Nat := 256

abbrev maxPipes : Nat := 100

/-- The size of `cmd_groups` and of `backgrounds`. -/
abbrev maxGroups : Nat := 100

/-- `array[count++] = x` for an array of `size` elements. -/
def store {α : Type} (size : Nat) (array : List α) (x : α) : Option (List α) :=
  if array.length < size then some (array ++ [x]) else none

/-! ## Buffers -/

/-- `strncpy(buffer, input, sizeof(buffer) - 1)`, up to the NULs that follow. -/
def copyInput (input : Text) : Text := input.take (maxInputLen - 1)

def byteAt (buffer : Text) (i : Nat) : UInt8 := buffer.getD i 0

/-- The string at `buffer + i`. -/
def stringAt (buffer : Text) (i : Nat) : Text := (buffer.drop i).takeWhile (· ≠ 0)

/-- `while (end >= start && isspace(*end)) { *end = '\0'; end--; }` from `end = ptr - 1`. -/
def trimEnd (buffer : Text) (start : Nat) : (ptr : Nat) → Text
  | 0 => buffer
  | e + 1 => if start ≤ e ∧ isspace (byteAt buffer e) then trimEnd (buffer.set e 0) start e else buffer

/-- `while (*start && isspace(*start)) start++;` -/
def skipSpaces (buffer : Text) (start : Nat) : Nat := start + ((buffer.drop start).takeWhile isspace).length

/-! ## The groups of a line -/

/-- The local variables of `execute_full_command`. -/
structure GroupScan where
  buffer : Text
  start : Nat
  ptr : Nat
  groups : List (Nat × Bool)

/-- The string from `start` becomes a group, unless it is empty. -/
def GroupScan.push (s : GroupScan) (buffer : Text) (background : Bool) : Option (List (Nat × Bool)) :=
  if s.start < s.ptr ∧ byteAt buffer s.start ≠ 0 then store maxGroups s.groups (s.start, background)
  else some s.groups

/-- The body of the loop over the line. -/
def GroupScan.step (s : GroupScan) : Option GroupScan :=
  let sep := byteAt s.buffer s.ptr
  if sep = semi ∨ sep = amp then
    let buffer := trimEnd (s.buffer.set s.ptr 0) s.start s.ptr
    (s.push buffer (sep = amp)).map fun groups =>
      { buffer, start := skipSpaces buffer (s.ptr + 1), ptr := s.ptr + 1, groups }
  else some { s with ptr := s.ptr + 1 }

/-- `while (*ptr)`, at most `n` times. -/
def GroupScan.loop : Nat → GroupScan → Option GroupScan
  | 0, s => some s
  | n + 1, s => if byteAt s.buffer s.ptr = 0 then some s else s.step.bind (GroupScan.loop n)

/-- The last group, after the loop, and the strings the array then points at. -/
def GroupScan.finish (s : GroupScan) : Option (List (Text × Bool)) :=
  let buffer := if s.start < s.ptr then trimEnd s.buffer s.start s.ptr else s.buffer
  (s.push buffer false).map fun groups => groups.map fun g => (stringAt buffer g.1, g.2)

/-- The groups that `execute_full_command` runs, and which of them in background. The loop
takes a round for each byte. -/
def splitGroups (input : Text) : Option (List (Text × Bool)) :=
  let buffer := copyInput input
  (GroupScan.loop buffer.length { buffer, start := 0, ptr := 0, groups := [] }).bind GroupScan.finish

/-! ## The stages of a group -/

/-- The local variables of `execute_pipeline`. -/
structure StageScan where
  buffer : Text
  start : Nat
  ptr : Nat
  commands : List Nat

def StageScan.step (s : StageScan) : Option StageScan :=
  if byteAt s.buffer s.ptr = bar then
    (store maxPipes s.commands s.start).map fun commands =>
      { buffer := s.buffer.set s.ptr 0, start := s.ptr + 1, ptr := s.ptr + 1, commands }
  else some { s with ptr := s.ptr + 1 }

def StageScan.loop : Nat → StageScan → Option StageScan
  | 0, s => some s
  | n + 1, s => if byteAt s.buffer s.ptr = 0 then some s else s.step.bind (StageScan.loop n)

/-- The last stage, after the loop, and the strings the array then points at. -/
def StageScan.finish (s : StageScan) : Option (List Text) :=
  (store maxPipes s.commands s.start).map fun commands => commands.map (stringAt s.buffer)

/-- The stages of a group, in order. -/
def splitStages (input : Text) : Option (List Text) :=
  let buffer := copyInput input
  (StageScan.loop buffer.length { buffer, start := 0, ptr := 0, commands := [] }).bind StageScan.finish

/-! ## The words of a stage -/

structure ParsedCommand where
  args : List Text := []
  inputFile : Option Text := none
  outputFile : Option Text := none
  appendOutput : Bool := false
  deriving DecidableEq, Repr

/-- What `parse_command` takes for part of a word. -/
def isWordChar (c : UInt8) : Bool := c ≠ 0 && !isspace c && c ≠ greater && c ≠ less

/-- `if (ptr > start) ... = strndup(start, ptr - start);` -/
def strndup (old : Option Text) (word : Text) : Option Text := if word = [] then old else some word

/-- The body of the loop of `parse_command`, at a character that is no blank. -/
def parseWord (ptr : Text) (cmd : ParsedCommand) : Option (Text × ParsedCommand) :=
  if peek ptr = less then
    let start := skipChar ptr
    some (start.dropWhile isWordChar, { cmd with inputFile := strndup cmd.inputFile (start.takeWhile isWordChar) })
  else if peek ptr = greater then
    if peek ptr.tail = greater then
      let start := skipChar ptr.tail
      some (start.dropWhile isWordChar,
        { cmd with appendOutput := true, outputFile := strndup cmd.outputFile (start.takeWhile isWordChar) })
    else
      let start := skipChar ptr
      some (start.dropWhile isWordChar, { cmd with outputFile := strndup cmd.outputFile (start.takeWhile isWordChar) })
  else
    (store maxArgs cmd.args (ptr.takeWhile isWordChar)).map fun args => (ptr.dropWhile isWordChar, { cmd with args })

theorem length_dropWhile_skipChar (ptr : Text) (h : peek ptr ≠ 0) :
    ((skipChar ptr).dropWhile isWordChar).length < ptr.length := by
  have h1 := (List.dropWhile_sublist isWordChar (l := skipChar ptr)).length_le
  have h2 := length_skipChar ptr
  have h3 : 0 < ptr.length := List.length_pos_iff.mpr fun he => h (he ▸ rfl)
  omega

theorem length_parseWord {ptr next : Text} {cmd cmd' : ParsedCommand} (h0 : peek ptr ≠ 0)
    (hs : isspace (peek ptr) = false) (h : parseWord ptr cmd = some (next, cmd')) : next.length < ptr.length := by
  unfold parseWord at h
  split at h
  · cases h
    exact length_dropWhile_skipChar ptr h0
  split at h
  · split at h
    next hgt =>
      cases h
      have h1 := length_dropWhile_skipChar ptr.tail (by rw [hgt]; decide)
      rw [List.length_tail] at h1
      omega
    · cases h
      exact length_dropWhile_skipChar ptr h0
  next hl hg =>
    obtain ⟨args, -, he⟩ := Option.map_eq_some_iff.mp h
    cases he
    cases ptr with
    | nil => exact absurd rfl h0
    | cons c ptr =>
      simp only [peek_cons] at h0 hs hl hg
      have hw : isWordChar c = true := by simp [isWordChar, h0, hs, hl, hg]
      rw [List.dropWhile_cons, if_pos hw]
      exact Nat.lt_succ_of_le (List.dropWhile_sublist _).length_le

def parseCommandLoop (ptr : Text) (cmd : ParsedCommand) : Option ParsedCommand :=
  if _h0 : peek (skipWhitespace ptr) = 0 then some cmd
  else
    match _h : parseWord (skipWhitespace ptr) cmd with
    | none => none
    | some (next, cmd) => parseCommandLoop next cmd
termination_by ptr.length
decreasing_by
  exact Nat.lt_of_lt_of_le (length_parseWord _h0 (peek_dropWhile (by decide) ptr) _h) (length_skipWhitespace ptr)

/-- The words of a stage; `args` is ended by NULL. The C function returns 0 if there is an
argument and -1 if not. -/
def parseCommand (input : Text) : Option ParsedCommand :=
  (parseCommandLoop (copyInput input) {}).bind fun cmd =>
    if cmd.args.length < maxArgs then some cmd else none

/-! ## What is run -/

/-- `"log"` -/
def logWord : Text := [108, 111, 103]

/-- `"fg"` -/
def fgWord : Text := [102, 103]

/-- `"bg"` -/
def bgWord : Text := [98, 103]

/-- `"ping"` -/
def pingWord : Text := [112, 105, 110, 103]

/-- The other intrinsics: `hop`, `reveal` and `activities`. -/
def otherIntrinsics : List Text :=
  [[104, 111, 112], [114, 101, 118, 101, 97, 108], [97, 99, 116, 105, 118, 105, 116, 105, 101, 115]]

def isIntrinsic (cmd : Text) : Bool := cmd ∈ [logWord, fgWord, bgWord, pingWord] ++ otherIntrinsics

/-- The shell itself runs the command. -/
def ParsedCommand.runsInShell (cmd : ParsedCommand) : Bool :=
  isIntrinsic (cmd.args.headD []) && cmd.inputFile.isNone && cmd.outputFile.isNone

/-- What `execute_pipeline` runs for a group. -/
inductive Action
  /-- no command: -1 is returned -/
  | nothing
  | single (cmd : ParsedCommand)
  | pipeline (cmds : List ParsedCommand)
  deriving DecidableEq, Repr

/-- A call of `execute_pipeline`, with the texts it passes to `parse_command`. -/
structure PipelineRun where
  background : Bool
  parsed : List Text
  action : Action
  deriving DecidableEq, Repr

/-- A background pipeline parses its last stage again, for the name of the job. -/
def executePipeline (input : Text) (background : Bool) : Option PipelineRun :=
  (splitStages input).bind fun commands =>
    (commands.mapM parseCommand).map fun cmds =>
      match cmds with
      | [cmd] => { background, parsed := commands, action := if cmd.args = [] then .nothing else .single cmd }
      | _ =>
        { background, parsed := commands ++ if background then commands.getLast?.toList else []
          action := .pipeline cmds }

/-- The groups of a line one after another. -/
def executeFullCommand (input : Text) : Option (List PipelineRun) :=
  (splitGroups input).bind fun groups => groups.mapM fun g => executePipeline g.1 g.2

end OsNetworks.Shell
