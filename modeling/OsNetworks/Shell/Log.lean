/-
The command history of `log.c`: a ring of 15 strings in `log_entries`, read
from `.shell_log` when it is first used and written back after each change.
Opening the file for writing is assumed to succeed.
-/
import OsNetworks.Lib.Ring
import OsNetworks.Shell.Executor

namespace OsNetworks.Shell

abbrev maxLogEntries : Nat := 15

/-- `'\n'` -/
abbrev newline : UInt8 := 10

/-- A string in a buffer of `MAX_INPUT_LEN` bytes. -/
@[ext] structure Line extends CString where
  fits : bytes.length < maxInputLen
  deriving DecidableEq, Repr

def Line.empty : Line := ⟨⟨[], by simp⟩, by decide⟩

/-! ## Reading lines -/

/-- The string in a buffer. -/
def cstring (buffer : Text) : Text := buffer.takeWhile (· ≠ 0)

/-- Without the trailing newline. -/
def chomp (s : Text) : Text := if s.getLast? = some newline then s.dropLast else s

theorem chomp_sublist (s : Text) : (chomp s).Sublist s := by
  unfold chomp
  split
  · exact List.dropLast_sublist s
  · exact List.Sublist.refl s

theorem chomp_of_not_mem {s : Text} (h : newline ∉ s) : chomp s = s :=
  if_neg fun hlast => h (List.mem_of_getLast? hlast)

theorem cstring_subset (buffer : Text) : cstring buffer ⊆ buffer := (List.takeWhile_prefix _).subset

theorem cstring_of_noNul {s : Text} (h : 0 ∉ s) : cstring s = s := by
  simpa [cstring] using takeWhile_run (r := []) (fun c hc => decide_eq_true fun h0 : c = 0 => h (h0 ▸ hc)) (.inl rfl)

/-- The bytes of a file up to a newline, at most `room` of them, and what is left of the file. -/
def getLine : (room : Nat) → Text → Text × Text
  | 0, file => ([], file)
  | _ + 1, [] => ([], [])
  | room + 1, c :: file =>
    if c = newline then ([c], file)
    else
      let r := getLine room file
      (c :: r.1, r.2)

theorem length_getLine (room : Nat) (file : Text) : (getLine room file).1.length ≤ room := by
  induction room generalizing file with
  | zero => simp [getLine]
  | succ room ih =>
    cases file with
    | nil => simp [getLine]
    | cons c file =>
      unfold getLine
      split
      · simp
      · simpa using ih file

/-- `fgets(buffer, MAX_INPUT_LEN, file)` -/
def fgets (file : Text) : Option (Text × Text) := if file = [] then none else some (getLine (maxInputLen - 1) file)

/-- What the buffer holds once the newline is taken off. -/
def Line.read (file : Text) : Line where
  bytes := chomp (cstring (getLine (maxInputLen - 1) file).1)
  noNul h := by simpa using mem_run ((chomp_sublist _).subset h)
  fits := by
    have hchomp := (chomp_sublist (cstring (getLine (maxInputLen - 1) file).1)).length_le
    have hcut := (List.takeWhile_prefix (l := (getLine (maxInputLen - 1) file).1) (· ≠ 0)).length_le
    exact Nat.lt_of_le_of_lt (hchomp.trans (hcut.trans (length_getLine _ _))) (by decide)

/-! ## The state -/

structure Log where
  /-- `log_entries`, `log_start` and `log_count` -/
  ring : Ring Line maxLogEntries
  /-- `log_loaded` -/
  loaded : Bool
  /-- the contents of `.shell_log`, if it is there -/
  file : Option Text

/-- A shell that has just been started. -/
def Log.boot (file : Option Text) : Log where
  ring := { slots := Vector.replicate maxLogEntries Line.empty, pos := by decide }
  loaded := false
  file

/-- The loop of `load_log`, with room for `room` entries. -/
def loadLoop : (room : Nat) → Ring Line maxLogEntries → Text → Ring Line maxLogEntries
  | 0, ring, _ => ring
  | room + 1, ring, file =>
    match fgets file with
    | none => ring
    | some (_, rest) => loadLoop room (ring.append (Line.read file)) rest

def loadLog (log : Log) : Log :=
  match log.file with
  | none => log
  | some file => { log with ring := loadLoop maxLogEntries log.ring.clear file }

/-- What `save_log` writes for the entries `lines`. -/
def fileText (lines : List Line) : Text := (lines.map fun line => line.bytes ++ [newline]).flatten

def saveLog (log : Log) : Log := { log with file := some (fileText log.ring.contents) }

/-- `if (!log_loaded)` -/
def Log.load (log : Log) : Log := if log.loaded then log else { loadLog log with loaded := true }

/-! ## Adding a command -/

/-- A blank or a tab. -/
def isBlank (c : UInt8) : Bool := c = 32 || c = 9

/-- The command starts with the word `log`. -/
def isLogCommand (cmd : Text) : Bool :=
  let trimmed := cmd.dropWhile isBlank
  trimmed.take 3 = [108, 111, 103] && (byteAt trimmed 3 = 0 || byteAt trimmed 3 = 32 || byteAt trimmed 3 = 9)

def logAddCommand (log : Log) (cmd : Line) : Log :=
  let log := log.load
  if isLogCommand cmd.bytes then log
  else if 0 < log.ring.count ∧ log.ring.slot (log.ring.start + log.ring.count - 1) = cmd then log
  else saveLog { log with ring := log.ring.push cmd }

/-! ## The command `log` -/

/-- What `cmd_log` does besides changing the log. -/
inductive Answer where
  | printed (lines : List Line)
  | purged
  | invalidIndex
  /-- the entry is not accepted by `parse_input` -/
  | invalidEntry (entry : Line)
  /-- the entry is passed to `execute_full_command` -/
  | executed (entry : Line)
  | invalidSyntax
  deriving DecidableEq, Repr

/-- What is printed. -/
def Answer.output : Answer → Text
  | .printed lines => fileText lines
  | .purged => []
  | .invalidIndex => "log: Invalid index\n".toUTF8.toList
  | .invalidEntry _ => "Invalid Syntax!\n".toUTF8.toList
  | .executed _ => []
  | .invalidSyntax => "log: Invalid Syntax!\n".toUTF8.toList

/-- `"purge"` -/
def purgeWord : Text := [112, 117, 114, 103, 101]

/-- `"execute"` -/
def executeWord : Text := [101, 120, 101, 99, 117, 116, 101]

def Log.execute (log : Log) (index : Int) : Answer :=
  if index < 1 ∨ index > log.ring.count then .invalidIndex
  else
    let entry := log.ring.slot (log.ring.start + log.ring.count - index.toNat)
    if parseInput entry.bytes then .executed entry else .invalidEntry entry

/-- `cmd_log`; the arguments are those after the word `log`. -/
def cmdLog (log : Log) (args : List Text) : Log × Answer :=
  let log := log.load
  match args with
  | [] => (log, .printed log.ring.contents)
  | [word] =>
    if word = purgeWord then (saveLog { log with ring := log.ring.clear }, .purged) else (log, .invalidSyntax)
  | [word, index] => (log, if word = executeWord then log.execute (atoi index) else .invalidSyntax)
  | _ => (log, .invalidSyntax)

end OsNetworks.Shell
