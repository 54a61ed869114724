/-
The history as its user sees it, a list of at most 15 commands with the oldest
first, and that the ring of `log.c` is this list, from the first command on.
-/
import OsNetworks.Shell.Log

namespace OsNetworks.Shell

abbrev History := List Line

namespace History

/-- A command that is entered into the history. -/
def Enters (h : History) (cmd : Line) : Prop := isLogCommand cmd.bytes = false ∧ h.getLast? ≠ some cmd

instance (h : History) (cmd : Line) : Decidable (h.Enters cmd) := inferInstanceAs (Decidable (_ ∧ _))

def add (h : History) (cmd : Line) : History := if h.Enters cmd then (h ++ [cmd]).rtake maxLogEntries else h

end History

/-- A use of the log: a command line is logged, or `log` is run with arguments. -/
inductive LogOp where
  | add (cmd : Line)
  | command (args : List Text)

/-- The log after a use. -/
def Log.next (log : Log) : LogOp → Log
  | .add cmd => logAddCommand log cmd
  | .command args => (cmdLog log args).1

/-- The history after a use. -/
def History.next (h : History) : LogOp → History
  | .add cmd => h.add cmd
  | .command args => if args = [purgeWord] then [] else h

/-- The use changes the history, and the file is written. -/
def History.Changes (h : History) : LogOp → Prop
  | .add cmd => h.Enters cmd
  | .command args => args = [purgeWord]

/-! ## Loading -/

/-- The entries that `load_log` reads, at most `room`. -/
def readLines : (room : Nat) → Text → List Line
  | 0, _ => []
  | room + 1, file =>
    match fgets file with
    | none => []
    | some (_, rest) => Line.read file :: readLines room rest

theorem loadLoop_spec {room : Nat} {ring : Ring Line maxLogEntries} {file : Text} (h : ring.Tidy)
    (hstart : ring.start = 0)
    (hroom : ring.count + room ≤ maxLogEntries) :
    (loadLoop room ring file).Tidy ∧ (loadLoop room ring file).contents = ring.contents ++ readLines room file := by
  induction room generalizing ring file with
  | zero => exact ⟨h, (List.append_nil _).symm⟩
  | succ room ih =>
    unfold loadLoop readLines
    cases hf : fgets file with
    | none => exact ⟨h, (List.append_nil _).symm⟩
    | some r =>
      have hlt : ring.count < maxLogEntries := by omega
      have happend : (ring.append (Line.read file)).Tidy := Ring.push_of_room hlt (Line.read file) ▸ h.push _
      have hcount : (ring.append (Line.read file)).count = ring.count + 1 := rfl
      have hnext := @ih (ring.append (Line.read file)) r.2 happend hstart (by omega)
      refine ⟨hnext.1, hnext.2.trans ?_⟩
      rw [Ring.contents_append h hlt, List.append_assoc]
      rfl

/-- What a shell finds that starts with the given file. -/
def loaded : Option Text → History
  | none => []
  | some file => readLines maxLogEntries file

theorem boot_load (file : Option Text) :
    (Log.boot file).load.ring.Tidy ∧ (Log.boot file).load.ring.contents = loaded file := by
  have htidy : (Log.boot file).ring.Tidy := ⟨Nat.zero_lt_succ _, Nat.zero_le _, fun _ => rfl⟩
  cases file with
  | none => exact ⟨htidy, rfl⟩
  | some file => exact loadLoop_spec htidy.clear rfl (Nat.le_refl _)

/-! ## The ring is the history -/

/-- The log, as it is once it is loaded, holds the history. -/
structure Log.Holds (log : Log) (h : History) : Prop where
  tidy : log.load.ring.Tidy
  contents : log.load.ring.contents = h

section
variable {log : Log} {h : History}

theorem Log.load_loaded (log : Log) : log.load.loaded = true := by
  unfold Log.load
  split
  next hl => exact hl
  next => rfl

theorem Log.load_of_loaded (hl : log.loaded = true) : log.load = log := if_pos hl

@[simp] theorem Log.load_file (log : Log) : log.load.file = log.file := by
  unfold Log.load loadLog
  split
  · rfl
  · split <;> rfl

theorem Log.Holds.of_loaded (hl : log.loaded = true) (htidy : log.ring.Tidy) (hc : log.ring.contents = h) :
    log.Holds h :=
  ⟨by rwa [Log.load_of_loaded hl], by rwa [Log.load_of_loaded hl]⟩

theorem Log.Holds.load (hh : log.Holds h) : log.load.Holds h := .of_loaded log.load_loaded hh.tidy hh.contents

theorem Log.Holds.count (hh : log.Holds h) : log.load.ring.count = h.length := by
  rw [← hh.contents, Ring.length_contents]

/-- The duplicate check looks at the last command. -/
theorem Log.Holds.last (hh : log.Holds h) (cmd : Line) :
    (0 < log.load.ring.count ∧ log.load.ring.slot (log.load.ring.start + log.load.ring.count - 1) = cmd) ↔
      h.getLast? = some cmd := by
  by_cases hpos : 0 < log.load.ring.count
  · have hrecent := Ring.recent (r := log.load.ring) Nat.one_pos hpos
    rw [hh.contents, Nat.sub_self, ← List.head?_eq_getElem?, List.head?_reverse] at hrecent
    rw [hrecent, Option.some.injEq]
    exact and_iff_right hpos
  · have hnil : h = [] := List.eq_nil_of_length_eq_zero (by rw [← hh.count]; omega)
    simp [hpos, hnil]

/-- What a use does to a log that is loaded, by its kind. -/
theorem Log.Holds.add (hh : log.Holds h) (cmd : Line) :
    logAddCommand log cmd =
      if h.Enters cmd then saveLog { log.load with ring := log.load.ring.push cmd } else log.load := by
  unfold logAddCommand
  simp only [hh.last, History.Enters]
  by_cases hlog : isLogCommand cmd.bytes = true
  · simp [hlog]
  · by_cases hlast : h.getLast? = some cmd
    · simp [hlast]
    · simp [hlog, hlast]

theorem cmdLog_execute (log : Log) (index : Text) :
    (cmdLog log [executeWord, index]).2 = log.load.execute (atoi index) := by
  simp only [cmdLog, if_true]

theorem cmdLog_fst (log : Log) (args : List Text) :
    (cmdLog log args).1 =
      if args = [purgeWord] then saveLog { log.load with ring := log.load.ring.clear } else log.load := by
  unfold cmdLog
  split
  · simp
  next word =>
    simp only [List.cons.injEq, and_true]
    split <;> rfl
  · simp
  next _ hone _ =>
    rw [if_neg (hone purgeWord)]

theorem Log.Holds.next (hh : log.Holds h) (op : LogOp) :
    (log.next op).loaded = true ∧ (log.next op).Holds (h.next op) := by
  cases op with
  | add cmd =>
    simp only [Log.next, History.next, History.add, hh.add cmd]
    split
    next =>
      have hcontents := Ring.contents_push hh.tidy cmd
      rw [hh.contents] at hcontents
      exact ⟨log.load_loaded, .of_loaded log.load_loaded (hh.tidy.push cmd) hcontents⟩
    next => exact ⟨log.load_loaded, hh.load⟩
  | command args =>
    simp only [Log.next, History.next, cmdLog_fst]
    split
    next => exact ⟨log.load_loaded, .of_loaded log.load_loaded hh.tidy.clear rfl⟩
    next => exact ⟨log.load_loaded, hh.load⟩

/-- A use that changes the history writes the file, any other leaves it. -/
theorem Log.Holds.file (hh : log.Holds h) (op : LogOp) :
    (h.Changes op → (log.next op).file = some (fileText (h.next op))) ∧
      (¬ h.Changes op → (log.next op).file = log.file) := by
  cases op with
  | add cmd =>
    simp only [Log.next, History.next, History.add, History.Changes, hh.add cmd]
    refine ⟨fun he => ?_, fun he => by rw [if_neg he, log.load_file]⟩
    have hcontents := Ring.contents_push hh.tidy cmd
    rw [hh.contents] at hcontents
    rw [if_pos he, if_pos he, ← hcontents]
    rfl
  | command args =>
    simp only [Log.next, History.next, History.Changes, cmdLog_fst]
    refine ⟨fun he => ?_, fun he => by rw [if_neg he, log.load_file]⟩
    rw [if_pos he, if_pos he]
    rfl

/-- The log after a run of uses. -/
theorem Log.Holds.run (hh : log.Holds h) (ops : List LogOp) :
    (ops.foldl Log.next log).Holds (ops.foldl History.next h) := by
  induction ops generalizing log h with
  | nil => exact hh
  | cons op ops ih => exact ih (hh.next op).2

/-- The ring shows the history, entry by entry. -/
structure Log.Shows (log : Log) (h : History) : Prop where
  count : log.ring.count = h.length
  entries : ∀ (i : Nat) (hi : i < h.length), log.ring.slot (log.ring.start + i) = h[i]
  start : log.ring.count < maxLogEntries → log.ring.start = 0

theorem Log.Holds.shows (hh : log.Holds h) (hl : log.loaded = true) : log.Shows h := by
  obtain ⟨htidy, rfl⟩ := hh
  rw [Log.load_of_loaded hl] at htidy ⊢
  exact ⟨(Ring.length_contents _).symm, fun i hi => (Ring.getElem_contents _ i hi).symm, htidy.unturned⟩

theorem Log.Holds.execute (hh : log.Holds h) (k : Int) :
    (log.load.execute k ≠ .invalidIndex ↔ 1 ≤ k ∧ k ≤ h.length) ∧
      ∀ entry, 1 ≤ k → h.reverse[k.toNat - 1]? = some entry →
        log.load.execute k = if parseInput entry.bytes then .executed entry else .invalidEntry entry := by
  unfold Log.execute
  rw [hh.count]
  by_cases hk : 1 ≤ k ∧ k ≤ h.length
  · have hrecent := Ring.recent (r := log.load.ring) (k := k.toNat) (by omega) (by rw [hh.count]; omega)
    rw [hh.contents, hh.count] at hrecent
    rw [if_neg (by omega)]
    refine ⟨iff_of_true ?_ hk, fun entry _ he => ?_⟩
    · simp only
      split <;> simp
    · rw [hrecent] at he
      rw [Option.some.inj he]
  · rw [if_pos (by omega)]
    refine ⟨iff_of_false (fun hne => hne rfl) hk, fun entry hpos he => ?_⟩
    -- past the oldest there is no entry
    rw [List.getElem?_eq_none (by rw [List.length_reverse]; omega)] at he
    cases he

end

/-! ## A file of whole lines -/

/-- A line of a file that `fgets` reads at once with its newline. -/
structure FileLine where
  bytes : Text
  noNewline : newline ∉ bytes
  short : bytes.length < maxInputLen - 1

/-- The entry made of it, which ends at a NUL. -/
def FileLine.entry (line : FileLine) : Line where
  bytes := cstring line.bytes
  noNul h := by simpa using mem_run h
  fits := by
    have hcut := (List.takeWhile_prefix (l := line.bytes) (· ≠ 0)).length_le
    exact Nat.lt_of_le_of_lt hcut (Nat.lt_of_lt_of_le line.short (Nat.sub_le _ _))

/-- A file of at most 15 lines. -/
structure LogFile where
  lines : List FileLine
  few : lines.length ≤ maxLogEntries

def LogFile.text (file : LogFile) : Text := (file.lines.map fun line => line.bytes ++ [newline]).flatten

/-- The history that a shell starts with. -/
def LogFile.history : Option LogFile → History
  | none => []
  | some file => file.lines.map FileLine.entry

theorem getLine_line {line : Text} (hline : newline ∉ line) {room : Nat} (hroom : line.length < room) (rest : Text) :
    getLine room (line ++ newline :: rest) = (line ++ [newline], rest) := by
  induction line generalizing room with
  | nil =>
    obtain ⟨room, rfl⟩ : ∃ n, room = n + 1 := ⟨room - 1, by simp at hroom; omega⟩
    rfl
  | cons c line ih =>
    obtain ⟨room, rfl⟩ : ∃ n, room = n + 1 := ⟨room - 1, by simp at hroom; omega⟩
    have hc : c ≠ newline := fun hc => hline (hc ▸ List.mem_cons_self)
    rw [List.cons_append, getLine, if_neg hc,
      ih (fun hm => hline (List.mem_cons_of_mem _ hm)) (by simpa using hroom)]
    rfl

/-- The newline goes, or was not reached. -/
theorem chomp_line {line : Text} (hline : newline ∉ line) : chomp (cstring (line ++ [newline])) = cstring line := by
  by_cases hz : (0 : UInt8) ∈ line
  · have hcut : cstring (line ++ [newline]) = cstring line := by
      simp only [cstring, List.takeWhile_append]
      rw [if_neg]
      intro hlen
      have hall := (List.takeWhile_prefix (l := line) (· ≠ 0)).eq_of_length hlen
      rw [← hall] at hz
      simpa using mem_run hz
    rw [hcut, chomp_of_not_mem fun h => hline (cstring_subset line h)]
  · have hwith : cstring (line ++ [newline]) = line ++ [newline] := cstring_of_noNul (by simp [hz, newline])
    rw [hwith, cstring_of_noNul hz, chomp, if_pos (by simp), List.dropLast_concat]

theorem readLines_line (line : FileLine) (room : Nat) (rest : Text) :
    readLines (room + 1) (line.bytes ++ newline :: rest) = line.entry :: readLines room rest := by
  have hget := getLine_line line.noNewline line.short rest
  have hread : Line.read (line.bytes ++ newline :: rest) = line.entry := by
    ext1
    show chomp (cstring (getLine _ _).1) = _
    rw [hget, chomp_line line.noNewline]
    rfl
  have hgets : fgets (line.bytes ++ newline :: rest) = some (line.bytes ++ [newline], rest) := by
    rw [fgets, if_neg (by simp), hget]
  rw [readLines, hgets, hread]

theorem readLines_file (lines : List FileLine) {room : Nat} (hroom : lines.length ≤ room) :
    readLines room (lines.map fun line => line.bytes ++ [newline]).flatten = lines.map FileLine.entry := by
  induction lines generalizing room with
  | nil => cases room <;> rfl
  | cons line lines ih =>
    obtain ⟨room, rfl⟩ : ∃ n, room = n + 1 := ⟨room - 1, by simp at hroom; omega⟩
    simp only [List.map_cons, List.flatten_cons, List.append_assoc, List.cons_append, List.nil_append]
    rw [readLines_line, ih (by simpa using hroom)]

theorem boot_holds (start : Option LogFile) :
    (Log.boot (start.map LogFile.text)).Holds (LogFile.history start) := by
  obtain ⟨htidy, hcontents⟩ := boot_load (start.map LogFile.text)
  refine ⟨htidy, hcontents.trans ?_⟩
  cases start with
  | none => rfl
  | some file => exact readLines_file file.lines file.few

/-- The line `a`. -/
def letterLine : Line := ⟨⟨[97], by decide⟩, by decide⟩

end OsNetworks.Shell
