/-
What a new shell reads from the file that `save_log` wrote. A line of the file
may have 4096 bytes with its newline, and `fgets` takes 4095 of them at a
time, so the newline of the longest entries is read as a line of its own.
-/
import OsNetworks.Shell.History

namespace OsNetworks.Shell

/-! ## The main loop -/

/-- `trimmed` of `main`. -/
def Line.skipBlanks (line : Line) : Line where
  bytes := line.bytes.dropWhile isBlank
  noNul h := line.noNul ((List.dropWhile_suffix _).subset h)
  fits := Nat.lt_of_le_of_lt (List.dropWhile_suffix _).length_le line.fits

/-- Nothing, or a comment. -/
def isIgnored (trimmed : Text) : Bool := peek trimmed = 0 || peek trimmed = 35

/-- What happens to the log: `main` reads a line from what is left of its input, or `log` is run
with arguments, by this line or by one that is executed from the log. -/
inductive LogEvent where
  | input (stdin : Text)
  | command (args : List Text)

def Log.react (log : Log) : LogEvent → Log
  | .input stdin =>
    let trimmed := (Line.read stdin).skipBlanks
    if isIgnored trimmed.bytes then log else logAddCommand log trimmed
  | .command args => (cmdLog log args).1

/-! ## No entry contains a newline -/

/-- Every entry is one line. -/
def History.Unbroken (h : History) : Prop := ∀ line ∈ h, newline ∉ line.bytes

/-- A newline is the last byte that is read. -/
theorem getLine_cases (room : Nat) (file : Text) :
    ∃ line, newline ∉ line ∧ ((getLine room file).1 = line ∨ (getLine room file).1 = line ++ [newline]) := by
  induction room generalizing file with
  | zero => exact ⟨[], by simp, .inl rfl⟩
  | succ room ih =>
    cases file with
    | nil => exact ⟨[], by simp, .inl rfl⟩
    | cons c file =>
      unfold getLine
      split
      next hc => exact ⟨[], by simp, .inr (by rw [hc]; rfl)⟩
      next hc =>
        obtain ⟨line, hline, hget⟩ := ih file
        refine ⟨c :: line, by simp [Ne.symm hc, hline], ?_⟩
        rcases hget with hget | hget
        · exact .inl (congrArg (c :: ·) hget)
        · exact .inr (congrArg (c :: ·) hget)

theorem newline_not_mem_read (file : Text) : newline ∉ (Line.read file).bytes := by
  obtain ⟨line, hline, hget⟩ := getLine_cases (maxInputLen - 1) file
  have hclean : newline ∉ cstring line := fun h => hline (cstring_subset line h)
  have hbytes : (Line.read file).bytes = cstring line := by
    show chomp (cstring (getLine _ file).1) = _
    rcases hget with hget | hget
    · rw [hget, chomp_of_not_mem hclean]
    · rw [hget, chomp_line hline]
  rwa [hbytes]

theorem unbroken_readLines (room : Nat) (file : Text) : History.Unbroken (readLines room file) := by
  induction room generalizing file with
  | zero => intro line hline; cases hline
  | succ room ih =>
    unfold readLines
    cases fgets file with
    | none => intro line hline; cases hline
    | some r =>
      intro line hline
      rcases List.mem_cons.mp hline with rfl | hline
      · exact newline_not_mem_read file
      · exact ih r.2 line hline

theorem unbroken_loaded (file : Option Text) : History.Unbroken (loaded file) := by
  cases file with
  | none => intro line hline; cases hline
  | some file => exact unbroken_readLines _ file

section
variable {h : History}

theorem History.Unbroken.add (hu : h.Unbroken) {cmd : Line} (hcmd : newline ∉ cmd.bytes) :
    (h.add cmd).Unbroken := by
  unfold History.add
  split
  · intro line hline
    rcases List.mem_append.mp (List.mem_of_mem_drop hline) with hline | hline
    · exact hu line hline
    · rw [List.mem_singleton.mp hline]
      exact hcmd
  · exact hu

/-- What the history becomes. -/
def History.react (h : History) : LogEvent → History
  | .input stdin =>
    let trimmed := (Line.read stdin).skipBlanks
    if isIgnored trimmed.bytes then h else h.add trimmed
  | .command args => h.next (.command args)

theorem History.Unbroken.react (hu : h.Unbroken) (e : LogEvent) : (h.react e).Unbroken := by
  cases e with
  | input stdin =>
    unfold History.react
    simp only
    split
    · exact hu
    · exact hu.add fun hmem => newline_not_mem_read stdin ((List.dropWhile_suffix _).subset hmem)
  | command args =>
    unfold History.react History.next
    simp only
    split
    · intro line hline; cases hline
    · exact hu

/-- What the main loop keeps: the log holds a history of whole lines, and is loaded unless nothing
has happened to it. -/
structure Log.Keeps (log : Log) (h : History) : Prop where
  holds : log.Holds h
  unbroken : h.Unbroken
  loaded : log.loaded = true ∨ log.ring.contents = []

theorem Log.Keeps.react {log : Log} (hk : log.Keeps h) (e : LogEvent) : (log.react e).Keeps (h.react e) := by
  refine ⟨?_, hk.unbroken.react e, ?_⟩
  · cases e with
    | input stdin =>
      unfold Log.react History.react
      simp only
      split
      · exact hk.holds
      · exact (hk.holds.next (.add (Line.read stdin).skipBlanks)).2
    | command args => exact (hk.holds.next (.command args)).2
  · cases e with
    | input stdin =>
      unfold Log.react
      simp only
      split
      · exact hk.loaded
      · exact .inl (hk.holds.next (.add (Line.read stdin).skipBlanks)).1
    | command args => exact .inl (hk.holds.next (.command args)).1

theorem Log.Keeps.run {log : Log} (hk : log.Keeps h) (events : List LogEvent) :
    (events.foldl Log.react log).Keeps (events.foldl History.react h) := by
  induction events generalizing log h with
  | nil => exact hk
  | cons e events ih => exact ih (hk.react e)

theorem boot_keeps (file : Option Text) : (Log.boot file).Keeps (OsNetworks.Shell.loaded file) :=
  ⟨⟨(boot_load file).1, (boot_load file).2⟩, unbroken_loaded file, .inr rfl⟩

/-- The entries in use, loaded or not, are whole lines, at most 15. -/
theorem Log.Keeps.contents {log : Log} (hk : log.Keeps h) :
    History.Unbroken log.ring.contents ∧ log.ring.contents.length ≤ maxLogEntries := by
  rcases hk.loaded with hl | hl
  · have hload : log.load = log := Log.load_of_loaded hl
    have htidy := hk.holds.tidy
    have hcontents := hk.holds.contents
    rw [hload] at htidy hcontents
    exact ⟨hcontents ▸ hk.unbroken, by rw [Ring.length_contents]; exact htidy.count_le⟩
  · rw [hl]
    exact ⟨fun _ hline => (List.not_mem_nil hline).elim, Nat.zero_le _⟩

end

/-! ## Writing and reading back -/

/-- The line and its newline are read at once. -/
def Line.isShort (line : Line) : Bool := line.bytes.length < maxInputLen - 1

/-- What `load_log` makes of a line of the file. -/
def Line.pieces (line : Line) : List Line := if line.isShort then [line] else [line, .empty]

theorem getLine_full {line : Text} (h : newline ∉ line) (rest : Text) :
    getLine line.length (line ++ rest) = (line, rest) := by
  induction line with
  | nil => rfl
  | cons c line ih =>
    have hc : c ≠ newline := fun hc => h (hc ▸ List.mem_cons_self)
    rw [List.length_cons, List.cons_append, getLine, if_neg hc, ih fun hm => h (List.mem_cons_of_mem _ hm)]

theorem Line.length_long {line : Line} (h : line.isShort = false) : line.bytes.length = maxInputLen - 1 := by
  have hfits := line.fits
  have hlong := of_decide_eq_false h
  omega

/-- A line that leaves no room for its newline. -/
theorem read_long {line : Line} (h : newline ∉ line.bytes) (hlong : line.isShort = false) (rest : Text) :
    Line.read (line.bytes ++ newline :: rest) = line ∧
      fgets (line.bytes ++ newline :: rest) = some (line.bytes, newline :: rest) := by
  have hget := getLine_full h (newline :: rest)
  rw [line.length_long hlong] at hget
  constructor
  · ext1
    show chomp (cstring (getLine _ _).1) = _
    rw [hget, cstring_of_noNul line.noNul, chomp_of_not_mem h]
  · rw [fgets, if_neg (by simp), hget]

theorem readLines_cons {line : Line} (h : newline ∉ line.bytes) (room : Nat) (rest : Text) :
    readLines (room + 1) (line.bytes ++ newline :: rest) =
      if line.isShort then line :: readLines room rest else line :: readLines room (newline :: rest) := by
  split
  next hs =>
    have hentry : (FileLine.mk line.bytes h (of_decide_eq_true hs)).entry = line := by
      ext1
      exact cstring_of_noNul line.noNul
    have hread := readLines_line ⟨line.bytes, h, of_decide_eq_true hs⟩ room rest
    rwa [hentry] at hread
  next hs =>
    obtain ⟨hread, hgets⟩ := read_long h (Bool.eq_false_iff.mpr hs) rest
    rw [readLines, hgets, hread]

theorem readLines_empty (room : Nat) (rest : Text) :
    readLines (room + 1) (newline :: rest) = .empty :: readLines room rest :=
  readLines_line ⟨[], by simp, by decide⟩ room rest

/-- A line of the file comes back as its pieces, as far as there is room. -/
theorem readLines_fileText {h : History} (hu : h.Unbroken) (room : Nat) :
    readLines room (fileText h) = (h.flatMap Line.pieces).take room := by
  induction h generalizing room with
  | nil => cases room <;> rfl
  | cons line h ih =>
    have hline : newline ∉ line.bytes := hu line List.mem_cons_self
    have hrest : History.Unbroken h := fun l hl => hu l (List.mem_cons_of_mem _ hl)
    cases room with
    | zero => rfl
    | succ room =>
      have htext : fileText (line :: h) = line.bytes ++ newline :: fileText h := by simp [fileText]
      rw [htext, readLines_cons hline, List.flatMap_cons, Line.pieces]
      split
      · rw [ih hrest]
        rfl
      · cases room with
        | zero => rfl
        | succ room =>
          rw [readLines_empty, ih hrest]
          rfl

/-! ## When nothing changes -/

/-- No entry has 4095 bytes; or the log is full, and every entry after the first that has so many
is empty. -/
def History.Survives (h : History) : Prop :=
  h.dropWhile Line.isShort = [] ∨
    h.length = maxLogEntries ∧ ∀ line ∈ (h.dropWhile Line.isShort).tail, line = Line.empty

instance (h : History) : Decidable h.Survives := inferInstanceAs (Decidable (_ ∨ _))

theorem flatMap_pieces_short {h : History} (hs : ∀ line ∈ h, line.isShort = true) : h.flatMap Line.pieces = h := by
  induction h with
  | nil => rfl
  | cons line h ih =>
    rw [List.flatMap_cons, Line.pieces, if_pos (hs line List.mem_cons_self),
      ih fun l hl => hs l (List.mem_cons_of_mem _ hl)]
    rfl

/-- An empty line in front pushes the last one out, and that is no change if all are empty. -/
theorem shifted_iff (h : History) :
    (Line.empty :: h.flatMap Line.pieces).take h.length = h ↔ ∀ line ∈ h, line = Line.empty := by
  induction h with
  | nil => simp
  | cons line h ih =>
    rw [List.length_cons, List.take_succ_cons, List.flatMap_cons]
    constructor
    · intro heq
      obtain ⟨rfl, heq⟩ := List.cons.inj heq
      intro l hl
      rcases List.mem_cons.mp hl with rfl | hl
      · rfl
      · exact ih.mp heq l hl
    · intro hall
      obtain rfl : line = Line.empty := hall line List.mem_cons_self
      exact congrArg _ (ih.mpr fun l hl => hall l (List.mem_cons_of_mem _ hl))

theorem length_le_pieces (h : History) : h.length ≤ (h.flatMap Line.pieces).length := by
  induction h with
  | nil => exact Nat.le_refl 0
  | cons line h ih =>
    have hpos : 1 ≤ line.pieces.length := by
      unfold Line.pieces
      split <;> simp
    rw [List.flatMap_cons, List.length_append, List.length_cons]
    omega

/-- With a long entry in it the history grows, and only a full one can stay as it is. -/
theorem take_pieces_long {short after : History} {long : Line} (hshort : ∀ line ∈ short, line.isShort = true)
    (hlong : long.isShort = false) (hlen : (short ++ long :: after).length ≤ maxLogEntries) :
    ((short ++ long :: after).flatMap Line.pieces).take maxLogEntries = short ++ long :: after ↔
      (short ++ long :: after).length = maxLogEntries ∧ ∀ line ∈ after, line = Line.empty := by
  have hpieces : (short ++ long :: after).flatMap Line.pieces =
      short ++ long :: (Line.empty :: after.flatMap Line.pieces) := by
    rw [List.flatMap_append, flatMap_pieces_short hshort, List.flatMap_cons, Line.pieces, if_neg (by simp [hlong])]
    rfl
  have hcount : (short ++ long :: after).length = short.length + (after.length + 1) := by simp
  rw [hpieces]
  by_cases hfull : (short ++ long :: after).length = maxLogEntries
  · have hroom : maxLogEntries = short.length + (after.length + 1) := hfull.symm.trans hcount
    rw [hroom, List.take_length_add_append, List.take_succ_cons, List.append_cancel_left_eq, List.cons.injEq,
      shifted_iff, and_iff_right rfl, ← hcount, and_iff_right rfl]
  · refine iff_of_false (fun heq => ?_) fun h => hfull h.1
    have hgrow := length_le_pieces after
    have := congrArg List.length heq
    simp only [List.length_take, List.length_append, List.length_cons] at this hlen hfull
    omega

theorem take_pieces_iff {h : History} (hlen : h.length ≤ maxLogEntries) :
    (h.flatMap Line.pieces).take maxLogEntries = h ↔ h.Survives := by
  have hsplit := List.takeWhile_append_dropWhile (p := Line.isShort) (l := h)
  have hshort : ∀ line ∈ h.takeWhile Line.isShort, line.isShort = true := fun l hl =>
    List.all_eq_true.mp List.all_takeWhile l hl
  unfold History.Survives
  cases htail : h.dropWhile Line.isShort with
  | nil =>
    rw [htail, List.append_nil] at hsplit
    rw [hsplit] at hshort
    rw [flatMap_pieces_short hshort]
    exact iff_of_true (List.take_of_length_le hlen) (.inl rfl)
  | cons long after =>
    have hlong : long.isShort = false := by
      have hhead := List.head?_dropWhile_not Line.isShort h
      rwa [htail] at hhead
    rw [htail] at hsplit
    have hiff := take_pieces_long hshort hlong (hsplit ▸ hlen)
    rw [hsplit] at hiff
    rw [hiff]
    simp

/-- **When the log survives a restart.** For every log that any file and any events in the main
loop lead to: a new shell that loads the file `save_log` writes for it finds the same entries if and
only if no entry has 4095 bytes, or the log is full and all entries after the first such one
are empty. -/
theorem reload_iff (file : Option Text) (events : List LogEvent) :
    let log := events.foldl Log.react (.boot file)
    (Log.boot (saveLog log).file).load.ring.contents = log.ring.contents ↔ History.Survives log.ring.contents := by
  intro log
  obtain ⟨hunbroken, hlen⟩ := ((boot_keeps file).run events).contents
  rw [(boot_load (saveLog log).file).2]
  show readLines maxLogEntries (fileText log.ring.contents) = _ ↔ _
  rw [readLines_fileText hunbroken]
  exact take_pieces_iff hlen

/-! ## The longest lines -/

section
variable {line : Line}

theorem Log.react_input {log : Log} {stdin : Text} (hread : (Line.read stdin).skipBlanks = line)
    (hi : isIgnored line.bytes = false) : log.react (.input stdin) = log.next (.add line) := by
  unfold Log.react
  simp only [hread, hi, Bool.false_eq_true, if_false]
  rfl

/-- The first line that a shell without a log enters. -/
theorem contents_first (hlog : isLogCommand line.bytes = false) :
    ((Log.boot none).next (.add line)).ring.contents = [line] := by
  obtain ⟨hloaded, hholds⟩ := (boot_keeps none).holds.next (.add line)
  have henters : History.Enters (loaded none) line := ⟨hlog, by simp [loaded]⟩
  have hadd := hholds.contents
  rw [Log.load_of_loaded hloaded] at hadd
  exact hadd.trans (if_pos henters)

/-- Of a long line alone two entries come back. -/
theorem reload_long {log : Log} (hcontents : log.ring.contents = [line]) (hline : newline ∉ line.bytes)
    (hlong : line.isShort = false) : (Log.boot (saveLog log).file).load.ring.contents = [line, .empty] := by
  rw [(boot_load (saveLog log).file).2]
  show readLines maxLogEntries (fileText log.ring.contents) = _
  rw [hcontents, readLines_fileText (fun l hl => List.mem_singleton.mp hl ▸ hline), List.flatMap_singleton,
    Line.pieces, hlong]
  rfl

end

/-- The letter `a`, `n` times. -/
def letters (n : Nat) (h : n < maxInputLen) : Line where
  bytes := List.replicate n 97
  noNul hz := by cases List.eq_of_mem_replicate hz
  fits := by rwa [List.length_replicate]

section
variable {n : Nat} (h : n < maxInputLen)

theorem newline_not_mem_letters : newline ∉ (letters n h).bytes := fun hz => by cases List.eq_of_mem_replicate hz

theorem skipBlanks_letters : (letters n h).skipBlanks = letters n h := by
  ext1
  show (List.replicate n 97).dropWhile isBlank = List.replicate n 97
  cases n with
  | zero => rfl
  | succ n => rw [List.replicate_succ, List.dropWhile_cons_of_neg (by decide)]

theorem isLogCommand_letters : isLogCommand (letters n h).bytes = false := by
  have hskip : (letters n h).bytes.dropWhile isBlank = List.replicate n 97 :=
    congrArg (fun line : Line => line.bytes) (skipBlanks_letters h)
  rw [isLogCommand, hskip]
  cases n <;> simp [List.replicate_succ]

theorem isIgnored_letters (hn : 0 < n) : isIgnored (letters n h).bytes = false := by
  obtain ⟨n, rfl⟩ : ∃ m, n = m + 1 := ⟨n - 1, by omega⟩
  rfl

theorem isShort_letters (hn : n = maxInputLen - 1) : (letters n h).isShort = false :=
  decide_eq_false (by rw [letters, List.length_replicate]; omega)

end

/-- Typed into a shell without a log, 4095 letters come back as two entries. -/
theorem long_entry_splits :
    let line := letters (maxInputLen - 1) (by decide)
    let log := (Log.boot none).react (.input (line.bytes ++ [newline]))
    log.ring.contents = [line] ∧ (Log.boot (saveLog log).file).load.ring.contents = [line, .empty] ∧
      (Log.boot (saveLog log).file).load.ring.contents ≠ log.ring.contents := by
  intro line log
  have hlong := isShort_letters (n := maxInputLen - 1) (by decide) rfl
  have hread := congrArg Line.skipBlanks (read_long (newline_not_mem_letters _) hlong []).1
  have hcontents : log.ring.contents = [line] := by
    have hnext : log = (Log.boot none).next (.add line) :=
      Log.react_input (hread.trans (skipBlanks_letters _)) (isIgnored_letters _ (by decide))
    rw [hnext]
    exact contents_first (isLogCommand_letters _)
  have hreload := reload_long hcontents (newline_not_mem_letters _) hlong
  refine ⟨hcontents, hreload, fun heq => ?_⟩
  rw [hcontents, hreload] at heq
  exact absurd (congrArg List.length heq) (by decide)

end OsNetworks.Shell
