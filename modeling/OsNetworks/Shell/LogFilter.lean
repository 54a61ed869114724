/-
The filter that keeps the command `log` out of the log, beside the parser's
notion of the first name of a line: the two stop at different characters.
-/
import OsNetworks.Shell.Log
import OsNetworks.Shell.Recogniser
import OsNetworks.Shell.Splitting

namespace OsNetworks.Shell

/-- The first name of a line, as `parse_name` reads it after the whitespace. -/
def firstName (line : Text) : Option Text := (parseName (skipWhitespace line)).map Prod.fst

/-- `log_add_command` does not store the line, whatever the log holds. -/
def Refused (line : Line) : Prop := ∀ log, logAddCommand log line = log.load

/-- The line is refused exactly if its first command is `log`. -/
def FiltersLog (line : Line) : Prop := Refused line ↔ firstName line.bytes = some logWord

/-- Only blanks and tabs come before the first name, and after it the line ends, or a blank or a tab
follows. -/
def Spaced (line : Text) : Prop :=
  (∀ c ∈ line.takeWhile isspace, isBlank c = true) ∧
    (peek ((skipWhitespace line).dropWhile isNameChar) = 0 ∨
      isBlank (peek ((skipWhitespace line).dropWhile isNameChar)) = true)

/-- A line is refused for its first word alone. -/
theorem refused_iff (line : Line) : Refused line ↔ isLogCommand line.bytes = true := by
  constructor
  · intro h
    have hboot := h (Log.boot none)
    cases hlog : isLogCommand line.bytes with
    | true => rfl
    | false =>
      -- an empty log has no last entry to compare with
      rw [logAddCommand, hlog] at hboot
      have hfile := congrArg Log.file hboot
      cases hfile
  · intro h log
    rw [logAddCommand, if_pos h]

theorem isspace_of_isBlank {c : UInt8} (h : isBlank c = true) : isspace c = true := by
  simp only [isBlank, Bool.or_eq_true, decide_eq_true_eq] at h
  rcases h with rfl | rfl <;> decide

/-- A blank or a tab ends a name. -/
theorem not_nameChar_of_blank {c : UInt8} (h : c = 0 ∨ isBlank c = true) : isNameChar c = false := by
  rcases h with rfl | h
  · decide
  · exact not_nameChar_of_space (isspace_of_isBlank h)

theorem logWord_ne_nil : logWord ≠ [] := List.cons_ne_nil _ _

theorem logWord_isName : ∀ c ∈ logWord, isNameChar c = true := List.all_eq_true.mp (by decide)

theorem firstName_iff (line : Text) :
    firstName line = some logWord ↔ (skipWhitespace line).takeWhile isNameChar = logWord := by
  unfold firstName parseName
  split
  next hnil => simp [hnil, logWord]
  next => simp

/-- The test of the filter, on what it has skipped to. -/
theorem isLogCommand_iff (line : Text) :
    isLogCommand line = true ↔ ∃ rest, line.dropWhile isBlank = logWord ++ rest ∧
      (peek rest = 0 ∨ isBlank (peek rest) = true) := by
  have hbyte (rest : Text) : byteAt (logWord ++ rest) 3 = peek rest := by
    cases rest <;> rfl
  have htest (rest : Text) : (byteAt (logWord ++ rest) 3 = 0 || byteAt (logWord ++ rest) 3 = 32 ||
      byteAt (logWord ++ rest) 3 = 9) = true ↔ peek rest = 0 ∨ isBlank (peek rest) = true := by
    simp [hbyte, isBlank, or_assoc]
  constructor
  · intro h
    simp only [isLogCommand, Bool.and_eq_true] at h
    have hsplit : line.dropWhile isBlank = logWord ++ (line.dropWhile isBlank).drop 3 := by
      conv_lhs => rw [← List.take_append_drop 3 (line.dropWhile isBlank), of_decide_eq_true h.1]
      rfl
    have hnext := h.2
    rw [hsplit] at hnext
    exact ⟨_, hsplit, (htest _).1 hnext⟩
  · rintro ⟨rest, hline, hnext⟩
    unfold isLogCommand
    rw [hline, Bool.and_eq_true]
    exact ⟨rfl, (htest rest).2 hnext⟩

/-- The filter takes a line for a `log` command if it is one, and is spaced as the filter expects. -/
theorem isLogCommand_iff_firstName (line : Text) :
    isLogCommand line = true ↔ firstName line = some logWord ∧ Spaced line := by
  rw [isLogCommand_iff, firstName_iff]
  constructor
  · rintro ⟨rest, hline, hnext⟩
    have hsplit : line = line.takeWhile isBlank ++ (logWord ++ rest) := by
      rw [← hline, List.takeWhile_append_dropWhile]
    have hl : isspace (peek (logWord ++ rest)) = false := rfl
    have hspaces : ∀ c ∈ line.takeWhile isBlank, isspace c = true := fun _ hc => isspace_of_isBlank (mem_run hc)
    have hskip : skipWhitespace line = logWord ++ rest := by
      conv_lhs => rw [skipWhitespace, hsplit]
      exact dropWhile_run hspaces (.inr hl)
    have htake : line.takeWhile isspace = line.takeWhile isBlank := by
      conv_lhs => rw [hsplit]
      exact takeWhile_run hspaces (.inr hl)
    have hstop := not_nameChar_of_blank hnext
    refine ⟨?_, ?_, ?_⟩
    · rw [hskip]
      exact takeWhile_run logWord_isName (.inr hstop)
    · rw [htake]
      exact fun _ hc => mem_run hc
    · rw [hskip, dropWhile_run logWord_isName (.inr hstop)]
      exact hnext
  · rintro ⟨hname, hblank, hnext⟩
    refine ⟨(skipWhitespace line).dropWhile isNameChar, ?_, hnext⟩
    rw [← hname, List.takeWhile_append_dropWhile]
    have hl : isBlank (peek (skipWhitespace line)) = false := by
      rw [← List.takeWhile_append_dropWhile (p := isNameChar) (l := skipWhitespace line), hname]
      rfl
    conv_lhs => rw [← List.takeWhile_append_dropWhile (p := isspace) (l := line)]
    exact dropWhile_run hblank (.inr hl)

/-- A line is filtered as it should be exactly if it is spaced so, or is no `log` command. -/
theorem filtersLog_iff (line : Line) :
    FiltersLog line ↔ (firstName line.bytes = some logWord → Spaced line.bytes) := by
  rw [FiltersLog, refused_iff, isLogCommand_iff_firstName]
  constructor
  · intro h hname
    exact (h.2 hname).2
  · intro h
    exact ⟨And.left, fun hname => ⟨hname, h hname⟩⟩

/-- `log;ls` -/
def logThenList : ShellCmd where
  first := ⟨⟨.empty, ⟨logWord, logWord_ne_nil, logWord_isName⟩, [], .empty⟩, []⟩
  rest := [(.semi, ⟨⟨.empty, ⟨[108, 115], List.cons_ne_nil _ _, List.all_eq_true.mp (by decide)⟩, [], .empty⟩, []⟩)]
  trailing := none

/-- The line `log;ls` is accepted, and stored. -/
theorem logThenList_stored :
    parseInput logThenList.text = true ∧ ∃ h, ¬ FiltersLog ⟨logThenList.string, h⟩ := by
  refine ⟨parseInput_complete logThenList, by decide, fun h => ?_⟩
  have hfirst : firstName logThenList.text = some logWord := by decide
  have hlog := (refused_iff _).1 (h.2 hfirst)
  revert hlog
  decide

end OsNetworks.Shell
