/-
The syntax checker of `parser.c`: each function takes the rest of the input and
gives what it leaves unread, or `none` where the C function returns NULL.
-/
import OsNetworks.Shell.Bytes

namespace OsNetworks.Shell

def skipWhitespace (str : Text) : Text := str.dropWhile isspace

/-- `input++; input = skip_whitespace(input);` -/
def skipChar (input : Text) : Text := skipWhitespace input.tail

/-- The name and what follows it. -/
def parseName (input : Text) : Option (Text × Text) :=
  if input.takeWhile isNameChar = [] then none
  else some (input.takeWhile isNameChar, input.dropWhile isNameChar)

def parseInputRedir (input : Text) : Option (Text × Text) :=
  if peek input ≠ less then none else parseName (skipChar input)

/-- The file name and what follows it, and whether the file is appended to. -/
def parseOutputRedir (input : Text) : Option ((Text × Text) × Bool) :=
  if peek input ≠ greater then none
  else if peek input.tail = greater then (parseName (skipChar input.tail)).map (·, true)
  else (parseName (skipChar input)).map (·, false)

/-- The body of the loop in `parse_atomic`: an input redirection, an output redirection or
an argument, tried in this order. -/
def parsePart (input : Text) : Option Text :=
  match parseInputRedir input with
  | some (_, next) => some next
  | none =>
    match parseOutputRedir input with
    | some ((_, next), _) => some next
    | none => (parseName input).map (·.2)

/-! ## Each part is shorter than the input -/

theorem length_skipWhitespace (str : Text) : (skipWhitespace str).length ≤ str.length :=
  (List.dropWhile_sublist isspace).length_le

theorem length_skipChar (input : Text) : (skipChar input).length ≤ input.length - 1 := by
  have := length_skipWhitespace input.tail
  rw [List.length_tail] at this
  exact this

theorem length_parseName {input name next : Text} (h : parseName input = some (name, next)) :
    next.length < input.length := by
  unfold parseName at h
  split at h
  · cases h
  next hne =>
    cases h
    have hlen := congrArg List.length (List.takeWhile_append_dropWhile (p := isNameChar) (l := input))
    rw [List.length_append] at hlen
    have := List.length_pos_iff.mpr hne
    omega

theorem length_parsePart {input next : Text} (h : parsePart input = some next) : next.length < input.length := by
  have hc := length_skipChar input
  have hc' := length_skipChar input.tail
  rw [List.length_tail] at hc'
  unfold parsePart at h
  split at h
  next hi =>
    cases h
    unfold parseInputRedir at hi
    split at hi
    · cases hi
    · have := length_parseName hi
      omega
  · split at h
    next ho =>
      cases h
      unfold parseOutputRedir at ho
      split at ho
      · cases ho
      split at ho
      all_goals
        simp only [Option.map_eq_some_iff, Prod.mk.injEq, Prod.exists] at ho
        obtain ⟨_, _, hn, ⟨rfl, rfl⟩, -⟩ := ho
        have := length_parseName hn
        omega
    · obtain ⟨⟨_, _⟩, hn, rfl⟩ := Option.map_eq_some_iff.mp h
      exact length_parseName hn

/-! ## The levels of the grammar -/

def parseAtomicLoop (input : Text) : Option Text :=
  if endsAtomic (peek (skipWhitespace input)) then some (skipWhitespace input)
  else
    match _h : parsePart (skipWhitespace input) with
    | none => none
    | some next => parseAtomicLoop next
termination_by input.length
decreasing_by exact Nat.lt_of_lt_of_le (length_parsePart _h) (length_skipWhitespace input)

theorem parseAtomicLoop_part {input next : Text} (h : endsAtomic (peek (skipWhitespace input)) = false)
    (hp : parsePart (skipWhitespace input) = some next) : parseAtomicLoop input = parseAtomicLoop next := by
  rw [parseAtomicLoop, if_neg (by simp [h])]
  split
  next hn =>
    rw [hp] at hn
    cases hn
  next hn =>
    rw [hp] at hn
    cases hn
    rfl

def parseAtomic (input : Text) : Option Text :=
  match parseName (skipWhitespace input) with
  | none => none
  | some (_, next) => parseAtomicLoop next

theorem length_parseAtomicLoop {input next : Text} (h : parseAtomicLoop input = some next) :
    next.length ≤ input.length := by
  fun_induction parseAtomicLoop input with
  | case1 input =>
    cases h
    exact length_skipWhitespace input
  | case2 => cases h
  | case3 input _ _ hp ih =>
    have := ih h
    have := length_parsePart hp
    have := length_skipWhitespace input
    omega

theorem length_parseAtomic {input next : Text} (h : parseAtomic input = some next) :
    next.length < input.length := by
  unfold parseAtomic at h
  split at h
  · cases h
  next hn =>
    have := length_parseName hn
    have := length_parseAtomicLoop h
    have := length_skipWhitespace input
    omega

def parseCmdGroupLoop (input : Text) : Option Text :=
  if peek (skipWhitespace input) ≠ bar then some (skipWhitespace input)
  else
    match _h : parseAtomic (skipChar (skipWhitespace input)) with
    | none => none
    | some next => parseCmdGroupLoop next
termination_by input.length
decreasing_by
  have := length_parseAtomic _h
  have := length_skipChar (skipWhitespace input)
  have := length_skipWhitespace input
  omega

theorem parseCmdGroupLoop_bar {input : Text} (next : Text) (h : peek (skipWhitespace input) = bar)
    (hp : parseAtomic (skipChar (skipWhitespace input)) = some next) :
    parseCmdGroupLoop input = parseCmdGroupLoop next := by
  rw [parseCmdGroupLoop, if_neg (fun hne => hne h)]
  split
  next hn =>
    rw [hp] at hn
    cases hn
  next hn =>
    rw [hp] at hn
    cases hn
    rfl

def parseCmdGroup (input : Text) : Option Text :=
  match parseAtomic (skipWhitespace input) with
  | none => none
  | some next => parseCmdGroupLoop next

theorem length_parseCmdGroupLoop {input next : Text} (h : parseCmdGroupLoop input = some next) :
    next.length ≤ input.length := by
  fun_induction parseCmdGroupLoop input with
  | case1 input =>
    cases h
    exact length_skipWhitespace input
  | case2 => cases h
  | case3 input _ _ hp ih =>
    have := ih h
    have := length_parseAtomic hp
    have := length_skipChar (skipWhitespace input)
    have := length_skipWhitespace input
    omega

theorem length_parseCmdGroup {input next : Text} (h : parseCmdGroup input = some next) :
    next.length < input.length := by
  unfold parseCmdGroup at h
  split at h
  · cases h
  next hn =>
    have := length_parseAtomic hn
    have := length_parseCmdGroupLoop h
    have := length_skipWhitespace input
    omega

/-- The loop of `parse_input`. It stops at the end of the input only, so the test that
follows it succeeds. -/
def parseInputLoop (input : Text) : Bool :=
  if peek (skipWhitespace input) = 0 then true
  else if peek (skipWhitespace input) = amp then
    if peek (skipChar (skipWhitespace input)) = 0 then true
    else
      match _h : parseCmdGroup (skipChar (skipWhitespace input)) with
      | none => false
      | some next => parseInputLoop next
  else if peek (skipWhitespace input) = semi then
    match _h : parseCmdGroup (skipChar (skipWhitespace input)) with
    | none => false
    | some next => parseInputLoop next
  else false
termination_by input.length
decreasing_by
  all_goals
    have := length_parseCmdGroup _h
    have := length_skipChar (skipWhitespace input)
    have := length_skipWhitespace input
    omega

/-- A round of the loop that finds another group. -/
theorem parseInputLoop_group {input : Text} (next : Text)
    (h : peek (skipWhitespace input) = amp ∧ peek (skipChar (skipWhitespace input)) ≠ 0 ∨
      peek (skipWhitespace input) = semi)
    (hp : parseCmdGroup (skipChar (skipWhitespace input)) = some next) :
    parseInputLoop input = parseInputLoop next := by
  rw [parseInputLoop]
  have hmatch : (match _h : parseCmdGroup (skipChar (skipWhitespace input)) with
      | none => false
      | some next => parseInputLoop next) = parseInputLoop next := by
    split
    next hn =>
      rw [hp] at hn
      cases hn
    next hn =>
      rw [hp] at hn
      cases hn
      rfl
  rcases h with ⟨ha, hne⟩ | hs
  · rw [if_neg (by rw [ha]; decide), if_pos ha, if_neg hne, hmatch]
  · rw [if_neg (by rw [hs]; decide), if_neg (by rw [hs]; decide), if_pos hs, hmatch]

/-- Whether `input` is a command line of the grammar. `*cmd` is set to NULL in any case. -/
def parseInput (input : Text) : Bool :=
  if peek (skipWhitespace input) = 0 then true
  else
    match parseCmdGroup (skipWhitespace input) with
    | none => false
    | some next => parseInputLoop next

end OsNetworks.Shell
