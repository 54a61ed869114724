/-
The grammar of command lines, as the comments of `parser.c` give it:

  shell_cmd = cmd_group ((& | ;) cmd_group)* &?
  cmd_group = atomic (| atomic)*
  atomic    = name (name | input | output)*
  input     = < name
  output    = (> | >>) name

A derivation is a tree with the blanks between its tokens, and `text` is the
line it derives. The blanks may be empty, except before a name that follows a
name; so a name is a maximal run of its characters.
-/
import OsNetworks.Shell.Bytes

namespace OsNetworks.Shell

structure Name where
  text : Text
  ne : text ≠ []
  chars : ∀ c ∈ text, isNameChar c = true

structure Blank where
  text : Text
  spaces : ∀ c ∈ text, isspace c = true

/-- The blank between two names. -/
structure Gap extends Blank where
  ne : text ≠ []

/-- What may follow the first name of a command: an argument, or a redirection. Each of
them ends in a name, so what stands before an argument is a gap. -/
inductive Part
  | name (gap : Gap) (name : Name)
  | input (before after : Blank) (name : Name)
  | output (before : Blank) (append : Bool) (after : Blank) (name : Name)

structure Atomic where
  before : Blank
  name : Name
  parts : List Part
  after : Blank

structure CmdGroup where
  first : Atomic
  rest : List Atomic

/-- `;` or `&` between two groups. -/
inductive Separator
  | semi
  | amp
  deriving DecidableEq, Repr

structure ShellCmd where
  first : CmdGroup
  rest : List (Separator × CmdGroup)
  /-- the blank after a trailing `&` -/
  trailing : Option Blank

/-! ## The text derived -/

def Part.text : Part → Text
  | .name gap n => gap.text ++ n.text
  | .input before after n => before.text ++ less :: (after.text ++ n.text)
  | .output before append after n =>
    before.text ++ greater :: ((if append then [greater] else []) ++ (after.text ++ n.text))

def Atomic.text (a : Atomic) : Text :=
  a.before.text ++ (a.name.text ++ (a.parts.flatMap Part.text ++ a.after.text))

def CmdGroup.text (g : CmdGroup) : Text := g.first.text ++ g.rest.flatMap fun a => bar :: a.text

def Separator.char : Separator → UInt8
  | .semi => Shell.semi
  | .amp => Shell.amp

def trailingText : Option Blank → Text
  | none => []
  | some blank => amp :: blank.text

/-- What follows the first group of a line. -/
def tailText (rest : List (Separator × CmdGroup)) (trailing : Option Blank) : Text :=
  rest.flatMap (fun sg => sg.1.char :: sg.2.text) ++ trailingText trailing

def ShellCmd.text (d : ShellCmd) : Text := d.first.text ++ tailText d.rest d.trailing

/-! ## Where tokens start -/

section
variable {r : Text}

theorem Name.peek_append (n : Name) (r : Text) : peek (n.text ++ r) = peek n.text :=
  Shell.peek_append n.ne r

theorem Name.peek_nameChar (n : Name) : isNameChar (peek n.text) = true := n.chars _ (peek_mem n.ne)

/-- A blank ends a name. -/
theorem Blank.stop (b : Blank) (h : isNameChar (peek r) = false) : isNameChar (peek (b.text ++ r)) = false := by
  by_cases hb : b.text = []
  · rw [hb]
    exact h
  · rw [Shell.peek_append hb]
    exact not_nameChar_of_space (b.spaces _ (peek_mem hb))

/-- A part starts with a blank or with a redirection. -/
theorem Part.peek_text (p : Part) (r : Text) :
    isspace (peek (p.text ++ r)) = true ∨ peek (p.text ++ r) = less ∨ peek (p.text ++ r) = greater := by
  have before : ∀ (b : Blank) (c : UInt8) (x : Text),
      isspace (peek (b.text ++ c :: x)) = true ∨ peek (b.text ++ c :: x) = c := by
    intro b c x
    by_cases hb : b.text = []
    · exact .inr (by rw [hb]; rfl)
    · rw [Shell.peek_append hb]
      exact .inl (b.spaces _ (peek_mem hb))
  cases p with
  | name gap n =>
    simp only [Part.text, List.append_assoc]
    rw [Shell.peek_append gap.ne]
    exact .inl (gap.spaces _ (peek_mem gap.ne))
  | input b after n =>
    simp only [Part.text, List.append_assoc, List.cons_append]
    rcases before b less (after.text ++ (n.text ++ r)) with h | h
    · exact .inl h
    · exact .inr (.inl h)
  | output b append after n =>
    simp only [Part.text, List.append_assoc, List.cons_append]
    rcases before b greater ((if append then [greater] else []) ++ (after.text ++ (n.text ++ r))) with h | h
    · exact .inl h
    · exact .inr (.inr h)

/-- A part ends the name before it. -/
theorem Part.stop (p : Part) (r : Text) : isNameChar (peek (p.text ++ r)) = false := by
  rcases p.peek_text r with h | h | h
  · exact not_nameChar_of_space h
  · rw [h]
    decide
  · rw [h]
    decide

theorem Part.stops (ps : List Part) (h : isNameChar (peek r) = false) :
    isNameChar (peek (ps.flatMap Part.text ++ r)) = false := by
  cases ps with
  | nil => exact h
  | cons p ps =>
    rw [List.flatMap_cons, List.append_assoc]
    exact p.stop _

end

/-! ## Characters of a command -/

theorem Blank.not_ends (b : Blank) {c : UInt8} (h : c ∈ b.text) : endsAtomic c = false := by
  cases he : endsAtomic c with
  | false => rfl
  | true => exact absurd (b.spaces c h) (by simp [not_space_of_endsAtomic he])

theorem Name.not_ends (n : Name) {c : UInt8} (h : c ∈ n.text) : endsAtomic c = false := by
  cases he : endsAtomic c with
  | false => rfl
  | true => exact absurd (n.chars c h) (by simp [not_nameChar_of_endsAtomic he])

theorem Part.not_ends (p : Part) {c : UInt8} (h : c ∈ p.text) : endsAtomic c = false := by
  cases p with
  | name gap n =>
    simp only [Part.text, List.mem_append] at h
    rcases h with h | h
    · exact gap.toBlank.not_ends h
    · exact n.not_ends h
  | input before after n =>
    simp only [Part.text, List.mem_append, List.mem_cons] at h
    rcases h with h | rfl | h | h
    · exact before.not_ends h
    · decide
    · exact after.not_ends h
    · exact n.not_ends h
  | output before append after n =>
    simp only [Part.text, List.mem_append, List.mem_cons, List.mem_ite_nil_right, List.not_mem_nil, or_false] at h
    rcases h with h | rfl | ⟨-, rfl⟩ | h | h
    · exact before.not_ends h
    · decide
    · decide
    · exact after.not_ends h
    · exact n.not_ends h

theorem Atomic.not_ends (a : Atomic) {c : UInt8} (h : c ∈ a.text) : endsAtomic c = false := by
  simp only [Atomic.text, List.mem_append, List.mem_flatMap] at h
  rcases h with h | h | ⟨p, -, h⟩ | h
  · exact a.before.not_ends h
  · exact a.name.not_ends h
  · exact p.not_ends h
  · exact a.after.not_ends h

theorem CmdGroup.not_ends (g : CmdGroup) {c : UInt8} (h : c ∈ g.text) : endsGroup c = false := by
  simp only [CmdGroup.text, List.mem_append, List.mem_flatMap, List.mem_cons] at h
  rcases h with h | ⟨a, -, rfl | h⟩
  · exact not_endsGroup_of_not_endsAtomic (g.first.not_ends h)
  · decide
  · exact not_endsGroup_of_not_endsAtomic (a.not_ends h)

theorem tailText_noNul (rest : List (Separator × CmdGroup)) (trailing : Option Blank) :
    0 ∉ tailText rest trailing := by
  intro h
  rcases List.mem_append.mp h with h | h
  · obtain ⟨⟨sep, g⟩, -, h⟩ := List.mem_flatMap.mp h
    rcases List.mem_cons.mp h with h | h
    · cases sep <;> cases h
    · exact absurd (g.not_ends h) (by decide)
  · cases trailing with
    | none => cases h
    | some b =>
      rcases List.mem_cons.mp h with h | h
      · cases h
      · exact absurd (b.not_ends h) (by decide)

/-- The line as a string. -/
def ShellCmd.string (d : ShellCmd) : CString where
  bytes := d.text
  noNul := fun h => (List.mem_append.mp h).elim (fun h => absurd (d.first.not_ends h) (by decide))
    (tailText_noNul d.rest d.trailing)

/-! ## Groups, stages and names -/

def CmdGroup.stages (g : CmdGroup) : List Atomic := g.first :: g.rest

/-- The groups from `g` on; one is in background if `&` follows it. -/
def flagged : CmdGroup → List (Separator × CmdGroup) → Option Blank → List (CmdGroup × Bool)
  | g, [], trailing => [(g, trailing.isSome)]
  | g, (sep, g') :: rest, trailing => (g, sep = .amp) :: flagged g' rest trailing

/-- The groups of a line, with their background flags. -/
def ShellCmd.groups (d : ShellCmd) : List (CmdGroup × Bool) := flagged d.first d.rest d.trailing

def Part.argument : Part → Option Text
  | .name _ n => some n.text
  | _ => none

def Part.inputFile : Part → Option Text
  | .input _ _ n => some n.text
  | _ => none

/-- The file of an output redirection, and whether it is appended to. -/
def Part.outputFile : Part → Option (Text × Bool)
  | .output _ append _ n => some (n.text, append)
  | _ => none

/-- The command name and the arguments. -/
def Atomic.names (a : Atomic) : List Text := a.name.text :: a.parts.filterMap Part.argument

/-- The text of a command without the blanks around it. -/
def Atomic.core (a : Atomic) : Text := a.name.text ++ a.parts.flatMap Part.text

theorem Atomic.text_eq_core (a : Atomic) : a.text = a.before.text ++ (a.core ++ a.after.text) := by
  simp [Atomic.text, Atomic.core]

/-- The text of a command ends in a name, up to the blank after it. -/
theorem Atomic.core_ends (a : Atomic) : ∃ (t : Text) (n : Name), a.core = t ++ n.text := by
  rcases List.eq_nil_or_concat a.parts with hp | ⟨ps, p, hp⟩
  · exact ⟨[], a.name, by simp [Atomic.core, hp]⟩
  · have hend : ∃ (t : Text) (n : Name), p.text = t ++ n.text := by
      cases p with
      | name gap n => exact ⟨gap.text, n, rfl⟩
      | input before after n => exact ⟨before.text ++ less :: after.text, n, by simp [Part.text]⟩
      | output before append after n =>
        exact ⟨before.text ++ greater :: ((if append then [greater] else []) ++ after.text), n, by simp [Part.text]⟩
    obtain ⟨t, n, hn⟩ := hend
    exact ⟨a.name.text ++ (ps.flatMap Part.text ++ t), n, by simp [Atomic.core, hp, hn]⟩

/-! ## Lengths -/

theorem CmdGroup.length_stage (g : CmdGroup) {a : Atomic} (h : a ∈ g.stages) : a.text.length ≤ g.text.length := by
  rw [CmdGroup.text, List.length_append]
  rcases List.mem_cons.mp h with rfl | hr
  · omega
  · have hsub : a.text.Sublist (g.rest.flatMap fun a => bar :: a.text) := by
      refine List.Sublist.trans (List.sublist_cons_self bar a.text) ?_
      rw [List.flatMap_def]
      exact List.sublist_flatten_of_mem (List.mem_map.mpr ⟨a, hr, rfl⟩)
    have := hsub.length_le
    omega

theorem length_flagged_group {g' : CmdGroup} {b : Bool} : ∀ {g : CmdGroup} {rest : List (Separator × CmdGroup)}
    {trailing : Option Blank}, (g', b) ∈ flagged g rest trailing →
    g'.text.length ≤ (g.text ++ tailText rest trailing).length
  | g, [], trailing, h => by
    obtain ⟨rfl, -⟩ : g' = g ∧ b = trailing.isSome := by simpa [flagged] using h
    simp
  | g, (sep, k) :: rest, trailing, h => by
    rcases List.mem_cons.mp h with he | ht
    · cases he
      simp
    · have := length_flagged_group ht
      have heq : tailText ((sep, k) :: rest) trailing = sep.char :: (k.text ++ tailText rest trailing) := by
        simp [tailText]
      rw [List.length_append, heq, List.length_cons]
      omega

theorem ShellCmd.length_group (d : ShellCmd) {gb : CmdGroup × Bool} (h : gb ∈ d.groups) :
    gb.1.text.length ≤ d.text.length := length_flagged_group h

end OsNetworks.Shell
