/-
`parse_input` accepts exactly the lines of the grammar.

Each function of the recogniser has two lemmas. Completeness: on the text of a
derivation followed by a text its level stops at, it leaves that text. And
soundness: what it consumes is the text of a derivation, and it stops where
its level ends.
-/
import OsNetworks.Shell.Parser
import OsNetworks.Shell.Grammar

namespace OsNetworks.Shell

section
variable {input r : Text}

/-! ## Blanks and names -/

theorem skipWhitespace_blank (b : Blank) (h : isspace (peek r) = false) : skipWhitespace (b.text ++ r) = r :=
  dropWhile_run b.spaces (.inr h)

theorem skipWhitespace_of_not_space (h : isspace (peek r) = false) : skipWhitespace r = r :=
  skipWhitespace_blank ⟨[], by simp⟩ h

theorem not_space_skipWhitespace (input : Text) : isspace (peek (skipWhitespace input)) = false :=
  peek_dropWhile (by decide) input

/-- What `skip_whitespace` passes over. -/
theorem exists_blank (input : Text) : ∃ b : Blank, input = b.text ++ skipWhitespace input :=
  ⟨⟨input.takeWhile isspace, fun _ hc => mem_run hc⟩,
    (List.takeWhile_append_dropWhile).symm⟩

/-- A character and the blank passed over with it. -/
theorem exists_char {c : UInt8} (h : peek input = c) (hc : c ≠ 0) :
    ∃ b : Blank, input = c :: (b.text ++ skipChar input) := by
  obtain ⟨b, hb⟩ := exists_blank input.tail
  refine ⟨b, ?_⟩
  have heq := eq_cons_tail h hc
  rw [hb] at heq
  exact heq

theorem parseName_complete (n : Name) (h : isNameChar (peek r) = false) :
    parseName (n.text ++ r) = some (n.text, r) := by
  unfold parseName
  rw [takeWhile_run n.chars (.inr h), dropWhile_run n.chars (.inr h), if_neg n.ne]

theorem parseName_sound {name : Text} (h : parseName input = some (name, r)) :
    ∃ n : Name, input = n.text ++ r ∧ isNameChar (peek r) = false := by
  unfold parseName at h
  split at h
  · cases h
  next hne =>
    cases h
    exact ⟨⟨_, hne, fun _ hc => mem_run hc⟩,
      List.takeWhile_append_dropWhile.symm, peek_dropWhile (by decide) input⟩

/-! ## Parts of a command -/

theorem parseInputRedir_other (h : peek input ≠ less) : parseInputRedir input = none := if_pos h

theorem parseOutputRedir_other (h : peek input ≠ greater) : parseOutputRedir input = none := if_pos h

theorem skipChar_blank_name (c : UInt8) (b : Blank) (n : Name) :
    skipChar (c :: (b.text ++ (n.text ++ r))) = n.text ++ r :=
  skipWhitespace_blank b (n.peek_append r ▸ not_space_of_nameChar n.peek_nameChar)

theorem parseName_other (h : isNameChar (peek input) = false) : parseName input = none := by
  unfold parseName
  have : input.takeWhile isNameChar = [] := takeWhile_run (w := []) (by simp) (.inr h)
  rw [if_pos this]

/-- No part starts where the loop of `parse_atomic` stops. -/
theorem parsePart_ends (h : endsAtomic (peek input) = true) : parsePart input = none := by
  unfold parsePart
  have hn := parseName_other (not_nameChar_of_endsAtomic h)
  simp only [endsAtomic, Bool.or_eq_true, decide_eq_true_eq] at h
  rw [parseInputRedir_other (fun he => by rw [he] at h; revert h; decide),
    parseOutputRedir_other (fun he => by rw [he] at h; revert h; decide), hn]
  rfl

/-- What follows a single `>` is a blank or a name, so not another one. -/
theorem not_greater_after (after : Blank) (n : Name) (r : Text) : peek (after.text ++ (n.text ++ r)) ≠ greater := by
  intro he
  by_cases hb : after.text = []
  · rw [hb, List.nil_append, n.peek_append] at he
    have := n.peek_nameChar
    rw [he] at this
    cases this
  · rw [peek_append hb] at he
    have := after.spaces _ (peek_mem hb)
    rw [he] at this
    cases this

theorem parsePart_complete (p : Part) (h : isNameChar (peek r) = false) :
    parsePart (skipWhitespace (p.text ++ r)) = some r := by
  unfold parsePart
  cases p with
  | name gap n =>
    have hp := n.peek_nameChar
    rw [← n.peek_append r] at hp
    simp only [Part.text, List.append_assoc]
    rw [skipWhitespace_blank gap.toBlank (not_space_of_nameChar hp),
      parseInputRedir_other (fun he => by rw [he] at hp; cases hp),
      parseOutputRedir_other (fun he => by rw [he] at hp; cases hp), parseName_complete n h]
    rfl
  | input before after n =>
    simp only [Part.text, List.append_assoc, List.cons_append]
    rw [skipWhitespace_blank before rfl]
    simp [parseInputRedir, skipChar_blank_name, parseName_complete n h]
  | output before append after n =>
    simp only [Part.text, List.append_assoc, List.cons_append]
    rw [skipWhitespace_blank before rfl, parseInputRedir_other (by rw [peek_cons]; decide)]
    cases append with
    | true => simp [parseOutputRedir, skipChar_blank_name, parseName_complete n h]
    | false =>
      simp [parseOutputRedir, skipChar_blank_name, parseName_complete n h, not_greater_after after n r]

theorem parseInputRedir_sound (h : (parseInputRedir input).map (·.2) = some r) :
    ∃ (after : Blank) (n : Name), input = less :: (after.text ++ (n.text ++ r)) ∧ isNameChar (peek r) = false := by
  obtain ⟨⟨name, next⟩, hi, rfl⟩ := Option.map_eq_some_iff.mp h
  unfold parseInputRedir at hi
  split at hi
  · cases hi
  next hless =>
    obtain ⟨after, ha⟩ := exists_char (Decidable.not_not.mp hless) (by decide)
    obtain ⟨n, hn, hr⟩ := parseName_sound hi
    rw [hn] at ha
    exact ⟨after, n, ha, hr⟩

theorem parseOutputRedir_sound (h : (parseOutputRedir input).map (·.1.2) = some r) :
    ∃ (append : Bool) (after : Blank) (n : Name),
      input = greater :: ((if append then [greater] else []) ++ (after.text ++ (n.text ++ r))) ∧
        isNameChar (peek r) = false := by
  obtain ⟨⟨⟨name, next⟩, append⟩, ho, rfl⟩ := Option.map_eq_some_iff.mp h
  unfold parseOutputRedir at ho
  split at ho
  · cases ho
  next hgt =>
    have hgt := Decidable.not_not.mp hgt
    split at ho
    next happ =>
      obtain ⟨⟨_, _⟩, hp, he⟩ := Option.map_eq_some_iff.mp ho
      cases he
      obtain ⟨after, ha⟩ := exists_char happ (by decide)
      obtain ⟨n, hn, hr⟩ := parseName_sound hp
      rw [hn] at ha
      have heq := eq_cons_tail hgt (by decide)
      rw [ha] at heq
      exact ⟨true, after, n, heq, hr⟩
    next =>
      obtain ⟨⟨_, _⟩, hp, he⟩ := Option.map_eq_some_iff.mp ho
      cases he
      obtain ⟨after, ha⟩ := exists_char hgt (by decide)
      obtain ⟨n, hn, hr⟩ := parseName_sound hp
      rw [hn] at ha
      exact ⟨false, after, n, ha, hr⟩

/-- What the loop of `parse_atomic` consumes after a name is a part. -/
theorem parsePart_sound (hstop : isNameChar (peek input) = false) (h : parsePart (skipWhitespace input) = some r) :
    ∃ p : Part, input = p.text ++ r ∧ isNameChar (peek r) = false := by
  obtain ⟨before, hb⟩ := exists_blank input
  unfold parsePart at h
  split at h
  next hi =>
    cases h
    obtain ⟨after, n, hn, hr⟩ := parseInputRedir_sound (by rw [hi]; rfl)
    rw [hn] at hb
    exact ⟨.input before after n, by simpa [Part.text] using hb, hr⟩
  · split at h
    next ho =>
      cases h
      obtain ⟨append, after, n, hn, hr⟩ := parseOutputRedir_sound (by rw [ho]; rfl)
      rw [hn] at hb
      exact ⟨.output before append after n, by simpa [Part.text] using hb, hr⟩
    · obtain ⟨⟨_, next⟩, hn, rfl⟩ := Option.map_eq_some_iff.mp h
      obtain ⟨n, hn, hr⟩ := parseName_sound hn
      rw [hn] at hb
      refine ⟨.name ⟨before, fun he => ?_⟩ n, by simpa [Part.text] using hb, hr⟩
      rw [hb, he, List.nil_append, n.peek_append, n.peek_nameChar] at hstop
      cases hstop

/-! ## Commands -/

theorem parseAtomicLoop_complete (ps : List Part) (after : Blank) (h : endsAtomic (peek r) = true) :
    parseAtomicLoop (ps.flatMap Part.text ++ (after.text ++ r)) = some r := by
  have hr := skipWhitespace_blank after (not_space_of_endsAtomic h)
  induction ps with
  | nil =>
    rw [List.flatMap_nil, List.nil_append]
    unfold parseAtomicLoop
    rw [hr, if_pos h]
  | cons p ps ih =>
    have hstop : isNameChar (peek (ps.flatMap Part.text ++ (after.text ++ r))) = false :=
      Part.stops ps (after.stop (not_nameChar_of_endsAtomic h))
    have hp := parsePart_complete p hstop
    rw [List.flatMap_cons, List.append_assoc]
    have hends :
        endsAtomic (peek (skipWhitespace (p.text ++ (ps.flatMap Part.text ++ (after.text ++ r))))) = false := by
      cases he : endsAtomic _ with
      | false => rfl
      | true =>
        rw [parsePart_ends he] at hp
        cases hp
    rw [parseAtomicLoop_part hends hp, ih]

theorem parseAtomicLoop_sound (hstop : isNameChar (peek input) = false) (h : parseAtomicLoop input = some r) :
    ∃ (ps : List Part) (after : Blank), input = ps.flatMap Part.text ++ (after.text ++ r) ∧
      endsAtomic (peek r) = true := by
  fun_induction parseAtomicLoop input with
  | case1 input hends =>
    cases h
    obtain ⟨after, ha⟩ := exists_blank input
    exact ⟨[], after, ha, hends⟩
  | case2 => cases h
  | case3 input _ next hp ih =>
    obtain ⟨p, hin, hnext⟩ := parsePart_sound hstop hp
    obtain ⟨ps, after, hps, hends⟩ := ih hnext h
    refine ⟨p :: ps, after, ?_, hends⟩
    rw [List.flatMap_cons, List.append_assoc, ← hps]
    exact hin

theorem parseAtomic_complete (a : Atomic) (h : endsAtomic (peek r) = true) :
    parseAtomic (a.text ++ r) = some r := by
  have hstop : isNameChar (peek (a.parts.flatMap Part.text ++ (a.after.text ++ r))) = false :=
    Part.stops a.parts (a.after.stop (not_nameChar_of_endsAtomic h))
  unfold parseAtomic Atomic.text
  simp only [List.append_assoc]
  rw [skipWhitespace_blank a.before (not_space_of_nameChar (a.name.peek_append _ ▸ a.name.peek_nameChar)),
    parseName_complete a.name hstop]
  exact parseAtomicLoop_complete a.parts a.after h

theorem parseAtomic_sound (h : parseAtomic input = some r) :
    ∃ a : Atomic, input = a.text ++ r ∧ endsAtomic (peek r) = true := by
  obtain ⟨before, hb⟩ := exists_blank input
  unfold parseAtomic at h
  split at h
  · cases h
  next hn =>
    obtain ⟨name, hname, hstop⟩ := parseName_sound hn
    obtain ⟨ps, after, hps, hends⟩ := parseAtomicLoop_sound hstop h
    refine ⟨⟨before, name, ps, after⟩, ?_, hends⟩
    rw [hname, hps] at hb
    simpa [Atomic.text] using hb

/-! ## Groups -/

theorem skipWhitespace_idem (input : Text) : skipWhitespace (skipWhitespace input) = skipWhitespace input :=
  skipWhitespace_of_not_space (not_space_skipWhitespace input)

theorem parseAtomic_skip (input : Text) : parseAtomic (skipWhitespace input) = parseAtomic input := by
  unfold parseAtomic
  rw [skipWhitespace_idem]

theorem parseCmdGroup_skip (input : Text) : parseCmdGroup (skipWhitespace input) = parseCmdGroup input := by
  unfold parseCmdGroup
  rw [skipWhitespace_idem]

theorem parseCmdGroupLoop_complete (as : List Atomic) (h : endsGroup (peek r) = true) :
    parseCmdGroupLoop (as.flatMap (fun a => bar :: a.text) ++ r) = some r := by
  have hends := endsAtomic_of_endsGroup h
  induction as with
  | nil =>
    rw [List.flatMap_nil, List.nil_append]
    unfold parseCmdGroupLoop
    rw [skipWhitespace_of_not_space (not_space_of_endsAtomic hends), if_pos (not_bar_of_endsGroup h)]
  | cons a as ih =>
    have hnext : endsAtomic (peek (as.flatMap (fun a => bar :: a.text) ++ r)) = true := by
      cases as with
      | nil => exact hends
      | cons b as => rfl
    have ha := parseAtomic_complete a hnext
    simp only [List.flatMap_cons, List.cons_append, List.append_assoc]
    rw [parseCmdGroupLoop_bar (as.flatMap (fun a => bar :: a.text) ++ r), ih]
    · rw [skipWhitespace_of_not_space rfl]
      rfl
    · rw [skipWhitespace_of_not_space rfl]
      show parseAtomic (skipWhitespace _) = _
      rw [parseAtomic_skip]
      exact ha

theorem parseCmdGroupLoop_sound (hstop : endsAtomic (peek input) = true) (h : parseCmdGroupLoop input = some r) :
    ∃ as : List Atomic, input = as.flatMap (fun a => bar :: a.text) ++ r ∧ endsGroup (peek r) = true := by
  fun_induction parseCmdGroupLoop input with
  | case1 input hbar =>
    cases h
    rw [skipWhitespace_of_not_space (not_space_of_endsAtomic hstop)] at hbar ⊢
    refine ⟨[], rfl, ?_⟩
    simp only [endsAtomic, endsGroup, Bool.or_eq_true, decide_eq_true_eq] at hstop ⊢
    rcases hstop with ((h0 | hb) | ha) | hs
    · exact .inl (.inl h0)
    · exact absurd hb hbar
    · exact .inl (.inr ha)
    · exact .inr hs
  | case2 => cases h
  | case3 input hbar next hp ih =>
    rw [skipWhitespace_of_not_space (not_space_of_endsAtomic hstop)] at hbar hp
    unfold skipChar at hp
    rw [parseAtomic_skip] at hp
    obtain ⟨a, ha, hnext⟩ := parseAtomic_sound hp
    obtain ⟨as, has, hends⟩ := ih hnext h
    refine ⟨a :: as, ?_, hends⟩
    rw [eq_cons_tail (Decidable.not_not.mp hbar) (by decide), ha, has]
    simp

theorem parseCmdGroup_complete (g : CmdGroup) (h : endsGroup (peek r) = true) :
    parseCmdGroup (g.text ++ r) = some r := by
  have hnext : endsAtomic (peek (g.rest.flatMap (fun a => bar :: a.text) ++ r)) = true := by
    cases g.rest with
    | nil => exact endsAtomic_of_endsGroup h
    | cons a as => rfl
  unfold parseCmdGroup CmdGroup.text
  rw [parseAtomic_skip, List.append_assoc, parseAtomic_complete g.first hnext]
  exact parseCmdGroupLoop_complete g.rest h

theorem parseCmdGroup_sound (h : parseCmdGroup input = some r) :
    ∃ g : CmdGroup, input = g.text ++ r ∧ endsGroup (peek r) = true := by
  unfold parseCmdGroup at h
  rw [parseAtomic_skip] at h
  split at h
  · cases h
  next ha =>
    obtain ⟨a, hin, hstop⟩ := parseAtomic_sound ha
    obtain ⟨as, has, hends⟩ := parseCmdGroupLoop_sound hstop h
    exact ⟨⟨a, as⟩, by rw [hin, has, CmdGroup.text, List.append_assoc], hends⟩

/-! ## Lines -/

theorem endsGroup_tailText (rest : List (Separator × CmdGroup)) (trailing : Option Blank) :
    endsGroup (peek (tailText rest trailing)) = true := by
  cases rest with
  | nil => cases trailing <;> rfl
  | cons sg rest =>
    obtain ⟨sep, g⟩ := sg
    cases sep <;> rfl

/-- A group does not start at the end of the line. -/
theorem peek_group (g : CmdGroup) (r : Text) : peek (skipWhitespace (g.text ++ r)) ≠ 0 := by
  have hn := g.first.name.peek_nameChar
  unfold CmdGroup.text Atomic.text
  simp only [List.append_assoc]
  rw [skipWhitespace_blank _ (not_space_of_nameChar (g.first.name.peek_append _ ▸ hn)), g.first.name.peek_append]
  intro h0
  rw [h0] at hn
  cases hn

theorem parseInputLoop_complete (rest : List (Separator × CmdGroup)) (trailing : Option Blank) :
    parseInputLoop (tailText rest trailing) = true := by
  induction rest with
  | nil =>
    rw [tailText, List.flatMap_nil, List.nil_append, parseInputLoop]
    cases trailing with
    | none => rfl
    | some b =>
      have hb : skipWhitespace b.text = [] := by simpa using skipWhitespace_blank (r := []) b rfl
      rw [trailingText, skipWhitespace_of_not_space rfl]
      simp [skipChar, hb]
  | cons sg rest ih =>
    obtain ⟨sep, g⟩ := sg
    have hg := parseCmdGroup_complete g (endsGroup_tailText rest trailing)
    have heq : tailText ((sep, g) :: rest) trailing = sep.char :: (g.text ++ tailText rest trailing) := by
      simp [tailText]
    have hskip : skipWhitespace (sep.char :: (g.text ++ tailText rest trailing)) =
        sep.char :: (g.text ++ tailText rest trailing) := by
      refine skipWhitespace_of_not_space ?_
      cases sep <;> rfl
    rw [heq, parseInputLoop_group (tailText rest trailing), ih]
    · rw [hskip]
      cases sep with
      | amp => exact .inl ⟨rfl, peek_group g _⟩
      | semi => exact .inr rfl
    · rw [hskip]
      show parseCmdGroup (skipWhitespace _) = _
      rw [parseCmdGroup_skip]
      exact hg

theorem parseInputLoop_sound (hnul : 0 ∉ input) (hstop : endsGroup (peek input) = true)
    (h : parseInputLoop input = true) : ∃ rest trailing, input = tailText rest trailing := by
  have hskip : ∀ {s : Text}, endsGroup (peek s) = true → skipWhitespace s = s :=
    fun hs => skipWhitespace_of_not_space (not_space_of_endsAtomic (endsAtomic_of_endsGroup hs))
  -- one more group and what the induction gives for the rest
  have cons : ∀ (sep : Separator) {input next : Text}, peek input = sep.char → 0 ∉ input →
      parseCmdGroup (skipChar input) = some next →
      (0 ∉ next → endsGroup (peek next) = true → ∃ rest trailing, next = tailText rest trailing) →
      ∃ rest trailing, input = tailText rest trailing := by
    intro sep input next hsep hnul hp ih
    unfold skipChar at hp
    rw [parseCmdGroup_skip] at hp
    obtain ⟨g, hg, hends⟩ := parseCmdGroup_sound hp
    have hin : input = sep.char :: (g.text ++ next) := by
      rw [← hg]
      exact eq_cons_tail hsep (by cases sep <;> decide)
    obtain ⟨rest, trailing, hrest⟩ := ih (fun h0 => hnul (by rw [hin]; simp [h0])) hends
    exact ⟨(sep, g) :: rest, trailing, by rw [hin, hrest]; simp [tailText]⟩
  fun_induction parseInputLoop input with
  | case1 input h0 =>
    rw [hskip hstop] at h0
    exact ⟨[], none, eq_nil_of_peek h0 hnul⟩
  | case2 input _ ha h0 =>
    rw [hskip hstop] at ha h0
    obtain ⟨b, hb⟩ := exists_char ha (by decide)
    refine ⟨[], some b, ?_⟩
    have : skipChar input = [] := eq_nil_of_peek h0 fun hm => hnul (by rw [hb]; simp [hm])
    rw [this, List.append_nil] at hb
    exact hb
  | case3 | case5 | case7 => cases h
  | case4 input _ ha _ next hp ih =>
    rw [hskip hstop] at ha hp
    exact cons .amp ha hnul hp fun hn he => ih hn he h
  | case6 input _ _ hs next hp ih =>
    rw [hskip hstop] at hs hp
    exact cons .semi hs hnul hp fun hn he => ih hn he h

theorem parseInput_complete (d : ShellCmd) : parseInput d.text = true := by
  unfold parseInput ShellCmd.text
  rw [if_neg (peek_group d.first _), parseCmdGroup_skip,
    parseCmdGroup_complete d.first (endsGroup_tailText d.rest d.trailing)]
  exact parseInputLoop_complete d.rest d.trailing

theorem parseInput_sound (hnul : 0 ∉ input) (h : parseInput input = true) :
    (∀ c ∈ input, isspace c = true) ∨ ∃ d : ShellCmd, d.text = input := by
  unfold parseInput at h
  split at h
  next h0 =>
    obtain ⟨b, hb⟩ := exists_blank input
    have : skipWhitespace input = [] := eq_nil_of_peek h0 fun hm => hnul (by rw [hb]; simp [hm])
    rw [this, List.append_nil] at hb
    rw [hb]
    exact .inl b.spaces
  next =>
    rw [parseCmdGroup_skip] at h
    split at h
    · cases h
    next hp =>
      obtain ⟨g, hg, hends⟩ := parseCmdGroup_sound hp
      obtain ⟨rest, trailing, hrest⟩ := parseInputLoop_sound (fun hm => hnul (by rw [hg]; simp [hm])) hends h
      exact .inr ⟨⟨g, rest, trailing⟩, by rw [hg, hrest]; rfl⟩

theorem parseInput_blank (h : ∀ c ∈ input, isspace c = true) : parseInput input = true := by
  have : skipWhitespace input = [] := by simpa using skipWhitespace_blank (r := []) ⟨input, h⟩ rfl
  unfold parseInput
  rw [this]
  rfl

end

/-- **The syntax checker accepts its grammar.** For every NUL-terminated string,
`parse_input` returns true if and only if the string is blank or is the text of a
derivation. -/
theorem parseInput_iff (s : CString) :
    parseInput s.bytes = true ↔ (∀ c ∈ s.bytes, isspace c = true) ∨ ∃ d : ShellCmd, d.text = s.bytes := by
  constructor
  · exact parseInput_sound s.noNul
  · intro h
    rcases h with hb | ⟨d, hd⟩
    · exact parseInput_blank hb
    · rw [← hd]
      exact parseInput_complete d

end OsNetworks.Shell
