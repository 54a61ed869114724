/-
What `execute_full_command` runs for a line of the grammar.

The executor cuts up the text by loops of its own, unrelated to the checker's.
Within the sizes of its arrays they find the groups, stages and words of the
derivation; beyond them one of the arrays is written past its end.
-/
import OsNetworks.Shell.Splitting
import OsNetworks.Shell.Words

namespace OsNetworks.Shell

/-! ## Sizes -/

def Atomic.WithinLimits (a : Atomic) : Prop := a.names.length < maxArgs

def CmdGroup.WithinLimits (g : CmdGroup) : Prop := g.stages.length ≤ maxPipes ∧ ∀ a ∈ g.stages, a.WithinLimits

/-- At most 100 groups, of at most 100 stages each, of at most 255 names each. -/
def ShellCmd.WithinLimits (d : ShellCmd) : Prop := d.groups.length ≤ maxGroups ∧ ∀ gb ∈ d.groups, gb.1.WithinLimits

instance (a : Atomic) : Decidable a.WithinLimits := inferInstanceAs (Decidable (_ < _))

instance (g : CmdGroup) : Decidable g.WithinLimits := inferInstanceAs (Decidable (_ ∧ _))

instance (d : ShellCmd) : Decidable d.WithinLimits := inferInstanceAs (Decidable (_ ∧ _))

/-! ## What is run -/

def CmdGroup.action (g : CmdGroup) : Action :=
  match g.stages.map Atomic.command with
  | [cmd] => .single cmd
  | cmds => .pipeline cmds

/-- The texts parsed for the stages `texts`: each of them in order, and the last stage of a
background pipeline again. -/
def parsedTexts (texts : List Text) (background : Bool) : List Text :=
  match texts with
  | [text] => [text]
  | texts => texts ++ if background then texts.getLast?.toList else []

def CmdGroup.run (g : CmdGroup) (background : Bool) : PipelineRun :=
  { background, parsed := parsedTexts (g.stages.map Atomic.text) background, action := g.action }

section
variable {α β γ : Type} {P : α → Prop} [DecidablePred P] {f : β → Option γ} {t : α → β} {r : α → γ}

/-- A list is taken element by element, if each element may be. -/
theorem mapM_ite {l : List α} (h : ∀ a ∈ l, f (t a) = if P a then some (r a) else none) :
    (l.map t).mapM f = if ∀ a ∈ l, P a then some (l.map r) else none := by
  induction l with
  | nil => simp
  | cons a l ih =>
    rw [List.map_cons, List.mapM_cons, h a (by simp), ih fun b hb => h b (by simp [hb])]
    by_cases hall : ∀ b ∈ a :: l, P b
    · obtain ⟨ha, hl⟩ := List.forall_mem_cons.mp hall
      rw [if_pos ha, if_pos hl, if_pos hall]
      rfl
    · rw [if_neg hall]
      by_cases ha : P a
      · rw [if_pos ha, if_neg fun hl => hall (List.forall_mem_cons.mpr ⟨ha, hl⟩)]
        rfl
      · rw [if_neg ha]
        rfl

end

theorem executePipeline_text (g : CmdGroup) (background : Bool) (h : g.text.length < maxInputLen) :
    executePipeline g.text background = if g.WithinLimits then some (g.run background) else none := by
  have hm := mapM_ite (P := Atomic.WithinLimits) (l := g.stages) fun a ha =>
    parseCommand_text a (Nat.lt_of_le_of_lt (g.length_stage ha) h)
  unfold executePipeline
  rw [splitStages_text g h]
  by_cases hw : g.WithinLimits
  · rw [if_pos hw, if_pos hw.1, Option.bind_some, hm, if_pos hw.2, Option.map_some]
    obtain ⟨first, rest⟩ := g
    cases rest with
    | nil =>
      have hne : first.command.args ≠ [] := by simp [Atomic.command, Atomic.names]
      simp [CmdGroup.run, parsedTexts, CmdGroup.action, CmdGroup.stages, hne]
    | cons b rest => simp [CmdGroup.run, parsedTexts, CmdGroup.action, CmdGroup.stages]
  · rw [if_neg hw]
    by_cases hs : g.stages.length ≤ maxPipes
    · rw [if_pos hs, Option.bind_some, hm, if_neg fun hn => hw ⟨hs, hn⟩]
      rfl
    · rw [if_neg hs]
      rfl

/-! ## The line without the blanks around its groups -/

theorem flagged_first {α : Type} {f : CmdGroup → α} {g k : CmdGroup} (h : f g = f k)
    (rest : List (Separator × CmdGroup)) (trailing : Option Blank) :
    (flagged g rest trailing).map (fun gb => (f gb.1, gb.2)) =
      (flagged k rest trailing).map fun gb => (f gb.1, gb.2) := by
  cases rest with
  | nil => simp [flagged, h]
  | cons sg rest => simp [flagged, h]

/-- What the blanks around a group do not change, they do not change in the line. -/
theorem trimmed_groups (d : ShellCmd) {α : Type} {f : CmdGroup → α} (ha : ∀ g, f g.dropAfter = f g)
    (hb : ∀ g, f g.dropBefore = f g) :
    d.trimmed.groups.map (fun gb => (f gb.1, gb.2)) = d.groups.map fun gb => (f gb.1, gb.2) := by
  have hmap : ∀ (rest : List (Separator × CmdGroup)) (g : CmdGroup),
      (flagged g.dropAfter (rest.map fun sg => (sg.1, sg.2.dropBefore.dropAfter)) d.trailing).map
          (fun gb => (f gb.1, gb.2)) = (flagged g rest d.trailing).map fun gb => (f gb.1, gb.2) := by
    intro rest
    induction rest with
    | nil =>
      intro g
      simp [flagged, ha]
    | cons sg rest ih =>
      intro g
      have hnext := ih sg.2.dropBefore
      rw [flagged_first (hb sg.2)] at hnext
      simp only [List.map_cons, flagged, ha, hnext]
  exact hmap d.rest d.first

theorem withinLimits_iff_map (g : CmdGroup) : g.WithinLimits ↔
    (g.stages.map Atomic.names).length ≤ maxPipes ∧ ∀ names ∈ g.stages.map Atomic.names, names.length < maxArgs := by
  simp [CmdGroup.WithinLimits, Atomic.WithinLimits]

theorem trimmed_withinLimits (d : ShellCmd) :
    (∀ gb ∈ d.trimmed.groups, gb.1.WithinLimits) ↔ ∀ gb ∈ d.groups, gb.1.WithinLimits := by
  have hg := trimmed_groups d (f := fun g => g.WithinLimits)
    (fun g => by simp only [withinLimits_iff_map, CmdGroup.stages_dropAfter (f := Atomic.names) (fun _ => rfl)])
    (fun g => by simp only [withinLimits_iff_map, CmdGroup.stages_dropBefore (f := Atomic.names) (fun _ => rfl)])
  have hiff : ∀ l : List (CmdGroup × Bool), (∀ gb ∈ l, gb.1.WithinLimits) ↔
      ∀ pb ∈ l.map (fun gb => (gb.1.WithinLimits, gb.2)), pb.1 := by
    intro l
    constructor
    · intro h pb hpb
      obtain ⟨gb, hgb, rfl⟩ := List.mem_map.mp hpb
      exact h gb hgb
    · intro h gb hgb
      exact h _ (List.mem_map_of_mem hgb)
  rw [hiff, hg, ← hiff]

theorem length_dropAfter (g : CmdGroup) : g.dropAfter.text.length ≤ g.text.length := by
  rw [g.text_after, List.length_append]
  exact Nat.le_add_right _ _

theorem length_dropBefore (g : CmdGroup) : g.dropBefore.text.length ≤ g.text.length := by
  rw [g.text_before, List.length_append]
  exact Nat.le_add_left _ _

theorem length_trimmed (d : ShellCmd) : d.trimmed.text.length ≤ d.text.length := by
  have htail : ∀ rest : List (Separator × CmdGroup),
      (tailText (rest.map fun sg => (sg.1, sg.2.dropBefore.dropAfter)) d.trailing).length ≤
        (tailText rest d.trailing).length := by
    intro rest
    induction rest with
    | nil => exact Nat.le_refl _
    | cons sg rest ih =>
      have h1 := length_dropAfter sg.2.dropBefore
      have h2 := length_dropBefore sg.2
      simp only [tailText, List.map_cons, List.flatMap_cons, List.cons_append, List.length_cons,
        List.length_append] at ih ⊢
      omega
  have h1 := length_dropAfter d.first
  have h2 := htail d.rest
  simp only [ShellCmd.text, ShellCmd.trimmed, List.length_append] at h2 ⊢
  omega

theorem executeFullCommand_text (d : ShellCmd) (h : d.text.length < maxInputLen) :
    executeFullCommand d.text =
      if d.WithinLimits then some (d.trimmed.groups.map fun gb => gb.1.run gb.2) else none := by
  have hm := mapM_ite (P := fun gb : CmdGroup × Bool => gb.1.WithinLimits) (l := d.trimmed.groups)
    (f := fun g : Text × Bool => executePipeline g.1 g.2) (t := fun gb => (gb.1.text, gb.2))
    fun gb hgb => executePipeline_text gb.1 gb.2 (by
      have := d.trimmed.length_group hgb
      have := length_trimmed d
      omega)
  unfold executeFullCommand
  rw [splitGroups_text d h]
  by_cases hw : d.WithinLimits
  · rw [if_pos hw, if_pos hw.1, Option.bind_some, hm, if_pos ((trimmed_withinLimits d).mpr hw.2)]
  · rw [if_neg hw]
    by_cases hg : d.groups.length ≤ maxGroups
    · rw [if_pos hg, Option.bind_some, hm, if_neg fun hn => hw ⟨hg, (trimmed_withinLimits d).mp hn⟩]
    · rw [if_neg hg]
      rfl

/-! ## The stages run are those of the derivation -/

/-- A text without the blanks around it. -/
def trim (text : Text) : Text := ((skipWhitespace text).reverse.dropWhile isspace).reverse

theorem trim_text (a : Atomic) : trim a.text = a.core := by
  obtain ⟨t, n, hn⟩ := a.core_ends
  have hpeek : peek (a.core ++ a.after.text) = peek a.name.text := by
    simp only [Atomic.core, List.append_assoc]
    exact a.name.peek_append _
  have hstart : skipWhitespace a.text = a.core ++ a.after.text := by
    rw [a.text_eq_core,
      skipWhitespace_blank a.before (by rw [hpeek]; exact not_space_of_nameChar a.name.peek_nameChar)]
  have hne : n.text.reverse ≠ [] := List.reverse_ne_nil_iff.mpr n.ne
  have hlast : isspace (peek a.core.reverse) = false := by
    rw [hn, List.reverse_append, peek_append hne]
    exact not_space_of_nameChar (n.chars _ (List.mem_reverse.mp (peek_mem hne)))
  rw [trim, hstart, List.reverse_append, dropWhile_run (fun c hc => a.after.spaces c (List.mem_reverse.mp hc))
    (.inr hlast), List.reverse_reverse]

theorem core_ne (a : Atomic) : a.core ≠ [] := List.append_ne_nil_of_left_ne_nil a.name.ne _

theorem parsedTexts_map (f : Text → Text) (texts : List Text) (background : Bool) :
    (parsedTexts texts background).map f = parsedTexts (texts.map f) background := by
  match texts with
  | [] => cases background <;> rfl
  | [text] => rfl
  | _ :: _ :: _ =>
    cases background with
    | false => simp [parsedTexts]
    | true => simp [parsedTexts, List.getLast?_cons]

theorem mem_parsedTexts {text : Text} {texts : List Text} {background : Bool}
    (h : text ∈ parsedTexts texts background) :
    text ∈ texts := by
  unfold parsedTexts at h
  split at h
  · exact h
  · rcases List.mem_append.mp h with h | h
    · exact h
    · cases background with
      | false => cases h
      | true => exact List.mem_of_getLast? (by simpa using h)

theorem trimmed_cores (d : ShellCmd) : d.trimmed.groups.map (fun gb => (gb.1.stages.map Atomic.core, gb.2)) =
    d.groups.map fun gb => (gb.1.stages.map Atomic.core, gb.2) :=
  trimmed_groups d (f := fun g => g.stages.map Atomic.core) (fun g => g.stages_dropAfter fun _ => rfl)
    fun g => g.stages_dropBefore fun _ => rfl

theorem run_cores (d : ShellCmd) : (d.trimmed.groups.map fun gb => gb.1.run gb.2).map
      (fun r => (r.parsed.map trim, r.background)) =
    d.groups.map fun gb => (parsedTexts (gb.1.stages.map Atomic.core) gb.2, gb.2) := by
  have h := congrArg (List.map fun cb : List Text × Bool => (parsedTexts cb.1 cb.2, cb.2)) (trimmed_cores d)
  simp only [List.map_map] at h ⊢
  rw [show (fun gb : CmdGroup × Bool => (parsedTexts (gb.1.stages.map Atomic.core) gb.2, gb.2)) =
    (fun cb : List Text × Bool => (parsedTexts cb.1 cb.2, cb.2)) ∘
      fun gb => (gb.1.stages.map Atomic.core, gb.2) from rfl, ← h]
  refine List.map_congr_left fun gb _ => ?_
  simp only [Function.comp_apply, CmdGroup.run, parsedTexts_map, List.map_map]
  congr 2
  exact List.map_congr_left fun a _ => trim_text a

/-- **The executor splits a line as the grammar does.** For every derivation of a line of at
most 4095 bytes whose groups, stages and names fit the arrays: the groups run are those of the
derivation, in order, each in background exactly if `&` follows it, and the texts passed to
`parse_command` are its stages in order (up to blanks around them), none of them empty; for
a background pipeline the last stage follows once more. -/
theorem executeFullCommand_follows (d : ShellCmd) (hlen : d.text.length < maxInputLen) (hd : d.WithinLimits) :
    ∃ runs, executeFullCommand d.text = some runs ∧
      runs.map (fun r => (r.parsed.map trim, r.background)) =
        d.groups.map (fun gb => (parsedTexts (gb.1.stages.map Atomic.core) gb.2, gb.2)) ∧
      ∀ r ∈ runs, ∀ text ∈ r.parsed, trim text ≠ [] := by
  refine ⟨_, (executeFullCommand_text d hlen).trans (if_pos hd), run_cores d, fun r hr text ht => ?_⟩
  obtain ⟨gb, -, rfl⟩ := List.mem_map.mp hr
  obtain ⟨a, -, rfl⟩ := List.mem_map.mp (mem_parsedTexts ht)
  rw [trim_text]
  exact core_ne a

/-! ## Small lines -/

/-- A name of one character. -/
def letter (c : UInt8) (h : isNameChar c = true) : Name := ⟨[c], by simp, by simpa using h⟩

/-- One blank. -/
def space : Gap := ⟨⟨[32], by simp [isspace]⟩, by simp⟩

/-- A command of the names `a`, `n + 1` of them. -/
def repeated (n : Nat) : Atomic where
  before := .empty
  name := letter 97 (by decide)
  parts := List.replicate n (.name space (letter 97 (by decide)))
  after := .empty

/-- `a|a&` -/
def backgroundPipe : ShellCmd := ⟨⟨repeated 0, [repeated 0]⟩, [], some .empty⟩

/-- One command of 256 names. -/
def manyNames : ShellCmd := ⟨⟨repeated 255, []⟩, [], none⟩

theorem executeFullCommand_follows_pipe : ∃ runs, executeFullCommand backgroundPipe.text = some runs ∧
      runs.map (fun r => (r.parsed.map trim, r.background)) =
        backgroundPipe.groups.map (fun gb => (parsedTexts (gb.1.stages.map Atomic.core) gb.2, gb.2)) ∧
      ∀ r ∈ runs, ∀ text ∈ r.parsed, trim text ≠ [] :=
  executeFullCommand_follows backgroundPipe (by decide) (by decide)

/-- Of a background pipeline the last stage is parsed twice, and of a command with 256 names
nothing is promised. -/
theorem executeFullCommand_reparses :
    (executeFullCommand backgroundPipe.text).map (List.map fun r => (r.parsed.map trim, r.background)) ≠
        some (backgroundPipe.groups.map fun gb => (gb.1.stages.map Atomic.core, gb.2)) ∧
      (manyNames.text.length < maxInputLen ∧ manyNames.groups.length ≤ maxGroups ∧
        (∀ gb ∈ manyNames.groups, gb.1.stages.length ≤ maxPipes) ∧ executeFullCommand manyNames.text = none) := by
  refine ⟨?_, ?_, ?_, ?_, ?_⟩
  · rw [executeFullCommand_text _ (by decide), if_pos (by decide), Option.map_some, run_cores]
    decide
  · decide +kernel
  · decide +kernel
  · decide +kernel
  · rw [executeFullCommand_text _ (by decide +kernel), if_neg (by decide +kernel)]

/-- A line of one name, and `&` if it is for the background. -/
def oneWord (name : Name) (background : Bool) : ShellCmd :=
  ⟨⟨⟨.empty, name, [], .empty⟩, []⟩, [], if background then some .empty else none⟩

theorem splitGroups_oneWord (name : Name) (background : Bool)
    (h : (oneWord name background).text.length < maxInputLen) :
    splitGroups (oneWord name background).text = some [(name.text, background)] := by
  have hgroups : (oneWord name background).groups.length ≤ maxGroups := by
    cases background <;> exact Nat.le_of_lt (by decide : 1 < 100)
  rw [splitGroups_text _ h, if_pos hgroups]
  cases background <;>
    simp [oneWord, ShellCmd.trimmed, ShellCmd.groups, flagged, CmdGroup.text, Atomic.text, CmdGroup.dropAfter,
      Atomic.dropAfter, Blank.empty]

theorem executePipeline_oneWord (name : Name) (background : Bool) (h : name.text.length < maxInputLen) :
    executePipeline name.text background = some ⟨background, [name.text], .single { args := [name.text] }⟩ := by
  let group : CmdGroup := ⟨⟨.empty, name, [], .empty⟩, []⟩
  have htext : group.text = name.text := by simp [group, CmdGroup.text, Atomic.text, Blank.empty]
  have hlimits : group.WithinLimits := by
    refine ⟨(by decide : 1 ≤ maxPipes), fun a ha => ?_⟩
    obtain rfl := List.mem_singleton.mp ha
    exact (by decide : 1 < maxArgs)
  have hrun := (executePipeline_text group background (htext ▸ h)).trans (if_pos hlimits)
  rw [htext] at hrun
  rw [hrun, ← htext]
  simp [group, CmdGroup.run, parsedTexts, CmdGroup.action, CmdGroup.stages, Atomic.command, Atomic.names,
    CmdGroup.text, Atomic.text, Blank.empty]

end OsNetworks.Shell
