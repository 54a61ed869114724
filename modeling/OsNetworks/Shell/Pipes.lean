/-
Who holds the ends of the pipes of a pipeline, once its children have arranged
their descriptors and the shell has closed its copies.
-/
import OsNetworks.Shell.Children

namespace OsNetworks.Shell

variable {α : Type}

/-! ## The pipes in the shell -/

/-- The shell's table with `n` pipes open beside what was open before. -/
structure PipesOpen (shell : Descriptors α) (n : Nat) (fds : Fds α) (pipes : List (Nat × Nat)) : Prop where
  length : pipes.length = n
  reading : ∀ i p, pipes[i]? = some p → fds.get p.1 = some (.readEnd i)
  writing : ∀ i p, pipes[i]? = some p → fds.get p.2 = some (.writeEnd i)
  free : ∀ fd ∈ pipeFds pipes, shell.get fd = none
  frame : ∀ fd, fd ∉ pipeFds pipes → fds.get fd = (shell.get fd).map .inherited

section
variable {shell : Descriptors α} {n : Nat} {fds : Fds α} {pipes : List (Nat × Nat)}

theorem mem_pipeFds {fd : Nat} :
    fd ∈ pipeFds pipes ↔ ∃ (i : Nat) (p : Nat × Nat), pipes[i]? = some p ∧ (fd = p.1 ∨ fd = p.2) := by
  rw [pipeFds, List.mem_flatMap]
  simp only [List.mem_cons, List.not_mem_nil, or_false]
  constructor
  · intro ⟨p, hp, hfd⟩
    obtain ⟨i, hi⟩ := List.mem_iff_getElem?.mp hp
    exact ⟨i, p, hi, hfd⟩
  · intro ⟨i, p, hi, hfd⟩
    exact ⟨p, List.mem_iff_getElem?.mpr ⟨i, hi⟩, hfd⟩

theorem pipeFds_append (p : Nat × Nat) : pipeFds (pipes ++ [p]) = pipeFds pipes ++ [p.1, p.2] := by
  simp [pipeFds]

/-- A descriptor of a pipe is in use. -/
theorem PipesOpen.busy (h : PipesOpen shell n fds pipes) {fd : Nat} (hfd : fd ∈ pipeFds pipes) :
    ∃ file, fds.get fd = some file := by
  obtain ⟨i, p, hi, rfl | rfl⟩ := mem_pipeFds.mp hfd
  · exact ⟨_, h.reading i p hi⟩
  · exact ⟨_, h.writing i p hi⟩

/-- A free number was free in the shell. -/
theorem PipesOpen.fresh (h : PipesOpen shell n fds pipes) {fd : Nat} (hfd : fds.get fd = none) :
    fd ∉ pipeFds pipes ∧ shell.get fd = none := by
  have hnot : fd ∉ pipeFds pipes := fun hm => by
    obtain ⟨file, hf⟩ := h.busy hm
    rw [hfd] at hf
    cases hf
  refine ⟨hnot, ?_⟩
  have hframe := h.frame fd hnot
  rw [hfd] at hframe
  exact Option.map_eq_none_iff.mp hframe.symm

/-- The two ends of a new pipe get different numbers that were free. -/
structure NewPipe (n : Nat) (fds : Fds α) (made : Fds α × (Nat × Nat)) : Prop where
  reading : fds.get made.2.1 = none
  writing : fds.get made.2.2 = none
  ne : made.2.1 ≠ made.2.2
  get : ∀ fd, made.1.get fd =
    if fd = made.2.2 then some (.writeEnd n) else if fd = made.2.1 then some (.readEnd n) else fds.get fd

theorem newPipe (n : Nat) (fds : Fds α) : NewPipe n fds (openPipe n fds) := by
  let first := fds.openFile (OpenFile.readEnd n)
  have hfirst : first.1.get fds.lowest = some (.readEnd n) := by rw [Descriptors.get_openFile, if_pos rfl]
  have hne : first.1.lowest ≠ fds.lowest := Descriptors.lowest_ne hfirst
  refine ⟨fds.get_lowest, ?_, hne.symm, fun fd => ?_⟩
  · have hlow := first.1.get_lowest
    rwa [Descriptors.get_openFile, if_neg hne] at hlow
  · change (first.1.openFile (OpenFile.writeEnd n)).1.get fd = _
    rw [Descriptors.get_openFile, Descriptors.get_openFile]
    rfl

/-- A new pipe leaves the others as they are. -/
theorem NewPipe.get_old {made : Fds α × (Nat × Nat)} (hm : NewPipe n fds made)
    (h : PipesOpen shell n fds pipes) {fd : Nat} (hfd : fd ∈ pipeFds pipes) : made.1.get fd = fds.get fd := by
  have hread : fd ≠ made.2.1 := fun he => (h.fresh hm.reading).1 (he ▸ hfd)
  have hwrite : fd ≠ made.2.2 := fun he => (h.fresh hm.writing).1 (he ▸ hfd)
  rw [hm.get, if_neg hwrite, if_neg hread]

theorem getElem?_concat_cases {l : List (Nat × Nat)} {i : Nat} {p q : Nat × Nat} (h : (l ++ [q])[i]? = some p) :
    l[i]? = some p ∨ i = l.length ∧ p = q := by
  by_cases hlt : i < l.length
  · rw [List.getElem?_append_left hlt] at h
    exact .inl h
  · rw [List.getElem?_append_right (by omega), List.getElem?_singleton] at h
    split at h
    · exact .inr ⟨by omega, (Option.some.inj h).symm⟩
    · cases h

theorem PipesOpen.openPipe (h : PipesOpen shell n fds pipes) :
    PipesOpen shell (n + 1) (openPipe n fds).1 (pipes ++ [(openPipe n fds).2]) := by
  have hm := newPipe n fds
  refine ⟨by simp [h.length], fun i p hi => ?_, fun i p hi => ?_, fun fd hfd => ?_, fun fd hfd => ?_⟩
  · rcases getElem?_concat_cases hi with hi | ⟨rfl, rfl⟩
    · rw [hm.get_old h (mem_pipeFds.mpr ⟨i, p, hi, .inl rfl⟩)]
      exact h.reading i p hi
    · rw [hm.get, if_neg hm.ne, if_pos rfl, h.length]
  · rcases getElem?_concat_cases hi with hi | ⟨rfl, rfl⟩
    · rw [hm.get_old h (mem_pipeFds.mpr ⟨i, p, hi, .inr rfl⟩)]
      exact h.writing i p hi
    · rw [hm.get, if_pos rfl, h.length]
  · rw [pipeFds_append] at hfd
    rcases List.mem_append.mp hfd with hfd | hfd
    · exact h.free fd hfd
    · simp only [List.mem_cons, List.not_mem_nil, or_false] at hfd
      rcases hfd with rfl | rfl
      · exact (h.fresh hm.reading).2
      · exact (h.fresh hm.writing).2
  · rw [pipeFds_append, List.mem_append, List.mem_cons, List.mem_singleton] at hfd
    rw [hm.get, if_neg fun he => hfd (.inr (.inr he)), if_neg fun he => hfd (.inr (.inl he))]
    exact h.frame fd fun hold => hfd (.inl hold)

theorem createPipes_open (shell : Descriptors α) (n : Nat) :
    PipesOpen shell n (createPipes n (shell.map .inherited)).1 (createPipes n (shell.map .inherited)).2 := by
  induction n with
  | zero =>
    exact ⟨rfl, by simp [createPipes], by simp [createPipes], by simp [createPipes, pipeFds],
      fun fd _ => Descriptors.get_map ..⟩
  | succ n ih => exact ih.openPipe

/-- The shell closes what it opened. -/
theorem PipesOpen.closed (h : PipesOpen shell n fds pipes) (fd : Nat) :
    (Descriptors.closeAll (pipeFds pipes) fds).get fd = (shell.get fd).map .inherited := by
  rw [Descriptors.get_closeAll]
  split
  next hfd => rw [h.free fd hfd]; rfl
  next hfd => exact h.frame fd hfd

/-- A number of the shell's own is none of a pipe. -/
theorem PipesOpen.own (h : PipesOpen shell n fds pipes) {fd : Nat} (hfd : shell.get fd ≠ none) :
    fd ∉ pipeFds pipes :=
  fun hm => hfd (h.free fd hm)

theorem PipesOpen.exists_pipe (h : PipesOpen shell n fds pipes) {i : Nat} (hi : i < n) : ∃ p, pipes[i]? = some p :=
  ⟨_, List.getElem?_eq_getElem (by rwa [h.length])⟩

/-- `dup2(pipes[i-1][0], STDIN_FILENO)` -/
theorem PipesOpen.get_stdin (h : PipesOpen shell n fds pipes) {i : Nat} (hi : i ≤ n) (fd : Nat) :
    (if 0 < i then fds.dup2 (pipes.getD (i - 1) (0, 0)).1 0 else fds).get fd =
      if 0 < i ∧ fd = 0 then some (.readEnd (i - 1)) else fds.get fd := by
  by_cases hpos : 0 < i
  · obtain ⟨p, hp⟩ := h.exists_pipe (i := i - 1) (by omega)
    rw [if_pos hpos, List.getD_eq_getElem?_getD, hp, Option.getD_some, Descriptors.get_dup2 (h.reading (i - 1) p hp)]
    simp [hpos]
  · simp [hpos]

/-- `dup2(pipes[i][1], STDOUT_FILENO)`, when at most number 0 differs from the shell's table. -/
theorem PipesOpen.get_stdout (h : PipesOpen shell n fds pipes) (h0 : shell.get 0 ≠ none) {i : Nat} {t : Fds α}
    (ht : ∀ fd, fd ≠ 0 → t.get fd = fds.get fd) (fd : Nat) :
    (if i < n then t.dup2 (pipes.getD i (0, 0)).2 1 else t).get fd =
      if i < n ∧ fd = 1 then some (.writeEnd i) else t.get fd := by
  by_cases hlt : i < n
  · obtain ⟨p, hp⟩ := h.exists_pipe hlt
    have hne : p.2 ≠ 0 := fun he => h.own h0 (mem_pipeFds.mpr ⟨i, p, hp, .inr he.symm⟩)
    have hwrite : t.get p.2 = some (.writeEnd i) := (ht _ hne).trans (h.writing i p hp)
    rw [if_pos hlt, List.getD_eq_getElem?_getD, hp, Option.getD_some, Descriptors.get_dup2 hwrite]
    simp [hlt]
  · simp [hlt]

/-- What a child of stage `i` has open after it has connected the pipes. -/
theorem PipesOpen.connected (h : PipesOpen shell n fds pipes) (h0 : shell.get 0 ≠ none)
    (h1 : shell.get 1 ≠ none) {i : Nat} (hi : i ≤ n) (fd : Nat) :
    (connectPipes pipes i (n + 1) fds).get fd =
      if 0 < i ∧ fd = 0 then some (.readEnd (i - 1))
      else if i < n ∧ fd = 1 then some (.writeEnd i)
      else (shell.get fd).map .inherited := by
  have hin := h.get_stdin hi
  have hout := h.get_stdout h0 (i := i) fun fd hne => (hin fd).trans (if_neg fun hc => hne hc.2)
  unfold connectPipes
  simp only [Nat.add_sub_cancel]
  rw [Descriptors.get_closeAll, hout, hin]
  by_cases hfd : fd ∈ pipeFds pipes
  · -- closed, and none of the first two
    have hne0 : fd ≠ 0 := fun he => h.own h0 (he ▸ hfd)
    have hne1 : fd ≠ 1 := fun he => h.own h1 (he ▸ hfd)
    simp [hfd, hne0, hne1, h.free fd hfd]
  · rw [if_neg hfd, h.frame fd hfd]
    by_cases hz : fd = 0
    · simp [hz]
    · simp [hz]

end

/-! ## All processes -/

inductive Process where
  | shell
  | stage (i : Nat)
  /-- a process that was there before -/
  | other (j : Nat)
  deriving DecidableEq

/-- The descriptors of every process. -/
def Started.table (started : Started α) (others : Nat → Fds α) : Process → Fds α
  | .shell => started.shell
  | .stage i => ((started.children.find? fun child => child.stage = i).bind Child.fds).getD .empty
  | .other j => others j

/-- A read of an empty pipe waits as long as some process could write to it, and then sees
the end of the file. -/
def HasWriter (table : Process → Fds α) (pipe : Nat) : Prop := ∃ p fd, (table p).get fd = some (.writeEnd pipe)

/-- An exit closes all descriptors. -/
def exited (table : Process → Fds α) (p : Process) : Process → Fds α := fun q => if q = p then .empty else table q

theorem find_zipIdx {β : Type} (l : List β) (k i : Nat) :
    ((l.zipIdx k).find? fun c => c.2 = i) = if k ≤ i then l[i - k]?.map (·, i) else none := by
  induction l generalizing k with
  | nil => simp
  | cons b l ih =>
    rw [List.zipIdx_cons, List.find?_cons]
    by_cases hk : k = i
    · simp [hk]
    · rw [decide_eq_false hk, ih]
      by_cases hle : k ≤ i
      · rw [if_pos hle, if_pos (by omega), show i - k = i - (k + 1) + 1 by omega, List.getElem?_cons_succ]
      · rw [if_neg hle, if_neg (by omega)]

section
variable {fs : FileSystem} {cmds : List ParsedCommand} {shell : Descriptors α} {others : Nat → Fds α}

/-- The child of stage `i`. -/
theorem find_child (hargs : ∀ cmd ∈ cmds, cmd.args ≠ []) (shell : Fds α) (i : Nat) :
    (startPipeline fs cmds shell).children.find? (fun child => child.stage = i) =
      cmds[i]?.map fun cmd =>
        { stage := i, cmd
          fds :=
            stageChild fs (createPipes (cmds.length - 1) shell).2 i cmds.length cmd
              (createPipes (cmds.length - 1) shell).1 } := by
  have hall : cmds.zipIdx.filter (fun c => c.1.args ≠ []) = cmds.zipIdx :=
    List.filter_eq_self.mpr fun c hc => decide_eq_true (hargs c.1 (List.fst_mem_of_mem_zipIdx hc))
  have hfind := find_zipIdx cmds 0 i
  rw [if_pos (Nat.zero_le i), Nat.sub_zero] at hfind
  simp only [startPipeline, hall, List.find?_map]
  have hp : ((fun child : Child α => decide (child.stage = i)) ∘ fun c : ParsedCommand × Nat =>
      ({ stage := c.2, cmd := c.1,
         fds := stageChild fs (createPipes (cmds.length - 1) shell).2 c.2 cmds.length c.1
          (createPipes (cmds.length - 1) shell).1 } : Child α)) = fun c => decide (c.2 = i) := rfl
  rw [hp, hfind, Option.map_map]
  rfl

theorem stageChild_plain {pipes : List (Nat × Nat)} {i count : Nat} {cmd : ParsedCommand} {fds : Fds α}
    (h : cmd.inputFile = none ∧ cmd.outputFile = none) :
    stageChild fs pipes i count cmd fds = some (connectPipes pipes i count fds) := by
  simp [stageChild, redirectInput, redirectOutput, h.1, h.2]

/-- What every process has open once the pipes of `n` stages are connected. -/
structure Connected (own : Descriptors α) (before : Nat → Descriptors α) (n : Nat) (table : Process → Fds α) :
    Prop where
  shell : ∀ fd, (table .shell).get fd = (own.get fd).map .inherited
  other : ∀ j fd, (table (.other j)).get fd = ((before j).get fd).map .inherited
  stage : ∀ i fd, (table (.stage i)).get fd =
    if i < n then
      if 0 < i ∧ fd = 0 then some (.readEnd (i - 1))
      else if i + 1 < n ∧ fd = 1 then some (.writeEnd i)
      else (own.get fd).map .inherited
    else none

/-- A pipeline without files connects its stages, and no more. -/
theorem startPipeline_connected (hargs : ∀ cmd ∈ cmds, cmd.args ≠ [])
    (hplain : ∀ cmd ∈ cmds, cmd.inputFile = none ∧ cmd.outputFile = none) (h0 : shell.get 0 ≠ none)
    (h1 : shell.get 1 ≠ none) (before : Nat → Descriptors α) :
    Connected shell before cmds.length
      ((startPipeline fs cmds (shell.map .inherited)).table fun j => (before j).map .inherited) := by
  have hopen := createPipes_open shell (cmds.length - 1)
  refine ⟨hopen.closed, fun j fd => Descriptors.get_map .., fun i fd => ?_⟩
  simp only [Started.table, find_child hargs]
  by_cases hi : i < cmds.length
  · have hlen : cmds.length - 1 + 1 = cmds.length := by omega
    have hget := hopen.connected h0 h1 (i := i) (by omega) fd
    rw [hlen] at hget
    have hiff : i < cmds.length - 1 ↔ i + 1 < cmds.length := by omega
    rw [List.getElem?_eq_getElem hi, Option.map_some, Option.bind_some,
      stageChild_plain (hplain _ (List.getElem_mem hi)),
      Option.getD_some, hget, if_pos hi]
    simp only [hiff]
  · rw [List.getElem?_eq_none (by omega), if_neg hi]
    rfl

end

/-! ## The ends of the pipes -/

theorem inherited_ne (file : OpenFile α) (h : ∀ f, file ≠ .inherited f) (own : Option α) :
    own.map .inherited ≠ some file := by
  cases own with
  | none => simp
  | some f => simpa using (h f).symm

section
variable {shell : Descriptors α} {before : Nat → Descriptors α} {n : Nat} {table : Process → Fds α}

theorem Connected.writes_iff (h : Connected shell before n table) {i : Nat} (hi : i + 1 < n) (p : Process)
    (fd : Nat) :
    (table p).get fd = some (.writeEnd i) ↔ p = .stage i ∧ fd = 1 := by
  have hne := inherited_ne (OpenFile.writeEnd (α := α) i) (by simp)
  cases p with
  | shell => simp [h.shell, hne]
  | other j => simp [h.other, hne]
  | stage k =>
    rw [h.stage]
    by_cases hk : k < n
    · rw [if_pos hk]
      by_cases hin : 0 < k ∧ fd = 0
      · simp [hin]
      · rw [if_neg hin]
        by_cases hout : k + 1 < n ∧ fd = 1
        · simp [hout]
        · rw [if_neg hout]
          refine iff_of_false (hne _) fun ⟨hki, hfd⟩ => hout ⟨?_, hfd⟩
          rwa [Process.stage.inj hki]
    · rw [if_neg hk]
      refine iff_of_false (by simp) fun ⟨hki, _⟩ => hk ?_
      rw [Process.stage.inj hki]
      omega

theorem Connected.reads_iff (h : Connected shell before n table) {i : Nat} (hi : i + 1 < n) (p : Process) (fd : Nat) :
    (table p).get fd = some (.readEnd i) ↔ p = .stage (i + 1) ∧ fd = 0 := by
  have hne := inherited_ne (OpenFile.readEnd (α := α) i) (by simp)
  cases p with
  | shell => simp [h.shell, hne]
  | other j => simp [h.other, hne]
  | stage k =>
    rw [h.stage]
    by_cases hk : k < n
    · rw [if_pos hk]
      by_cases hin : 0 < k ∧ fd = 0
      · rw [if_pos hin]
        simp only [Option.some.injEq, OpenFile.readEnd.injEq, Process.stage.injEq, hin.2, and_true]
        omega
      · have hright : ¬ (Process.stage k = .stage (i + 1) ∧ fd = 0) := fun ⟨hki, hfd⟩ =>
          hin ⟨by rw [Process.stage.inj hki]; omega, hfd⟩
        rw [if_neg hin]
        by_cases hout : k + 1 < n ∧ fd = 1
        · rw [if_pos hout]
          exact iff_of_false (by simp) hright
        · rw [if_neg hout]
          exact iff_of_false (hne _) hright
    · rw [if_neg hk]
      refine iff_of_false (by simp) fun ⟨hki, _⟩ => hk ?_
      rw [Process.stage.inj hki]
      exact hi

/-- The end of the file is seen as soon as the writer has exited, and not before. -/
theorem Connected.eof (h : Connected shell before n table) {i : Nat} (hi : i + 1 < n) :
    HasWriter table i ∧ ¬ HasWriter (exited table (.stage i)) i := by
  refine ⟨⟨.stage i, 1, (h.writes_iff hi _ _).mpr ⟨rfl, rfl⟩⟩, fun ⟨p, fd, hw⟩ => ?_⟩
  unfold exited at hw
  split at hw
  · cases hw
  next hp => exact hp ((h.writes_iff hi p fd).mp hw).1

end

section
variable {fs : FileSystem} {cmds : List ParsedCommand} {shell : Descriptors α}

/-- **Every pipe has one writer and one reader.** For every pipeline of `n ≥ 2` stages without
files (of which the arrays of `execute_pipeline` hold 100), in foreground or background,
started with standard input and output open: once all children have connected their pipes and the
shell has closed its copies, the write end of pipe `i` is open in stage `i`, as its standard
output, and nowhere else; the read end in stage `i + 1`, as its standard input, and nowhere
else; the first stage has the shell's standard input and the last its standard output; the
shell's own table is what it was; and a reader sees the end of the file when its writer
has exited. -/
theorem pipeline_descriptors {run : PipelineRun} (hrun : run.action = .pipeline cmds) (hn : 2 ≤ cmds.length)
    (hargs : ∀ cmd ∈ cmds, cmd.args ≠ []) (hplain : ∀ cmd ∈ cmds, cmd.inputFile = none ∧ cmd.outputFile = none)
    (h0 : shell.get 0 ≠ none) (h1 : shell.get 1 ≠ none) (before : Nat → Descriptors α) :
    let table := (run.start fs (shell.map .inherited)).table fun j => (before j).map .inherited
    (∀ i, i + 1 < cmds.length → ∀ p fd, (table p).get fd = some (.writeEnd i) ↔ p = .stage i ∧ fd = 1) ∧
      (∀ i, i + 1 < cmds.length → ∀ p fd, (table p).get fd = some (.readEnd i) ↔ p = .stage (i + 1) ∧ fd = 0) ∧
      (table (.stage 0)).get 0 = (shell.get 0).map .inherited ∧
      (table (.stage (cmds.length - 1))).get 1 = (shell.get 1).map .inherited ∧
      (∀ fd, (table .shell).get fd = (shell.get fd).map .inherited) ∧
      ∀ i, i + 1 < cmds.length → HasWriter table i ∧ ¬ HasWriter (exited table (.stage i)) i := by
  intro table
  have hstart : run.start fs (shell.map .inherited) = startPipeline fs cmds (shell.map .inherited) := by
    rw [PipelineRun.start, hrun]
  have h : Connected shell before cmds.length table := by
    show Connected _ _ _ ((run.start fs _).table _)
    rw [hstart]
    exact startPipeline_connected hargs hplain h0 h1 before
  refine ⟨fun i hi => h.writes_iff hi, fun i hi => h.reads_iff hi, ?_, ?_, h.shell, fun i hi => h.eof hi⟩
  · rw [h.stage, if_pos (by omega)]
    simp
  · rw [h.stage, if_pos (by omega), if_neg (by simp), if_neg (by omega)]

end

/-- The group `a|b` in background. -/
def twoStages : PipelineRun where
  background := true
  parsed := [[97], [98], [98]]
  action := .pipeline [{ args := [[97]] }, { args := [[98]] }]

/-- Standard input, output and error, and nothing else. -/
def standard : Descriptors Nat := ⟨[some 0, some 1, some 2]⟩

/-- Every file can be opened. -/
def anyFile : FileSystem := ⟨fun _ => true, fun _ => true⟩

theorem pipeline_descriptors_two :
    let table := (twoStages.start anyFile (standard.map .inherited)).table fun _ => standard.map .inherited
    (∀ i, i + 1 < 2 → ∀ p fd, (table p).get fd = some (.writeEnd i) ↔ p = .stage i ∧ fd = 1) ∧
      (∀ i, i + 1 < 2 → ∀ p fd, (table p).get fd = some (.readEnd i) ↔ p = .stage (i + 1) ∧ fd = 0) ∧
      (table (.stage 0)).get 0 = (standard.get 0).map .inherited ∧
      (table (.stage (2 - 1))).get 1 = (standard.get 1).map .inherited ∧
      (∀ fd, (table .shell).get fd = (standard.get fd).map .inherited) ∧
      ∀ i, i + 1 < 2 → HasWriter table i ∧ ¬ HasWriter (exited table (.stage i)) i :=
  have hrun : twoStages.action = .pipeline [{ args := [[97]] }, { args := [[98]] }] := rfl
  pipeline_descriptors hrun (by decide) (by decide) (by decide) (by decide) (by decide) fun _ => standard

end OsNetworks.Shell
