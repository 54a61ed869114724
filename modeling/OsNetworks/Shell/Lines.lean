/-
That the shell, with its children, its job control and its signals, uses the
log as `Log.react` does and runs the groups of a line as `Execution.step` does,
which know nothing of these: so what holds of logs and executions by themselves
holds of those of the shell.
-/
import OsNetworks.Lib.Runs
import OsNetworks.Shell.JobControl
import OsNetworks.Shell.Recursion

namespace OsNetworks.Shell
open OsNetworks.Runs OsNetworks.Descent

namespace ShellState

variable {s : ShellState} {g : Text × Bool} {rest : List (Text × Bool)}

/-! ## The log -/

theorem cmdFg_log (s : ShellState) (job : Job) : (s.cmdFg job rest).log = s.log := by
  simp only [cmdFg]
  split <;> rfl

theorem cmdBg_ok {s s' : ShellState} {job : Job} (h : s.cmdBg job = .ok s') :
    s'.log = s.log ∧ s'.phase = s.phase := by
  unfold cmdBg at h
  split at h
  · cases h
  · cases h
    exact ⟨rfl, rfl⟩

theorem intrinsic_log (s : ShellState) (args : List Text) :
    (s.intrinsic args rest).log = s.log ∨ (s.intrinsic args rest).log = s.log.react (.command args.tail) := by
  rcases s.intrinsic_cases args with hr | ⟨job, -, hr⟩ | ⟨job, -, hbg⟩ | ⟨pid, signal, hr⟩ | ⟨-, hr | ⟨groups, hr⟩⟩
  · exact .inl (by rw [hr])
  · exact .inl (by rw [hr, cmdFg_log])
  · exact .inl (cmdBg_ok hbg).1
  · exact .inl (by rw [hr]; rfl)
  · exact .inl (by rw [hr])
  · exact .inr (by rw [hr]; rfl)

theorem single_log (s : ShellState) (cmd : ParsedCommand) (background : Bool) (pid : Nat) :
    (s.single cmd background pid rest).log = s.log := by
  simp only [single]
  split <;> rfl

theorem pipeline_log (s : ShellState) (cmds : List ParsedCommand) (background : Bool) (pids : List Nat) :
    (s.pipeline cmds background pids rest).log = s.log := by
  unfold pipeline
  split
  · rfl
  split
  · split <;> rfl
  · rfl

theorem execute_log (s : ShellState) (g : Text × Bool) (pids : List Nat) :
    (s.execute g rest pids).log = s.log ∨ ∃ args, (s.execute g rest pids).log = s.log.react (.command args) := by
  rcases s.execute_cases g pids with hr | hr | ⟨run, -, ⟨-, hr⟩ | ⟨cmd, -, -, hr⟩ | ⟨cmd, pid, -, -, -, hr⟩ |
    ⟨cmds, -, -, hr⟩⟩
  · exact .inl (by rw [hr])
  · exact .inl (by rw [hr])
  · exact .inl (by rw [hr])
  · exact hr ▸ (s.intrinsic_log cmd.args).imp_right fun h => ⟨_, h⟩
  · exact .inl (by rw [hr, single_log])
  · exact .inl (by rw [hr, pipeline_log])

theorem resolve_log (s : ShellState) (p : Pending) : (s.resolve rest p).log = s.log := by
  unfold resolve
  split
  · split <;> rfl
  · split <;> rfl
  · rfl
  · simp only
    split <;> rfl
  · simp only
    split <;> rfl

theorem readLine_log (s : ShellState) (stdin : Text) :
    (s.readLine stdin).log = s.log ∨ (s.readLine stdin).log = s.log.react (.input stdin) := by
  simp only [readLine, Log.react]
  split
  · exact .inl rfl
  split
  · exact .inl rfl
  · refine .inr ?_
    split
    · split <;> rfl
    · rfl

theorem step_log (s : ShellState) (e : Event) :
    (s.step e).log = s.log ∨ ∃ use, (s.step e).log = s.log.react use := by
  cases e with
  | proceed pids =>
    simp only [step]
    split
    · exact .inl (s.resolve_log _)
    · exact (s.execute_log _ pids).imp_right fun ⟨args, h⟩ => ⟨_, h⟩
    · exact .inl rfl
    · exact .inl rfl
  | input stdin =>
    simp only [step]
    split
    · exact (s.readLine_log stdin).imp_right fun h => ⟨_, h⟩
    · exact .inl rfl
  | happens pid change => exact .inl rfl
  | ctrlC =>
    simp only [step, sigint]
    split <;> exact .inl rfl
  | ctrlZ =>
    simp only [step, sigtstp]
    split <;> exact .inl rfl
  | noReport =>
    simp only [step]
    split
    · split <;> exact .inl rfl
    · exact .inl rfl
  | _ =>
    simp only [step]
    split <;> exact .inl rfl

/-- The log of the shell is one that its main loop and the command `log` lead to. -/
theorem run_log (file : Option Text) (events : List Event) :
    ∃ uses : List LogEvent, (run step (boot file) events).log = uses.foldl Log.react (.boot file) := by
  let Used (s : ShellState) : Prop := ∃ uses : List LogEvent, s.log = uses.foldl Log.react (.boot file)
  refine run_inv (I := Used) (fun s e h => ?_) ⟨[], rfl⟩ events
  obtain ⟨uses, hlog⟩ := h
  rcases s.step_log e with hsame | ⟨use, huse⟩
  · exact ⟨uses, hsame.trans hlog⟩
  · exact ⟨uses ++ [use], by rw [huse, hlog, List.foldl_concat]⟩

/-! ## Lines -/

/-- The shell is at a line, with as much of it still to run and the same log. -/
def Running (s : ShellState) (e : Execution) : Prop := (∃ p, s.phase = .running p e.todo) ∧ s.log = e.log

theorem resolve_running (p : Pending) (h : s.phase = .running (some p) rest) :
    (s.resolve rest p).phase = .lost ∨ (s.resolve rest p).Running ⟨rest, s.log⟩ := by
  have hs : s.Running ⟨rest, s.log⟩ := ⟨⟨_, h⟩, rfl⟩
  unfold resolve
  split
  · split
    · exact .inl rfl
    · exact .inr ⟨⟨_, rfl⟩, rfl⟩
  · split
    · exact .inr ⟨⟨_, rfl⟩, rfl⟩
    · exact .inr ⟨⟨_, rfl⟩, rfl⟩
    · exact .inr hs
    · exact .inl rfl
  · exact .inr ⟨⟨_, rfl⟩, rfl⟩
  · simp only
    split
    · exact .inr ⟨⟨_, rfl⟩, rfl⟩
    · exact .inr hs
    · exact .inr ⟨⟨_, rfl⟩, rfl⟩
  · simp only
    split
    · exact .inr ⟨⟨_, rfl⟩, rfl⟩
    · exact .inr ⟨⟨_, rfl⟩, rfl⟩
    · exact .inr hs
    · exact .inl rfl

/-- Of the commands that the shell runs itself only `log` concerns the groups and the log. -/
theorem intrinsic_running (s : ShellState) {args : List Text} (h : args.headD [] ≠ logWord) :
    (s.intrinsic args rest).Running ⟨rest, s.log⟩ := by
  rcases s.intrinsic_cases args with hr | ⟨job, -, hr⟩ | ⟨job, -, hbg⟩ | ⟨pid, signal, hr⟩ | ⟨hlog, -⟩
  · exact hr ▸ ⟨⟨_, rfl⟩, rfl⟩
  · exact hr ▸ ⟨⟨_, rfl⟩, cmdFg_log s job⟩
  · exact ⟨⟨_, (cmdBg_ok hbg).2⟩, (cmdBg_ok hbg).1⟩
  · exact hr ▸ ⟨⟨_, rfl⟩, rfl⟩
  · exact absurd hlog h

theorem logArgs_single {run : PipelineRun} {cmd : ParsedCommand} (ha : run.action = .single cmd)
    (h : cmd.runsInShell = true) :
    run.logArgs = if cmd.args.headD [] = logWord then some cmd.args.tail else none := by
  rw [PipelineRun.logArgs, ha]
  cases hargs : cmd.args with
  | nil => simp [hargs, logWord]
  | cons name args => simp [hargs, h]

/-- The shell begins with a line where `processInput` does. -/
theorem readLine_running {s : ShellState} {stdin : Text} {x : Execution} (hstdin : stdin ≠ [])
    (hi : isIgnored (Line.read stdin).skipBlanks.bytes = false)
    (hx : processInput (logAddCommand s.log (Line.read stdin).skipBlanks) (Line.read stdin).skipBlanks = some x) :
    (s.readLine stdin).Running x := by
  unfold processInput at hx
  split at hx
  next hparse =>
    obtain ⟨groups, hgroups, rfl⟩ := Option.map_eq_some_iff.mp hx
    simp only [readLine, hstdin, hi, hparse, hgroups, if_true, if_false, Bool.false_eq_true]
    exact ⟨⟨none, rfl⟩, rfl⟩
  · cases hx

/-- `log` does what it does in `Execution.step`. -/
theorem log_running (s : ShellState) {run : PipelineRun} {args : List Text} (hrun : executePipeline g.1 g.2 = some run)
    (hlog : args.headD [] = logWord) (hargs : run.logArgs = some args.tail) :
    (s.intrinsic args rest).phase = .lost ∨
      ∃ e, Execution.step ⟨g :: rest, s.log⟩ = some e ∧ (s.intrinsic args rest).Running e := by
  have hfg : logWord ≠ fgWord := by decide
  have hbg : logWord ≠ bgWord := by decide
  have hping : logWord ≠ pingWord := by decide
  simp only [Execution.step, hrun, Option.bind_some, hargs, intrinsic, hlog, hfg, hbg, hping, if_true, if_false]
  cases (cmdLog s.log args.tail).2 with
  | executed entry =>
    simp only
    split
    · exact .inl rfl
    next groups hgroups => exact .inr ⟨⟨groups ++ rest, _⟩, by rw [hgroups]; rfl, ⟨none, rfl⟩, rfl⟩
  | _ => exact .inr ⟨⟨rest, _⟩, rfl, ⟨none, rfl⟩, rfl⟩

/-- A group is run as `Execution.step` says, unless its forks are still to come. -/
theorem execute_running (h : s.phase = .running none (g :: rest)) (pids : List Nat) :
    (s.execute g rest pids).Running ⟨g :: rest, s.log⟩ ∨ (s.execute g rest pids).phase = .lost ∨
      ∃ e, Execution.step ⟨g :: rest, s.log⟩ = some e ∧ (s.execute g rest pids).Running e := by
  have hs : s.Running ⟨g :: rest, s.log⟩ := ⟨⟨_, h⟩, rfl⟩
  have hnext : ∀ run, executePipeline g.1 g.2 = some run → run.logArgs = none →
      Execution.step ⟨g :: rest, s.log⟩ = some ⟨rest, s.log⟩ := fun run hrun hl => by
    simp only [Execution.step, hrun, Option.bind_some, hl]
  rcases s.execute_cases g pids with hr | hr | ⟨run, hrun, ⟨ha, hr⟩ | ⟨cmd, ha, hshell, hr⟩ |
    ⟨cmd, pid, ha, hshell, -, hr⟩ | ⟨cmds, ha, -, hr⟩⟩
  · exact .inl (by rw [hr]; exact hs)
  · exact .inr (.inl (by rw [hr]))
  · have hargs : run.logArgs = none := by rw [PipelineRun.logArgs, ha]
    exact .inr (.inr ⟨_, hnext run hrun hargs, hr ▸ ⟨⟨_, rfl⟩, rfl⟩⟩)
  · have hargs := logArgs_single ha hshell
    rw [hr]
    by_cases hlog : cmd.args.headD [] = logWord
    · exact .inr (s.log_running hrun hlog (hargs.trans (if_pos hlog)))
    · exact .inr (.inr ⟨_, hnext run hrun (hargs.trans (if_neg hlog)), s.intrinsic_running hlog⟩)
  · have hargs : run.logArgs = none := by simp [PipelineRun.logArgs, ha, hshell]
    refine .inr (.inr ⟨_, hnext run hrun hargs, hr ▸ ⟨?_, s.single_log cmd run.background pid⟩⟩)
    unfold single
    simp only
    split <;> exact ⟨_, rfl⟩
  · have hargs : run.logArgs = none := by rw [PipelineRun.logArgs, ha]
    rw [hr]
    unfold pipeline
    split
    · exact .inr (.inl rfl)
    split
    · split
      · exact .inr (.inr ⟨_, hnext run hrun hargs, ⟨_, rfl⟩, rfl⟩)
      · exact .inl hs
    · exact .inr (.inr ⟨_, hnext run hrun hargs, ⟨_, rfl⟩, rfl⟩)

/-- While it runs a line, each event leaves the groups that are still to run and the log as they
are, or takes them one step further; at the end of the groups it goes back to the prompt. -/
theorem step_running {x : Execution} (h : s.Running x) (e : Event) :
    (s.step e).Running x ∨ (s.step e).phase = .lost ∨ (∃ y, x.step = some y ∧ (s.step e).Running y) ∨
      x.todo = [] ∧ (s.step e).phase = .checking ∧ (s.step e).log = s.log := by
  obtain ⟨⟨p, hphase⟩, hlog⟩ := h
  have hsame : s.Running x := ⟨⟨p, hphase⟩, hlog⟩
  obtain ⟨todo, log⟩ := x
  obtain rfl : s.log = log := hlog
  cases e with
  | proceed pids =>
    simp only [step, hphase]
    cases p with
    | some p => exact (resolve_running p hphase).elim (fun hl => .inr (.inl hl)) .inl
    | none =>
      cases todo with
      | nil => exact .inr (.inr (.inr ⟨rfl, rfl, rfl⟩))
      | cons g rest =>
        rcases execute_running hphase pids with hwait | hl | hnext
        · exact .inl hwait
        · exact .inr (.inl hl)
        · exact .inr (.inr (.inl hnext))
  | happens pid change => exact .inl hsame
  | ctrlC =>
    simp only [step, sigint]
    split <;> exact .inl hsame
  | ctrlZ =>
    simp only [step, sigtstp]
    split <;> exact .inl hsame
  | _ =>
    simp only [step, hphase]
    exact .inl hsame

/-- As long as the shell is at a line, the execution of this line by itself comes to where the
shell is. -/
theorem run_running {x : Execution} (h : s.Running x) {events : List Event}
    (hline : Along step (fun s e => ∃ p todo, (s.step e).phase = .running p todo) s events) :
    ∃ n y, steps Execution.step n x = some y ∧ (run step s events).Running y := by
  induction events generalizing s x with
  | nil => exact ⟨0, x, rfl, h⟩
  | cons e events ih =>
    obtain ⟨⟨p, todo, hphase⟩, hrest⟩ := hline
    rcases step_running h e with hsame | hl | ⟨y, hy, hnext⟩ | ⟨-, hc, -⟩
    · exact ih hsame hrest
    · rw [hl] at hphase
      cases hphase
    · obtain ⟨n, z, hz, hrun⟩ := ih hnext hrest
      exact ⟨n + 1, z, by rw [steps, hy, Option.bind_some, hz], hrun⟩
    · rw [hc] at hphase
      cases hphase

end ShellState

end OsNetworks.Shell
