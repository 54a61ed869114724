/-
When `fg` and `bg` resume a stopped job. They look at the status in the table,
which follows what the shell hears of the process: the reports of `waitpid` at
the prompt and in foreground, and Ctrl-Z. A stop that no report has told of
yet is overlooked.
-/
import OsNetworks.Shell.Accounting

namespace OsNetworks.Shell
open OsNetworks OsNetworks.Runs

/-- The job that a command `fg` or `bg` is about. -/
def PipelineRun.resumedJob (run : PipelineRun) (t : JobTable) : Option Job :=
  match run.action with
  | .single cmd =>
    let name := cmd.args.headD []
    if cmd.runsInShell ∧ (name = fgWord ∨ name = bgWord) then (t.selected cmd.args.tail).toOption else none
  | _ => none

/-- The process is stopped. -/
def Books.IsStopped (b : Books) (pid : Nat) : Prop := ∃ c ∈ b.children, c.pid = pid ∧ c.state.isStopped

/-- What the shell did to the process or heard of it last is that it stopped. -/
def Books.HeardStop (b : Books) (pid : Nat) : Prop :=
  b.lastNotice pid = some .stopped ∨ b.lastNotice pid = some .interrupted

theorem Books.Sound.status_iff {b : Books} (h : b.Sound) {job : Job} (hj : job ∈ b.table.jobs) :
    job.status = .stopped ↔ b.HeardStop job.pid := by
  obtain ⟨n, hn, hstatus⟩ := Option.map_eq_some_iff.mp (h.noted job hj)
  rw [Books.HeardStop, hn, ← hstatus]
  cases n <;> decide

/-- A status is running or stopped. -/
theorem Books.Sound.status_cases {b : Books} (h : b.Sound) {job : Job} (hj : job ∈ b.table.jobs) :
    job.status = .running ↔ job.status ≠ .stopped := by
  obtain ⟨n, -, hstatus⟩ := Option.map_eq_some_iff.mp (h.noted job hj)
  rw [← hstatus]
  cases n <;> decide

namespace ShellState

variable {s : ShellState} {fits : Prop}

/-- The job on which `fg` or `bg` is invoked by an event. -/
def resumedJob (s : ShellState) : Event → Option Job
  | .proceed _ =>
    match s.phase with
    | .running none (g :: _) => (executePipeline g.1 g.2).bind fun run => run.resumedJob s.books.table
    | _ => none
  | _ => none

/-- If `fg` or `bg` is invoked on a job whose process is stopped, it sends SIGCONT to it. -/
def Resumes (s : ShellState) (e : Event) : Prop :=
  ∀ job, s.resumedJob e = some job → s.books.IsStopped job.pid →
    (s.step e).signals = ((job.pid : Int), 18) :: s.signals

/-- If `fg` or `bg` is invoked on a job whose process is stopped, the shell has heard of the stop. -/
def Informed (s : ShellState) (e : Event) : Prop :=
  ∀ job, s.resumedJob e = some job → s.books.IsStopped job.pid → s.books.HeardStop job.pid

/-- An invocation of `fg` or `bg` on a job. -/
theorem resumedJob_cases {e : Event} {job : Job} (hj : s.resumedJob e = some job) :
    ∃ pids g rest run cmd, e = .proceed pids ∧ s.phase = .running none (g :: rest) ∧
      executePipeline g.1 g.2 = some run ∧ run.action = .single cmd ∧ cmd.runsInShell = true ∧
      (cmd.args.headD [] = fgWord ∨ cmd.args.headD [] = bgWord) ∧
      s.books.table.selected cmd.args.tail = .ok job := by
  cases e with
  | proceed pids =>
    simp only [resumedJob] at hj
    split at hj
    next g rest hphase =>
      obtain ⟨run, hrun, hresumed⟩ := Option.bind_eq_some_iff.mp hj
      unfold PipelineRun.resumedJob at hresumed
      split at hresumed
      next cmd haction =>
        simp only at hresumed
        split at hresumed
        next hname =>
          refine ⟨pids, g, rest, run, cmd, rfl, hphase, hrun, haction, hname.1, hname.2, ?_⟩
          cases hsel : s.books.table.selected cmd.args.tail with
          | error e =>
            rw [hsel] at hresumed
            cases hresumed
          | ok job' =>
            rw [hsel] at hresumed
            cases hresumed
            rfl
        · cases hresumed
      · cases hresumed
    · cases hj
  | _ => cases hj

/-- Exactly the jobs that the table calls stopped are sent SIGCONT. -/
theorem signals_resume (h : s.Consistent fits) {e : Event} {job : Job} (hj : s.resumedJob e = some job) :
    (s.phase.pending = some none ∧ job ∈ s.books.table.jobs) ∧
      (s.step e).signals = if job.status = .stopped then ((job.pid : Int), 18) :: s.signals else s.signals := by
  obtain ⟨pids, g, rest, run, cmd, rfl, hphase, hrun, haction, hshell, hname, hsel⟩ := resumedJob_cases hj
  have hp : s.phase.pending = some none := by
    rw [hphase]
    rfl
  have hmem := selected_mem hsel
  refine ⟨⟨hp, hmem⟩, ?_⟩
  simp only [step, hphase, execute, hrun, haction, hshell, if_true, intrinsic]
  rcases hname with hfg | hbg
  · simp only [hfg, if_true, hsel, cmdFg]
    split <;> rfl
  · have hne : bgWord ≠ fgWord := by decide
    simp only [hbg, hne, if_true, if_false, hsel, cmdBg]
    by_cases hstopped : job.status = .stopped
    · simp only [hstopped, reduceCtorEq, if_true, if_false]
      rfl
    · have hrunning := ((h none hp).1.sound.status_cases hmem).mpr hstopped
      simp only [hrunning, reduceCtorEq, if_true, if_false]

theorem resumes_iff_informed (h : s.Consistent fits) (e : Event) : s.Resumes e ↔ s.Informed e := by
  have hsent : ∀ job, s.resumedJob e = some job →
      ((s.step e).signals = ((job.pid : Int), 18) :: s.signals ↔ s.books.HeardStop job.pid) := by
    intro job hj
    obtain ⟨⟨hp, hmem⟩, hsignals⟩ := signals_resume h hj
    rw [← (h none hp).1.sound.status_iff hmem, hsignals]
    by_cases hstopped : job.status = .stopped
    · simp [hstopped]
    · simp [hstopped, (List.cons_ne_self _ _).symm]
  constructor
  · intro hr job hj hstopped
    exact (hsent job hj).mp (hr job hj hstopped)
  · intro hi job hj hstopped
    exact (hsent job hj).mpr (hi job hj hstopped)

/-- **When stopped jobs are resumed.** In a run of the shell, whatever it is given and happens to
its children, each `fg` and `bg` on a job whose process is stopped sends SIGCONT to it, if and
only if each time the shell has heard of the stop, and nothing of the process since. -/
theorem stopped_resumed_iff (file : Option Text) (events : List Event) :
    Along step Resumes (boot file) events ↔ Along step Informed (boot file) events :=
  Along.iff (I := Consistent False) (fun _ e hs => resumes_iff_informed hs e)
    (fun s e hs _ => step_sound s e hs) (boot_consistent file) events

/-! ## A stop that goes unheard -/

/-- `fg` -/
def fgName : Name := ⟨fgWord, by decide, List.all_eq_true.mp (by decide)⟩

/-- A job is started, it stops after the prompt, and `fg` is typed. -/
def unheardStop : List Event := startLetter 1 ++ [.noReport, .happens 1 .stop, .input [102, 103, 10]]

/-- `fg` does not resume the job. -/
theorem stopped_not_resumed :
    let s := run step (boot none) unheardStop
    (∃ job, s.resumedJob (.proceed []) = some job ∧ job.pid = 1 ∧ s.books.IsStopped job.pid) ∧
      (s.step (.proceed [])).signals = [] := by
  intro s
  let job : Job := ⟨1, 1, [97], .running⟩
  let table : JobTable := { slots := some job :: List.replicate 99 none, nextJobId := 2 }
  have hadd : (boot none).books.table.addJob 1 [97] .running = some table := rfl
  obtain ⟨log, hstart⟩ := run_startLetter rfl (by decide) (by decide) hadd
  let stopped : ShellState :=
    { boot none with
      books := { children := [⟨1, .background, .stopped false⟩], table, notices := [(1, .started)] }
      log
      phase := .reading }
  have hline := readLine_oneWord stopped [102, 103, 10] fgName false (by decide) rfl (by decide)
  have hrun : s = stopped.readLine [102, 103, 10] := by
    simp only [s, unheardStop, run_append, hstart]
    rfl
  have hjob : s.resumedJob (.proceed []) = some job := by
    rw [hrun, hline]
    simp only [resumedJob, executePipeline_oneWord fgName false (by decide), Option.bind_some]
    rfl
  have hs : s.Consistent False := run_inv step_sound (boot_consistent none) _
  refine ⟨⟨job, hjob, rfl, ?_⟩, ?_⟩
  · rw [hrun, hline]
    exact ⟨_, List.mem_singleton_self _, rfl, rfl⟩
  · rw [(signals_resume hs hjob).2, if_neg (by decide), hrun, hline]
    rfl

end ShellState

end OsNetworks.Shell
