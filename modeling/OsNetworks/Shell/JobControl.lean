/-
The shell as a machine: its main loop, the commands that start, stop, resume
and await processes, and the handlers of Ctrl-C and Ctrl-Z. Between any two
steps of the shell anything may happen to its children.

A call of `waitpid` that blocks is a state in which the shell does not go on.
The forks of one pipeline are one step, since the shell looks at none of the
children meanwhile. Forks and pipes succeed.
-/
import OsNetworks.Shell.Jobs
import OsNetworks.Shell.Restart

namespace OsNetworks.Shell
open OsNetworks

/-! ## The arguments of the commands -/

/-- Why `fg` or `bg` does nothing. -/
inductive JobError where
  | noSuchJob
  | invalidSyntax
  | alreadyRunning
  deriving DecidableEq, Repr

/-- What is then printed by the command of the given name. -/
def JobError.output (name : String) : JobError → String
  | .noSuchJob => "No such job\n"
  | .invalidSyntax => name ++ ": Invalid Syntax!\n"
  | .alreadyRunning => "Job already running\n"

/-- `job_id`, from the arguments after the word `fg` or `bg`. -/
def JobTable.jobNumber (t : JobTable) : (args : List Text) → Except JobError Int
  | [] => if t.mostRecentJobId = -1 then .error .noSuchJob else .ok t.mostRecentJobId
  | [word] =>
    let job := strtol word
    if job.2 ≠ [] ∨ job.1 ≤ 0 then .error .noSuchJob else .ok (toInt job.1)
  | _ => .error .invalidSyntax

/-- `job` -/
def JobTable.selected (t : JobTable) (args : List Text) : Except JobError Job :=
  match t.jobNumber args with
  | .error e => .error e
  | .ok jobId =>
    match t.getJob jobId with
    | none => .error .noSuchJob
    | some job => .ok job

/-- The arguments of `kill` in `cmd_ping`; `none` is a syntax error. -/
def pingArgs : (args : List Text) → Option (Int × Int)
  | [word, number] =>
    let pid := strtol word
    let signal := strtol number
    if pid.2 ≠ [] ∨ pid.1 ≤ 0 ∨ signal.2 ≠ [] then none else some (toInt pid.1, signal.1.tmod 32)
  | _ => none

/-! ## States -/

/-- What is left of a call of `execute_pipeline`. -/
inductive Pending where
  /-- `add_job` -/
  | addJob (pid : Nat) (command : Text) (status : JobStatus)
  /-- `waitpid` for a simple command -/
  | awaitForeground (pid : Nat) (command : Text)
  /-- `waitpid` for the stages of a pipeline -/
  | awaitStages (pids : List Nat)
  /-- `waitpid` in `cmd_fg` -/
  | awaitJob (jobId pid : Nat)
  deriving DecidableEq, Repr

inductive Phase where
  /-- `check_background_jobs` -/
  | checking
  /-- `fgets` -/
  | reading
  /-- `todo` are the groups that the active calls of `execute_full_command` have still to run, the
  innermost call first. -/
  | running (pending : Option Pending) (todo : List (Text × Bool))
  /-- an array was overrun or a counter overflowed, and the behaviour is undefined -/
  | lost
  /-- after the end of the input -/
  | ended
  deriving DecidableEq, Repr

/-- No command is being executed. -/
def Phase.BetweenCommands : Phase → Prop
  | .checking | .reading | .running none _ => True
  | _ => False

structure ShellState where
  books : Books
  /-- `foreground_pid`, or `none` for -1 -/
  foreground : Option Nat
  log : Log
  phase : Phase
  /-- the calls of `kill`, the last one first -/
  signals : List (Int × Int)

/-- What the shell meets with. -/
inductive Event where
  | happens (pid : Nat) (change : Change)
  /-- `waitpid` in `check_background_jobs` reports a child -/
  | report (pid : Nat)
  /-- it has nothing more to report -/
  | noReport
  /-- `fgets` takes a line of what is left of the input; there is nothing left at its end -/
  | input (stdin : Text)
  /-- `fgets` fails otherwise -/
  | readError
  | ctrlC
  | ctrlZ
  /-- The shell goes on, and forks return the ids `pids`. -/
  | proceed (pids : List Nat)
  deriving DecidableEq, Repr

namespace ShellState

def boot (file : Option Text) : ShellState where
  books := {}
  foreground := none
  log := Log.boot file
  phase := .checking
  signals := []

/-- `kill(pid, signal)`. What a process does upon a signal that it may handle, or that is sent to
more than one process, happens by itself. -/
def kill (s : ShellState) (pid signal : Int) : ShellState :=
  { s with
    signals := (pid, signal) :: s.signals
    books :=
      match Change.ofSignal signal with
      | some change => if 0 < pid then s.books.change pid.toNat change.apply else s.books
      | none => s.books }

/-! ## Handlers -/

/-- `sigint_handler` -/
def sigint (s : ShellState) : ShellState :=
  match s.foreground with
  | none => s
  | some pid => s.kill pid 2

/-- `sigtstp_handler` -/
def sigtstp (s : ShellState) : ShellState :=
  match s.foreground with
  | none => s
  | some pid => { s.kill pid 20 with books := s.books.markPid pid .interrupted, foreground := none }

/-! ## The commands that the shell runs itself -/

/-- `cmd_fg`, up to `waitpid`. -/
def cmdFg (s : ShellState) (job : Job) (rest : List (Text × Bool)) : ShellState :=
  let s := if job.status = .stopped then s.kill job.pid 18 else s
  { s with
    books := s.books.mark job.jobId job.pid .resumed
    foreground := some job.pid
    phase := .running (some (.awaitJob job.jobId job.pid)) rest }

/-- `cmd_bg` -/
def cmdBg (s : ShellState) (job : Job) : Except JobError ShellState :=
  if job.status = .running then .error .alreadyRunning
  else
    let s := s.kill job.pid 18
    .ok { s with books := s.books.mark job.jobId job.pid .resumed }

/-- `execute_intrinsic`; `hop`, `reveal` and `activities` change nothing of the state. -/
def intrinsic (s : ShellState) (args : List Text) (rest : List (Text × Bool)) : ShellState :=
  let name := args.headD []
  let next : ShellState := { s with phase := .running none rest }
  if name = fgWord then
    match s.books.table.selected args.tail with
    | .error _ => next
    | .ok job => s.cmdFg job rest
  else if name = bgWord then
    match s.books.table.selected args.tail with
    | .error _ => next
    | .ok job =>
      match next.cmdBg job with
      | .error _ => next
      | .ok s => s
  else if name = pingWord then
    match pingArgs args.tail with
    | none => next
    | some (pid, signal) => next.kill pid signal
  else if name = logWord then
    let r := cmdLog s.log args.tail
    match r.2 with
    | .executed entry =>
      match splitGroups entry.bytes with
      | none => { s with phase := .lost }
      | some groups => { s with log := r.1, phase := .running none (groups ++ rest) }
    | _ => { next with log := r.1 }
  else next

/-! ## The commands that are started -/

/-- `execute_single_command`, up to `add_job` or `waitpid`. -/
def single (s : ShellState) (cmd : ParsedCommand) (background : Bool) (pid : Nat) (rest : List (Text × Bool)) :
    ShellState :=
  let command := cmd.args.headD []
  if background then
    { s with
      books := s.books.fork pid .background
      phase := .running (some (.addJob pid command .running)) rest }
  else
    { s with
      books := s.books.fork pid .foreground
      foreground := some pid
      phase := .running (some (.awaitForeground pid command)) rest }

/-- `execute_pipeline` for more than one stage, up to `add_job` or the first `waitpid`; a stage
without a command would leave `pids` uninitialised there. -/
def pipeline (s : ShellState) (cmds : List ParsedCommand) (background : Bool) (pids : List Nat)
    (rest : List (Text × Bool)) : ShellState :=
  if ∃ cmd ∈ cmds, cmd.args = [] then { s with phase := .lost }
  else if background then
    match pids.getLast?, cmds.getLast? with
    | some last, some cmd =>
      { s with
        books := (s.books.forkStages pids.dropLast).fork last .background
        phase := .running (some (.addJob last (cmd.args.headD []) .running)) rest }
    | _, _ => s
  else { s with books := s.books.forkStages pids, phase := .running (some (.awaitStages pids)) rest }

/-- `execute_pipeline` for the group `g`. -/
def execute (s : ShellState) (g : Text × Bool) (rest : List (Text × Bool)) (pids : List Nat) : ShellState :=
  match executePipeline g.1 g.2 with
  | none => { s with phase := .lost }
  | some run =>
    match run.action with
    | .nothing => { s with phase := .running none rest }
    | .single cmd =>
      if cmd.runsInShell then s.intrinsic cmd.args rest
      else
        match pids with
        | [pid] => if s.books.Fresh [pid] then s.single cmd run.background pid rest else s
        | _ => s
    | .pipeline cmds =>
      if pids.length = cmds.length ∧ s.books.Fresh pids then s.pipeline cmds run.background pids rest else s

/-! ## Waiting -/

/-- The shell goes on with what was pending, unless `waitpid` blocks. -/
def resolve (s : ShellState) (rest : List (Text × Bool)) : Pending → ShellState
  | .addJob pid command status =>
    match s.books.table.addJob pid command status with
    | none => { s with phase := .lost }
    | some table => { s with books := { s.books with table }, phase := .running none rest }
  | .awaitForeground pid command =>
    match (s.books.child pid).map ChildProcess.state with
    | some .exited => { s with books := s.books.reap pid, foreground := none, phase := .running none rest }
    | some (.stopped false) =>
      { s with
        books := ((s.books.change pid .report).suspend pid).note pid .stopped
        foreground := none
        phase := .running (some (.addJob pid command .stopped)) rest }
    | some _ => s
    | none => { s with phase := .lost }
  | .awaitStages [] => { s with phase := .running none rest }
  | .awaitStages (pid :: pids) =>
    let next : ShellState := { s with phase := .running (some (.awaitStages pids)) rest }
    match (s.books.child pid).map ChildProcess.state with
    | some .exited => { next with books := s.books.reap pid }
    | some _ => s
    | none => next
  | .awaitJob jobId pid =>
    let next : ShellState := { s with foreground := none, phase := .running none rest }
    match (s.books.child pid).map ChildProcess.state with
    | some .exited => { next with books := { s.books.reap pid with table := s.books.table.removeJob jobId } }
    | some (.stopped false) => { next with books := (s.books.change pid .report).mark jobId pid .stopped }
    | some _ => s
    | none => { s with phase := .lost }

/-! ## The main loop -/

/-- A line of the input, up to the loop over its groups. -/
def readLine (s : ShellState) (stdin : Text) : ShellState :=
  let trimmed := (Line.read stdin).skipBlanks
  if stdin = [] then { s with phase := .ended }
  else if isIgnored trimmed.bytes then { s with phase := .checking }
  else
    let s := { s with log := logAddCommand s.log trimmed }
    if parseInput trimmed.bytes then
      match splitGroups trimmed.bytes with
      | none => { s with phase := .lost }
      | some groups => { s with phase := .running none groups }
    else { s with phase := .checking }

/-- An event that cannot take place in a state leaves it unchanged. -/
def step (s : ShellState) : Event → ShellState
  | .happens pid change => { s with books := s.books.change pid change.apply }
  | .ctrlC => s.sigint
  | .ctrlZ => s.sigtstp
  | .report pid =>
    match s.phase with
    | .checking => { s with books := s.books.check pid }
    | _ => s
  | .noReport =>
    match s.phase with
    | .checking => if ∃ c ∈ s.books.children, c.state.pending then s else { s with phase := .reading }
    | _ => s
  | .input stdin =>
    match s.phase with
    | .reading => s.readLine stdin
    | _ => s
  | .readError =>
    match s.phase with
    | .reading => { s with phase := .checking }
    | _ => s
  | .proceed pids =>
    match s.phase with
    | .running (some pending) rest => s.resolve rest pending
    | .running none (g :: rest) => s.execute g rest pids
    | .running none [] => { s with phase := .checking }
    | _ => s

/-! ## What a command can do -/

section
variable {rest : List (Text × Bool)}

/-- A command that the shell runs itself. -/
theorem intrinsic_cases (s : ShellState) (args : List Text) :
    let next : ShellState := { s with phase := .running none rest }
    s.intrinsic args rest = next ∨
      (∃ job, s.books.table.selected args.tail = .ok job ∧ s.intrinsic args rest = s.cmdFg job rest) ∨
      (∃ job, s.books.table.selected args.tail = .ok job ∧ next.cmdBg job = .ok (s.intrinsic args rest)) ∨
      (∃ pid signal, s.intrinsic args rest = next.kill pid signal) ∨
      args.headD [] = logWord ∧ (s.intrinsic args rest = { s with phase := .lost } ∨
        ∃ groups, s.intrinsic args rest =
          { s with log := (cmdLog s.log args.tail).1, phase := .running none groups }) := by
  unfold intrinsic
  simp only
  split
  · cases hsel : s.books.table.selected args.tail with
    | error e => exact .inl rfl
    | ok job => exact .inr (.inl ⟨job, rfl, rfl⟩)
  split
  · cases hsel : s.books.table.selected args.tail with
    | error e => exact .inl rfl
    | ok job =>
      simp only
      cases hbg : cmdBg { s with phase := .running none rest } job with
      | error e => exact .inl rfl
      | ok s' => exact .inr (.inr (.inl ⟨job, rfl, hbg⟩))
  split
  · split
    · exact .inl rfl
    next pid signal _ => exact .inr (.inr (.inr (.inl ⟨pid, signal, rfl⟩)))
  split
  next hlog =>
    refine .inr (.inr (.inr (.inr ⟨hlog, ?_⟩)))
    split
    · split
      · exact .inl rfl
      next groups _ => exact .inr ⟨groups ++ rest, rfl⟩
    · exact .inr ⟨rest, rfl⟩
  · exact .inl rfl

/-- A group; it waits if the ids are not those of new processes. -/
theorem execute_cases (s : ShellState) (g : Text × Bool) (pids : List Nat) :
    s.execute g rest pids = s ∨ s.execute g rest pids = { s with phase := .lost } ∨
      ∃ run, executePipeline g.1 g.2 = some run ∧
        (run.action = .nothing ∧ s.execute g rest pids = { s with phase := .running none rest } ∨
          (∃ cmd, run.action = .single cmd ∧ cmd.runsInShell = true ∧
            s.execute g rest pids = s.intrinsic cmd.args rest) ∨
          (∃ cmd pid, run.action = .single cmd ∧ cmd.runsInShell = false ∧ s.books.Fresh [pid] ∧
            s.execute g rest pids = s.single cmd run.background pid rest) ∨
          ∃ cmds, run.action = .pipeline cmds ∧ s.books.Fresh pids ∧
            s.execute g rest pids = s.pipeline cmds run.background pids rest) := by
  unfold execute
  split
  · exact .inr (.inl rfl)
  next run hrun =>
    split
    next ha => exact .inr (.inr ⟨run, hrun, .inl ⟨ha, rfl⟩⟩)
    next cmd ha =>
      split
      next hshell => exact .inr (.inr ⟨run, hrun, .inr (.inl ⟨cmd, ha, hshell, rfl⟩)⟩)
      next hshell =>
        split
        next pid =>
          split
          next hfresh =>
            have hshell := Bool.eq_false_iff.mpr hshell
            exact .inr (.inr ⟨run, hrun, .inr (.inr (.inl ⟨cmd, pid, ha, hshell, hfresh, rfl⟩))⟩)
          · exact .inl rfl
        · exact .inl rfl
    next cmds ha =>
      split
      next hfresh => exact .inr (.inr ⟨run, hrun, .inr (.inr (.inr ⟨cmds, ha, hfresh.2, rfl⟩))⟩)
      · exact .inl rfl

end

end ShellState

end OsNetworks.Shell
