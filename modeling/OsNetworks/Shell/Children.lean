/-
The descriptors of the programs that a command line starts: what
`execute_single_command` and `execute_pipeline` do with pipes and files between
`fork` and `execvp`, and what the shell closes afterwards. Pipes and forks
succeed. Each process changes a table of its own, so the order in which they
run does not matter.
-/
import OsNetworks.Lib.Descriptors
import OsNetworks.Shell.Executor

namespace OsNetworks.Shell

/-- What a descriptor refers to. -/
inductive OpenFile (α : Type) where
  /-- a file that the shell had open before -/
  | inherited (file : α)
  | readEnd (pipe : Nat)
  | writeEnd (pipe : Nat)
  | reading (path : Text)
  | writing (path : Text) (append : Bool)
  deriving DecidableEq, Repr

/-- The descriptors of a process. -/
abbrev Fds (α : Type) := Descriptors (OpenFile α)

/-- Which files `open` opens. -/
structure FileSystem where
  canRead : Text → Bool
  canWrite : Text → Bool

section
variable {α : Type}

/-! ## One child -/

/-- `if (cmd->input_file)`; the child exits if the file cannot be opened. -/
def redirectInput (fs : FileSystem) (cmd : ParsedCommand) (fds : Fds α) : Option (Fds α) :=
  match cmd.inputFile with
  | none => some fds
  | some path => if fs.canRead path then some (fds.redirect (.reading path) 0) else none

/-- `if (cmd->output_file)` -/
def redirectOutput (fs : FileSystem) (cmd : ParsedCommand) (fds : Fds α) : Option (Fds α) :=
  match cmd.outputFile with
  | none => some fds
  | some path => if fs.canWrite path then some (fds.redirect (.writing path cmd.appendOutput) 1) else none

/-- `"/dev/null"` -/
def devNull : Text := [47, 100, 101, 118, 47, 110, 117, 108, 108]

/-- The child of `execute_single_command`, up to `execvp`. -/
def singleChild (fs : FileSystem) (cmd : ParsedCommand) (background : Bool) (fds : Fds α) : Option (Fds α) :=
  (redirectInput fs cmd fds).bind fun fds =>
    (redirectOutput fs cmd fds).map fun fds =>
      if background && fs.canRead devNull then fds.redirect (.reading devNull) 0 else fds

/-! ## The children of a pipeline -/

/-- `pipe(pipes[i])` -/
def openPipe (i : Nat) (fds : Fds α) : Fds α × (Nat × Nat) :=
  let reading := fds.openFile (.readEnd i)
  let writing := reading.1.openFile (.writeEnd i)
  (writing.1, (reading.2, writing.2))

/-- The first `n` pipes. -/
def createPipes : (n : Nat) → Fds α → Fds α × List (Nat × Nat)
  | 0, fds => (fds, [])
  | n + 1, fds =>
    let made := createPipes n fds
    let new := openPipe n made.1
    (new.1, made.2 ++ [new.2])

/-- All descriptors of pipes, in the order in which they are closed. -/
def pipeFds (pipes : List (Nat × Nat)) : List Nat := pipes.flatMap fun p => [p.1, p.2]

/-- The pipes of stage `i` of `count` become its standard input and output. -/
def connectPipes (pipes : List (Nat × Nat)) (i count : Nat) (fds : Fds α) : Fds α :=
  let fds := if 0 < i then fds.dup2 (pipes.getD (i - 1) (0, 0)).1 0 else fds
  let fds := if i < count - 1 then fds.dup2 (pipes.getD i (0, 0)).2 1 else fds
  Descriptors.closeAll (pipeFds pipes) fds

/-- The child of stage `i`, up to `execvp`. -/
def stageChild (fs : FileSystem) (pipes : List (Nat × Nat)) (i count : Nat) (cmd : ParsedCommand) (fds : Fds α) :
    Option (Fds α) :=
  let fds := connectPipes pipes i count fds
  (if i = 0 then redirectInput fs cmd fds else some fds).bind fun fds =>
    if i = count - 1 then redirectOutput fs cmd fds else some fds

/-! ## All processes -/

/-- A stage of a group, and the descriptors of its program; `none` if it exits before. -/
structure Child (α : Type) where
  stage : Nat
  cmd : ParsedCommand
  fds : Option (Fds α)

/-- The shell and its new children after a call of `execute_pipeline`. -/
structure Started (α : Type) where
  shell : Fds α
  children : List (Child α)

/-- The forks of a pipeline; a stage without a command is passed over. -/
def startPipeline (fs : FileSystem) (cmds : List ParsedCommand) (shell : Fds α) : Started α :=
  let made := createPipes (cmds.length - 1) shell
  { shell := Descriptors.closeAll (pipeFds made.2) made.1
    children := (cmds.zipIdx.filter fun c => c.1.args ≠ []).map fun c =>
      { stage := c.2, cmd := c.1, fds := stageChild fs made.2 c.2 cmds.length c.1 made.1 } }

def PipelineRun.start (fs : FileSystem) (run : PipelineRun) (shell : Fds α) : Started α :=
  match run.action with
  | .nothing => { shell, children := [] }
  | .single cmd =>
    if cmd.runsInShell then { shell, children := [] }
    else { shell, children := [{ stage := 0, cmd, fds := singleChild fs cmd run.background shell }] }
  | .pipeline cmds => startPipeline fs cmds shell

end

end OsNetworks.Shell
