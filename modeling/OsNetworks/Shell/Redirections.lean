/-
The standard input and output of the programs of a command line. A pipe goes
before a file: only the first stage of a pipeline gets its input file, and only
the last its output file.
-/
import OsNetworks.Shell.Limits
import OsNetworks.Shell.Pipes

namespace OsNetworks.Shell

variable {α : Type}

/-- The commands of a group. -/
def Action.commands : Action → List ParsedCommand
  | .nothing => []
  | .single cmd => [cmd]
  | .pipeline cmds => cmds

section
variable {fs : FileSystem} {cmd : ParsedCommand} {fds : Fds α}

end

/-! ## One child -/

section
variable {fs : FileSystem} {cmd : ParsedCommand} {own : Descriptors α}

end

/-! ## The groups of a line -/

section
variable {fs : FileSystem} {own : Descriptors α} {cmd : ParsedCommand} {i : Nat}

end

end OsNetworks.Shell
