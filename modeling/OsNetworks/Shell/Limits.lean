/-
When executing an accepted line stays inside the arrays of the executor.

The loops that fill `cmd_groups` and `backgrounds`, `commands`, `pipes` and
`pids`, and `args` count without a test, and a line of 4095 bytes has room for
more groups, stages and names than they have elements.
-/
import OsNetworks.Shell.Execution

namespace OsNetworks.Shell

end OsNetworks.Shell
