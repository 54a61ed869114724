import OsNetworks.Lib.Runs
import OsNetworks.Lib.Refinement
import OsNetworks.Lib.Copying
import OsNetworks.Lib.Channel
import OsNetworks.Lib.LittleEndian
import OsNetworks.Lib.Ring
import OsNetworks.Lib.Descriptors
import OsNetworks.Lib.Descent
import OsNetworks.Lib.Selection
import OsNetworks.Lib.Locks
import OsNetworks.Lib.Slots
import OsNetworks.Lib.ExchangeSort
import OsNetworks.Lib.Journal
import OsNetworks.Lib.Threads
import OsNetworks.Lib.Monitor
import OsNetworks.Lib.LinkedRing
import OsNetworks.Lib.WriteBack
import OsNetworks.Sham.Packet
import OsNetworks.Sham.Client
import OsNetworks.Sham.Timeouts
import OsNetworks.Sham.Server
import OsNetworks.Sham.World
import OsNetworks.Sham.Sender
import OsNetworks.Sham.Transfer
import OsNetworks.Sham.Safety
import OsNetworks.Sham.Handshake
import OsNetworks.Sham.FileCopy
import OsNetworks.Sham.Termination
import OsNetworks.Sham.Capacity
import OsNetworks.Sham.Undersized
import OsNetworks.Sham.Foreign
import OsNetworks.Sham.FlowControl
import OsNetworks.Sham.Retransmission
import OsNetworks.Sham.Loss
import OsNetworks.Sham.Recovery
import OsNetworks.Sham.Acknowledged
import OsNetworks.Shell.Bytes
import OsNetworks.Shell.Parser
import OsNetworks.Shell.Grammar
import OsNetworks.Shell.Recogniser
import OsNetworks.Shell.Executor
import OsNetworks.Shell.Splitting
import OsNetworks.Shell.Words
import OsNetworks.Shell.Execution
import OsNetworks.Shell.Limits
import OsNetworks.Shell.Log
import OsNetworks.Shell.History
import OsNetworks.Shell.Restart
import OsNetworks.Shell.Recursion
import OsNetworks.Shell.Jobs
import OsNetworks.Shell.JobControl
import OsNetworks.Shell.Lines
import OsNetworks.Shell.Bookkeeping
import OsNetworks.Shell.Accounting
import OsNetworks.Shell.Resumption
import OsNetworks.Shell.Children
import OsNetworks.Shell.Pipes
import OsNetworks.Shell.Redirections
import OsNetworks.Shell.Failures
import OsNetworks.Shell.Numbers
import OsNetworks.Shell.LogFilter
import OsNetworks.Shell.Registry
import OsNetworks.Shell.Hop
import OsNetworks.Shell.JobList
import OsNetworks.Sham.Chat
import OsNetworks.Sham.Conversation
import OsNetworks.Xv6.Proc
import OsNetworks.Xv6.Cfs
import OsNetworks.Xv6.Fairness
import OsNetworks.Xv6.TimeSlice
import OsNetworks.Xv6.Stints
import OsNetworks.Xv6.Mlfq
import OsNetworks.Xv6.Fcfs
import OsNetworks.Xv6.Quantum
import OsNetworks.Xv6.FcfsLocks
import OsNetworks.Xv6.MlfqLocks
import OsNetworks.Xv6.CreationOrder
import OsNetworks.Xv6.Concurrent
import OsNetworks.Xv6.FsLog
import OsNetworks.Xv6.CrashSafety
import OsNetworks.Xv6.LogSpace
import OsNetworks.Xv6.SleepWakeup
import OsNetworks.Xv6.Pipe
import OsNetworks.Xv6.SleepLock
import OsNetworks.Xv6.BufferCache
import OsNetworks.Xv6.CacheCoherence
