import Libult.Interleaving.Program
import Libult.Interleaving.WaitFor
import Libult.Interleaving.Census
import Libult.Interleaving.Stored
import Libult.Links.Ring
import Libult.Links.Chain
import Libult.Links.Ledger
import Libult.WaitSync.Memory
import Libult.WaitSync.Code
import Libult.WaitSync.Steps
import Libult.WaitSync.Locks
import Libult.WaitSync.Updates
import Libult.WaitSync.History
import Libult.WaitSync.Pending
import Libult.WaitSync.Ints
import Libult.WaitSync.Stranded
import Libult.WaitSync.Deadlock
import Libult.WaitSync.Barrier
import Libult.WaitSync.Release
import Libult.Condition.Code
import Libult.Condition.Bounds
import Libult.Condition.Tokens
import Libult.Qthreads.Fifo
import Libult.Qthreads.Cond
import Libult.Qthreads.Queue
import Libult.Qthreads.Views
import Libult.Qthreads.Refine
import Libult.Qthreads.Monitor
import Libult.Tsd.Key
import Libult.Tsd.Accounts
import Libult.Tsd.Teardown
import Libult.Tsd.Drain
import Libult.Tsd.Lifetime
import Libult.Tsd.Once
import Libult.Tsd.Values
import Libult.Tsd.Sequence
import Libult.Tsd.Plain
import Libult.Tsd.Failure
import Libult.WaitSync.Throttle
import Libult.Threads.Code
import Libult.Threads.Waiting
import Libult.Threads.Ownership
import Libult.Threads.Wakeup
import Libult.Condition.Deadline
import Libult.Condition.Lines
import Libult.Condition.Accounting
import Libult.Condition.Accounts
import Libult.Condition.Stretches
import Libult.CreateJoin.Handle
import Libult.Interleaving.Solo
import Libult.Interleaving.Ending
import Libult.Interleaving.Points
import Libult.WaitSync.Single
import Libult.Links.Laid
import Libult.WaitSync.Visits
import Libult.WaitSync.CodeSt
import Libult.WaitSync.SweepSt
import Libult.WaitSync.Sweep
import Libult.WaitSync.NoOp
import Libult.WaitSync.Exact
import Libult.WaitSync.Work
import Libult.WaitSync.Rest
import Libult.WaitSync.Monitored
import Libult.WaitSync.Walk
import Libult.WaitSync.OnQthreads
import Libult.WaitSync.Calls
import Libult.WaitSync.Backed
import Libult.Threads.Rest
import Libult.Qthreads.Rest
import Libult.Qthreads.SelfKey
import Libult.Usage.Atomics
import Libult.Usage.Sections
import Libult.Binary64.Nearest
import Libult.Binary64.Rounding
import Libult.Binary64.Operations
import Libult.Pthreads.Nanosecs
import Libult.Pthreads.Yield
