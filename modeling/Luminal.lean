import Luminal.Lib.Transition
import Luminal.Lib.Tally
import Luminal.Lib.Fifo
import Luminal.Task
import Luminal.Program
import Luminal.NoStd.Executor
import Luminal.NoStd.Conservation
import Luminal.NoStd.Capacity
import Luminal.NoStd.RoundRobin
import Luminal.NoStd.Exec
import Luminal.NoStd.Loop
import Luminal.NoStd.Family
import Luminal.NoStd.Polls
import Luminal.NoStd.Programs
import Luminal.NoStd.Jobs
import Luminal.NoStd.Nesting
import Luminal.NoStd.Helping
import Luminal.Std.Channel
import Luminal.Std.Worker
import Luminal.Std.Executor
import Luminal.Std.Exec
import Luminal.Std.Effects
import Luminal.Std.Conservation
import Luminal.Std.Delivery
import Luminal.Std.Placement
import Luminal.Std.Handles
import Luminal.Std.Workers
import Luminal.Std.Forget
import Luminal.Std.Programs
import Luminal.Std.SingleWorker
import Luminal.Std.Stealing
import Luminal.Std.Frames
import Luminal.Std.Teardown
import Luminal.Std.Shutdown
import Luminal.Std.Processed
import Luminal.Std.Unwinding
import Luminal.Std.Aftermath
import Luminal.Std.Wakers
import Luminal.NoStd.Accounting
import Luminal.NoStd.Fairness
import Luminal.NoStd.Refused
import Luminal.Lib.Trace
import Luminal.Std.Caller
import Luminal.NoStd.Observed
import Luminal.Agreement
import Luminal.Lib.Streak
import Luminal.Std.Backoff
import Luminal.Std.UntilEmpty
import Luminal.Std.Identifiers
import Luminal.NoStd.Locking
import Luminal.Lib.Boxes
import Luminal.Lib.RefCell
import Luminal.Waker
import Luminal.Std.ThreadRuntime
import Luminal.Lib.Temporal
import Luminal.Std.Stacks
import Luminal.Std.FairRuns
import Luminal.Std.Starvation
import Luminal.Std.Joining
import Luminal.Lib.Custody
import Luminal.Std.Ownership
import Luminal.Std.Returning
import Luminal.Std.Total
import Luminal.Lib.Monitor
import Luminal.Lib.Pool
import Luminal.Turns
import Luminal.Std.Lifecycle
import Luminal.NoStd.Halting
import Luminal.Std.Migration
import Luminal.Std.Quiescence
import Luminal.Std.Pooling
import Luminal.NoStd.Pooling
import Luminal.NoStd.Lockfree
import Luminal.Std.Promptness
