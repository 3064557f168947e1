import GpuLibc.Lib.Machine
import GpuLibc.Lib.Counter
import GpuLibc.Lib.ByteMemory
import GpuLibc.Lib.BoundedQueue
import GpuLibc.Uring.Context
import GpuLibc.Uring.Perror
import GpuLibc.Uring.System
import GpuLibc.Uring.Slots
import GpuLibc.Uring.InOrder
import GpuLibc.Uring.Submission
import GpuLibc.Uring.PublishedTail
import GpuLibc.Uring.StoreOrder
import GpuLibc.Uring.Sequential
import GpuLibc.Uring.Queue
import GpuLibc.Uring.Footprint
import GpuLibc.Uring.Lifecycle
import GpuLibc.Uring.Poller
import GpuLibc.Uring.Waker
import GpuLibc.Uring.Rounds
import GpuLibc.Lib.Progress
import GpuLibc.Lib.Linearization
import GpuLibc.Lib.Fairness
import GpuLibc.Uring.Progress
import GpuLibc.Uring.MessagePool
import GpuLibc.Uring.Completion
import GpuLibc.Uring.Teardown
import GpuLibc.Uring.SingleCall
import GpuLibc.Uring.Serial
import GpuLibc.Uring.Shift
import GpuLibc.Uring.DevicePath
import GpuLibc.Uring.NoWait
import GpuLibc.Uring.WaitLoop
import GpuLibc.Uring.Overlapping
import GpuLibc.Uring.Liveness
import GpuLibc.Uring.FewCalls
import GpuLibc.Uring.Threads
import GpuLibc.Uring.Joining
import GpuLibc.Uring.Scripts
import GpuLibc.Uring.Flush
import GpuLibc.Uring.Shutdown
import GpuLibc.Uring.ClosingRounds
import GpuLibc.Uring.Reaper
import GpuLibc.Uring.CompletionPath
import GpuLibc.Uring.ReaperLiveness
import GpuLibc.Uring.EndToEnd
import GpuLibc.Uring.Ledger
import GpuLibc.Uring.Balance
import GpuLibc.Lib.Iterate
import GpuLibc.Lib.FailStop
import GpuLibc.Hsa.Agents
import GpuLibc.Hsa.Discovery
import GpuLibc.Helper.Cli
import GpuLibc.Helper.Grammar
import GpuLibc.Helper.Transcript
import GpuLibc.Helper.BuildScript
import GpuLibc.Hsa.Migration
import GpuLibc.Hsa.Timing
