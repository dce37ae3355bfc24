import OsLab.Foundation.Runs
import OsLab.Foundation.Sorting
import OsLab.Foundation.Extents
import OsLab.Foundation.Holdings
import OsLab.Foundation.Histories
import OsLab.Foundation.Ring
import OsLab.Foundation.Recency
import OsLab.Foundation.Logged
import OsLab.Partition.Model
import OsLab.Partition.FreeList
import OsLab.Partition.Compaction
import OsLab.Partition.Allocation
import OsLab.Partition.Release
import OsLab.Partition.Disjointness
import OsLab.Partition.Conservation
import OsLab.Partition.Outcomes
import OsLab.Partition.Placement
import OsLab.Partition.Garbage
import OsLab.Partition.Observed
import OsLab.Partition.Events
import OsLab.MessageQueue.Model
import OsLab.MessageQueue.Protocol
import OsLab.MessageQueue.Accounting
import OsLab.MessageQueue.Capacity
import OsLab.MessageQueue.Delivery
import OsLab.MessageQueue.Wakeup
import OsLab.Paging.Model
import OsLab.Paging.Fifo
import OsLab.Paging.Lru
import OsLab.MessageQueue.LostRaces
import OsLab.MessageQueue.Sequential
import OsLab.Globalvar.Model
import OsLab.Globalvar.Section
import OsLab.Globalvar.Bounds
import OsLab.Globalvar.Stream
import OsLab.Globalvar.Flag
import OsLab.Foundation.Coalesced
import OsLab.Partition.Coalescing
import OsLab.Partition.Termination
import OsLab.Partition.Gathering
import OsLab.Foundation.Replacement
import OsLab.Paging.Conservative
import OsLab.Paging.Renaming
import OsLab.Spinlock.Counting
import OsLab.Signals.Model
import OsLab.Signals.Steps
import OsLab.Signals.Ready
import OsLab.Signals.Pause
import OsLab.Foundation.Competitive
import OsLab.Paging.Competitive
import OsLab.Pipe.Counting
import OsLab.Pipe.Output
import OsLab.Foundation.Progress
import OsLab.Pipe.Completion
import OsLab.Counter.Counting
import OsLab.Counter.Race
import OsLab.Counter.Semaphore
import OsLab.Foundation.Unwinding
import OsLab.MessageQueue.Ownership
import OsLab.MessageQueue.Module
import OsLab.Globalvar.Module
import OsLab.Syscall.Patch
import OsLab.Foundation.Heap
import OsLab.Partition.Linked
import OsLab.Partition.LinkedFree
import OsLab.Partition.LinkedOwned
import OsLab.Partition.LinkedMenu
import OsLab.Foundation.Agreement
import OsLab.Partition.LinkedSession
import OsLab.MessageQueue.Clients
import OsLab.MessageQueue.Input
import OsLab.MessageQueue.Conversation
import OsLab.Execve.Frees
import OsLab.MessageQueue.OpenFiles
