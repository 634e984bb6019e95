import Titan.Engine.Run
import Titan.Engine.PoolSpec
import Titan.Engine.PoolSlots
import Titan.Engine.Volume
import Titan.Engine.Ledger
import Titan.Engine.Priority
import Titan.Engine.Flush
import Titan.Engine.Mirror
import Titan.Engine.NoTrace
import Titan.Engine.Cancel
import Titan.Engine.SlotLimit
import Titan.Engine.Rebuild
import Titan.Engine.Relabel
import Titan.Engine.Effort
import Titan.Engine.Best
import Titan.Engine.Slices
import Titan.Engine.Iterators
import Titan.Commands
import Titan.Gateway.Delivery
import Titan.Gateway.Deadlock
import Titan.Gateway.Handover
import Titan.Gateway.Framing
import Titan.Gateway.Wire
import Titan.Gateway.Lifetime
import Titan.Gateway.Outbound
import Titan.Gateway.Conversation
import Titan.Gateway.Descriptors
import Titan.Gateway.Service
import Titan.Gateway.Client
import Titan.Gateway.Feed
import Titan.Gateway.Determined
import Titan.Gateway.Crowd
import Titan.Gateway.Backlog
import Titan.Queue.SpscSafe
import Titan.Queue.Sequential
import Titan.Queue.Observer
import Titan.Queue.Refine
import Titan.Queue.WaitFree
import Titan.Benchmark.Workload
import Titan.Benchmark.Progress
import Titan.Benchmark.OpenLoop
import Titan.Benchmark.Harness
