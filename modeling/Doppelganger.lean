import Doppelganger.Types
import Doppelganger.Lib.Run
import Doppelganger.Lib.Links
import Doppelganger.Lib.Ascending
import Doppelganger.Lib.Binary64
import Doppelganger.Lib.Tally
import Doppelganger.Lib.InOrder
import Doppelganger.Lib.LruStack
import Doppelganger.Lib.Reservations
import Doppelganger.Dpg.Array
import Doppelganger.Dpg.Lists
import Doppelganger.Dpg.Evict
import Doppelganger.Dpg.Keyed
import Doppelganger.Dpg.Ops
import Doppelganger.Dpg.History
import Doppelganger.Dpg.Displaced
import Doppelganger.Dpg.Addresses
import Doppelganger.Dpg.Invalidations
import Doppelganger.Dpg.Maps
import Doppelganger.Approx.Tree
import Doppelganger.Approx.Shape
import Doppelganger.Approx.Search
import Doppelganger.Approx.Update
import Doppelganger.Approx.Remove
import Doppelganger.Approx.Map
import Doppelganger.Approx.Regions
import Doppelganger.Approx.Records
import Doppelganger.Mesi.Hierarchy
import Doppelganger.Mesi.Coherent
import Doppelganger.Mesi.Invalidate
import Doppelganger.Mesi.Access
import Doppelganger.Mesi.Requests
import Doppelganger.Mesi.Runs
import Doppelganger.Mesi.SingleWriter
import Doppelganger.Mesi.Race
import Doppelganger.Llc.Arrays
import Doppelganger.Llc.Cache
import Doppelganger.Llc.Routing
import Doppelganger.Llc.Inclusion
import Doppelganger.Sched.Barrier
import Doppelganger.Sched.RunList
import Doppelganger.Sched.Calls
import Doppelganger.Sched.Phases
import Doppelganger.Sched.Futex
import Doppelganger.Sched.Scheduler
import Doppelganger.Sched.Contexts
import Doppelganger.Sched.Queues
import Doppelganger.Sched.Ticks
import Doppelganger.Sched.Entries
import Doppelganger.Sched.Handoffs
import Doppelganger.Weave.PrioQueue
import Doppelganger.Weave.Slots
import Doppelganger.Weave.Pending
import Doppelganger.Weave.Refinement
import Doppelganger.Weave.ContentionSim
import Doppelganger.Weave.Domains
import Doppelganger.Weave.SimThreads
import Doppelganger.Weave.Limits
import Doppelganger.Weave.Children
import Doppelganger.Weave.TimingEvent
import Doppelganger.Weave.EventGraph
import Doppelganger.Weave.EventRuns
import Doppelganger.Weave.SlabAlloc
import Doppelganger.Weave.EventHeap
import Doppelganger.Weave.HeapRuns
import Doppelganger.ZCache.ZArray
import Doppelganger.ZCache.Walk
import Doppelganger.ZCache.Insert
import Doppelganger.L1.FilterCache
import Doppelganger.L1.Hits
import Doppelganger.Trace.AccessTrace
import Doppelganger.Trace.TraceDriver
import Doppelganger.Trace.Proxies
import Doppelganger.Trace.Replay
import Doppelganger.Part.Lookahead
import Doppelganger.Part.Allocation
import Doppelganger.Part.Ways
import Doppelganger.Part.UMon
import Doppelganger.Part.MissCurves
import Doppelganger.Part.WayPart
import Doppelganger.Part.Isolation
import Doppelganger.Part.Vantage
import Doppelganger.Part.VantageSizes
import Doppelganger.Part.Transients
import Doppelganger.Part.UMonNodes
import Doppelganger.Procs.ProcessTree
import Doppelganger.Procs.FastForward
import Doppelganger.Procs.Ffi
import Doppelganger.Procs.Intervals
import Doppelganger.Procs.ProcessStats
import Doppelganger.Procs.ProcStats
import Doppelganger.Events.EventQueue
import Doppelganger.Events.AdaptiveEvent
import Doppelganger.Timing.Ports
import Doppelganger.Timing.Mshrs
import Doppelganger.Repl.Lru
import Doppelganger.Repl.Nru
import Doppelganger.Core.ReorderBuffer
import Doppelganger.Core.Window
import Doppelganger.Core.WindowEntries
import Doppelganger.Core.WindowTable
import Doppelganger.Core.WindowRuns
import Doppelganger.Dram.Controller
import Doppelganger.Dram.Cycles
import Doppelganger.Dram.DDRMemory
import Doppelganger.Dram.Requests
import Doppelganger.Dram.Queueing
import Doppelganger.Dram.Scheduling
import Doppelganger.Dram.Ticks
import Doppelganger.Dram.SchedEvents
import Doppelganger.Dram.Wakeups
import Doppelganger.Dram.Drains
import Doppelganger.Dram.Service
import Doppelganger.Dram.Commands
import Doppelganger.Dram.Issues
import Doppelganger.Dram.Spacing
import Doppelganger.Dram.ActWindows
import Doppelganger.Dram.Activations
import Doppelganger.Dram.Clocks
import Doppelganger.Dram.AddressMap
import Doppelganger.Detailed.MemParam
import Doppelganger.Detailed.AddressMap
import Doppelganger.Detailed.Channel
import Doppelganger.Detailed.DataBus
import Doppelganger.Detailed.Scheduler
import Doppelganger.Detailed.SchedulerQueues
import Doppelganger.Detailed.Latencies
import Doppelganger.Ooo.Recorder
import Doppelganger.Ooo.Chain
import Doppelganger.Ooo.Phases
import Doppelganger.Ooo.Skew
import Doppelganger.Ooo.Runs
import Doppelganger.Virt.Ports
import Doppelganger.Virt.Clocks
import Doppelganger.Virt.Nanosleep
import Doppelganger.Virt.Timeout
import Doppelganger.Virt.Retries
import Doppelganger.Sched.Watchdog
import Doppelganger.Sched.SleepQueue
import Doppelganger.Sched.SleepCalls
import Doppelganger.Sched.Sleepers
import Doppelganger.Sched.Progress
import Doppelganger.Timing.Records
import Doppelganger.Timing.MissStarts
import Doppelganger.Weave.Storage
import Doppelganger.Weave.Crossings
import Doppelganger.Weave.Chains
import Doppelganger.Weave.CrossingRuns
import Doppelganger.Intrusive.InList
import Doppelganger.Intrusive.ListRuns
import Doppelganger.Dram.BankQueues
import Doppelganger.Dram.BankOrder
import Doppelganger.Lib.Merge
import Doppelganger.Trace.SortTrace
import Doppelganger.Trace.SortRuns
import Doppelganger.Ideal.LruArray
import Doppelganger.Ideal.LruPart
import Doppelganger.Lib.BitSums
import Doppelganger.Hash.H3
import Doppelganger.Hash.H3Reference
import Doppelganger.Lib.SignedWords
import Doppelganger.Prefetch.StreamPrefetcher
import Doppelganger.Prefetch.Streams
import Doppelganger.Lib.Splitting
import Doppelganger.Config.ParseMask
import Doppelganger.Config.Spans
import Doppelganger.Config.Masks
import Doppelganger.Core.BranchPredictor
import Doppelganger.Core.OooBuffers
import Doppelganger.Core.OooCore
import Doppelganger.Core.OooOrder
import Doppelganger.Core.OooRuns
import Doppelganger.Core.PredictorRuns
import Doppelganger.Core.WindowClock
import Doppelganger.Lib.Charges
import Doppelganger.Lib.Largest
import Doppelganger.Lib.Radix
import Doppelganger.Lib.Roles
import Doppelganger.Lib.Slots
import Doppelganger.Locks.Futex
import Doppelganger.Locks.RwMutex
import Doppelganger.Locks.Ticket
import Doppelganger.Decoder.Blocks
import Doppelganger.Decoder.Cycles
import Doppelganger.Decoder.Dataflow
import Doppelganger.Decoder.Decode
import Doppelganger.Decoder.Emit
import Doppelganger.Decoder.Templates
import Doppelganger.Lib.Flow
import Doppelganger.Hierarchy.Groups
import Doppelganger.Hierarchy.InitSystem
import Doppelganger.Hierarchy.Wiring
import Doppelganger.Lib.Forest
import Doppelganger.Lib.Outcome
import Doppelganger.Repl.LruSets
import Doppelganger.Repl.SetAssoc
import Doppelganger.Stats.Hdf5
import Doppelganger.Stats.Hdf5Runs
import Doppelganger.Stats.Hdf5Reads
