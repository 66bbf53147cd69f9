import Verilua.Lib.TransitionSystem
import Verilua.Lib.EventBus
import Verilua.Scheduler.Basic
import Verilua.Scheduler.Ops
import Verilua.Scheduler.Step
import Verilua.Scheduler.Rules
import Verilua.Scheduler.Bus
import Verilua.Scheduler.Wakeup
import Verilua.Scheduler.Tasks
import Verilua.Scheduler.Removal
import Verilua.Scheduler.Finished
import Verilua.Scheduler.Restart
import Verilua.Lib.Mailbox
import Verilua.Lib.Vec
import Verilua.Put.Basic
import Verilua.Put.Rules
import Verilua.Put.Queue
import Verilua.Put.Agree
import Verilua.Edge.Machine
import Verilua.Edge.Ops
import Verilua.Edge.Invariant
import Verilua.Edge.Merge
import Verilua.Edge.Refine
import Verilua.Join.Basic
import Verilua.Join.View
import Verilua.Put.Priority
import Verilua.Lib.Registry
import Verilua.Clock.Exclusive
import Verilua.Lib.Numeral
import Verilua.Wave.Format
import Verilua.Wave.Agree
import Verilua.Wave.Jit
import Verilua.Wave.JitSound
import Verilua.Wave.Delay
import Verilua.Wave.Punctual
import Verilua.Scheduler.Handles
import Verilua.Scheduler.EdgeWaits
import Verilua.Scheduler.Asks
import Verilua.Scheduler.Inherit
import Verilua.Scheduler.EventWaits
import Verilua.Scheduler.Effect
import Verilua.Scheduler.AlwaysEdge
import Verilua.Join.Tokens
import Verilua.Join.Invariant
import Verilua.Join.Steps
import Verilua.Join.Any
import Verilua.Hierarchy.Cache
import Verilua.Hierarchy.RoundTrip
import Verilua.Hierarchy.Collect
import Verilua.Hierarchy.Agree
import Verilua.Wave.ValueCb
import Verilua.Wave.ValueRules
import Verilua.Wave.Removed
import Verilua.Wave.Notify
import Verilua.Synch.Rules
import Verilua.Synch.Armed
import Verilua.Synch.Settled
import Verilua.Lib.Fixed
import Verilua.SlangCommon.HierPaths
import Verilua.StrBits.Digits
import Verilua.StrBits.Chunks
import Verilua.StrBits.Carry
import Verilua.StrBits.Fields
import Verilua.StrBits.Exact
import Verilua.StrBits.Agree
import Verilua.StrBits.Says
import Verilua.LuaUtils.BitPattern
import Verilua.BitVecs.Runs
import Verilua.Regen.Sound
import Verilua.Bundle.Sealed
import Verilua.Wave.CacheFiles
import Verilua.Lib.Yields
import Verilua.Wellen.Hierarchy
import Verilua.Wellen.Walk
import Verilua.Wellen.Complete
import Verilua.Database.Kept
import Verilua.Dpi.Setters
import Verilua.Dpi.Names
import Verilua.FileManage.RoundTrip
import Verilua.SvBuilder.Layout
import Verilua.Queues.Stranded
import Verilua.Queues.Listed
import Verilua.Queues.Aged
import Verilua.Queues.IDPool
import Verilua.Cross.Permutations
import Verilua.Cross.Product
import Verilua.Cross.Keys
import Verilua.Cross.Sampling
import Verilua.Clock.Waveform
import Verilua.Wave.Lookup
import Verilua.Getters.Unknown
import Verilua.Wellen.Total
import Verilua.LuaUtils.Enum
import Verilua.SignalDB.Lookup
import Verilua.LuaUtils.Copies
import Verilua.Bundle.ModuleGraph
import Verilua.Fsdb.Collects
import Verilua.Fsdb.Flattened
import Verilua.Fsdb.Ranges
import Verilua.Access.Cached
import Verilua.Access.Equal
import Verilua.Coverage.Average
import Verilua.Handles.Reuse
import Verilua.Handles.Notation
import Verilua.Random.CyclicRandom
import Verilua.SignalDB.Insert
import Verilua.Turso.Stale
import Verilua.SvBuilder.Names
import Verilua.Dut.Force
import Verilua.Dpi.Dummy
import Verilua.Dpi.Groups
import Verilua.Dpi.Partition
import Verilua.Coverage.Inert
import Verilua.Access.EdgeLoops
import Verilua.SlangCommon.FileLists
import Verilua.Regen.DpiExporter
import Verilua.Bundle.Envelope
import Verilua.Scheduler.Counters
import Verilua.Scheduler.Listed
import Verilua.Lib.Wording
import Verilua.TestbenchGen.Parser
import Verilua.TestbenchGen.Scopes
import Verilua.LuaBundle.Basic
import Verilua.LuaBundle.AutoBundle
import Verilua.LuaBundle.ViaHierarchy
import Verilua.Random.WeightedRandom
import Verilua.Random.Counted
