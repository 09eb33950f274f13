import SplitsSubgraph.Lib.Text
import SplitsSubgraph.Lib.Table
import SplitsSubgraph.Lib.Overlay
import SplitsSubgraph.Lib.RangeTable
import SplitsSubgraph.Lib.WriteBehind
import SplitsSubgraph.Lib.Program
import SplitsSubgraph.Lib.Sweep
import SplitsSubgraph.Lib.Replay
import SplitsSubgraph.Lib.Scale
import SplitsSubgraph.Lib.StableSort
import SplitsSubgraph.Ids
import SplitsSubgraph.Schema
import SplitsSubgraph.Store
import SplitsSubgraph.Validation
import SplitsSubgraph.Mapping
import SplitsSubgraph.Create
import SplitsSubgraph.Withdraw
import SplitsSubgraph.Distribute
import SplitsSubgraph.Ledger
import SplitsSubgraph.Refine
import SplitsSubgraph.Simulate
import SplitsSubgraph.Keys
import SplitsSubgraph.Commute
import SplitsSubgraph.Atomicity
import SplitsSubgraph.History
import SplitsSubgraph.Bounds
import SplitsSubgraph.Announce
import SplitsSubgraph.Settlement
import SplitsSubgraph.Completeness
import SplitsSubgraph.Integrity
import SplitsSubgraph.ClosedForm
import SplitsSubgraph.Conservation
import SplitsSubgraph.Drift
import SplitsSubgraph.Delivery
import SplitsSubgraph.TriggerOrder
import SplitsSubgraph.LfuCache
import SplitsSubgraph.Eviction
import SplitsSubgraph.EntityCache
import SplitsSubgraph.CacheView
import SplitsSubgraph.Modifications
import SplitsSubgraph.Normal
import SplitsSubgraph.HostExports
import SplitsSubgraph.HostRuns
import SplitsSubgraph.Runner
import SplitsSubgraph.Relational
import SplitsSubgraph.Deployment
import SplitsSubgraph.WriteQueue
import SplitsSubgraph.QueueReads
import SplitsSubgraph.QueueRuns
import SplitsSubgraph.Canonical
import SplitsSubgraph.BlockRuns
import SplitsSubgraph.Redaction
import SplitsSubgraph.EntityClass
import SplitsSubgraph.Handlers
import SplitsSubgraph.HandlerRuns
import SplitsSubgraph.Indexing
import SplitsSubgraph.SplitsIndexing
