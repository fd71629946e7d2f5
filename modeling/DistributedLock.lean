import DistributedLock.Library.Decimal
import DistributedLock.Library.Http
import DistributedLock.Library.Json
import DistributedLock.Library.JsonRoundTrip
import DistributedLock.Library.JsonText
import DistributedLock.Library.Lists
import DistributedLock.Library.Progress
import DistributedLock.Library.Quorum
import DistributedLock.Library.Replay
import DistributedLock.Library.Simulation
import DistributedLock.Library.Stamped
import DistributedLock.Library.System
import DistributedLock.Library.Timeline
import DistributedLock.Library.UnorderedMap
import DistributedLock.Library.Vectors
import DistributedLock.Raft.Apply
import DistributedLock.Raft.Ballots
import DistributedLock.Raft.ElectionSafety
import DistributedLock.Raft.Events
import DistributedLock.Raft.FreshRuns
import DistributedLock.Raft.LeaderHints
import DistributedLock.Raft.LogMatching
import DistributedLock.Raft.Propose
import DistributedLock.Raft.Repair
import DistributedLock.Raft.Replication
import DistributedLock.Raft.Retention
import DistributedLock.Raft.StateMachineSafety
import DistributedLock.Service.Agreement
import DistributedLock.Service.Answers
import DistributedLock.Service.Calm
import DistributedLock.Service.Deployment
import DistributedLock.Service.Discovery
import DistributedLock.Service.Durability
import DistributedLock.Service.EscapeJson
import DistributedLock.Service.Intervals
import DistributedLock.Service.LeaderSweep
import DistributedLock.Service.MutualExclusion
import DistributedLock.Service.NoLeak
import DistributedLock.Service.Orphans
import DistributedLock.Service.PointId
import DistributedLock.Service.Progress
import DistributedLock.Service.Proxy
import DistributedLock.Service.Qdrant
import DistributedLock.Service.QdrantBody
import DistributedLock.Service.Refinement
import DistributedLock.Service.SelfConflict
import DistributedLock.Service.SessionLog
import DistributedLock.Table.Acquire
import DistributedLock.Table.Apart
import DistributedLock.Table.Blocking
import DistributedLock.Table.Cosine
import DistributedLock.Table.Events
import DistributedLock.Table.Fifo
import DistributedLock.Table.Readmission
import DistributedLock.Table.Rollback
import DistributedLock.Table.Sessions
