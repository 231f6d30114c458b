import CardinalityTracker.Lib.Runs
import CardinalityTracker.Lib.JoinFold
import CardinalityTracker.Lib.WriteThrough
import CardinalityTracker.Lib.OrderedMap
import CardinalityTracker.Lib.Uvarint
import CardinalityTracker.Lib.Circle
import CardinalityTracker.Lib.Selection
import CardinalityTracker.Lib.RwMutex
import CardinalityTracker.Go
import CardinalityTracker.Sketch
import CardinalityTracker.Bitmap
import CardinalityTracker.Hll
import CardinalityTracker.HllTheorems
import CardinalityTracker.HllFormat
import CardinalityTracker.HllEstimate
import CardinalityTracker.HllSmall
import CardinalityTracker.Store
import CardinalityTracker.Engine
import CardinalityTracker.EngineTheorems
import CardinalityTracker.EngineFailures
import CardinalityTracker.EngineRuns
import CardinalityTracker.HllRange
import CardinalityTracker.Collector
import CardinalityTracker.Concurrent
import CardinalityTracker.Recovery
import CardinalityTracker.Startup
import CardinalityTracker.Handler
import CardinalityTracker.HandlerTheorems
import CardinalityTracker.Decoding
import CardinalityTracker.Router
import CardinalityTracker.RouterTheorems
import CardinalityTracker.ConcurrentRing
import CardinalityTracker.ConcurrentPeers
import CardinalityTracker.Rebalancing
import CardinalityTracker.RingHistory
import CardinalityTracker.Server
import CardinalityTracker.ServerTheorems
import CardinalityTracker.Observability
import CardinalityTracker.ObservabilityTheorems
import CardinalityTracker.Forwarding
import CardinalityTracker.Sharding
import CardinalityTracker.Standalone
import CardinalityTracker.Denotation
import CardinalityTracker.BitmapTheorems
import CardinalityTracker.StandaloneCrashes
import CardinalityTracker.ClusterLifetime
import CardinalityTracker.ClusterReads
import CardinalityTracker.Raft.Node
import CardinalityTracker.Raft.ApplyTheorems
import CardinalityTracker.Raft.Consistency
import CardinalityTracker.Raft.WritePaths
import CardinalityTracker.Raft.Persistence
import CardinalityTracker.Raft.SnapshotTheorems
import CardinalityTracker.Raft.LogTheorems
import CardinalityTracker.Raft.Process
import CardinalityTracker.Raft.Steps
import CardinalityTracker.Raft.Durability
import CardinalityTracker.Raft.Reads
import CardinalityTracker.Raft.Provenance
import CardinalityTracker.Raft.Shutdown
import CardinalityTracker.Raft.StoreCurrent
import CardinalityTracker.Reference.Murmur3
import CardinalityTracker.Reference.Protobuf
import CardinalityTracker.Reference.Gob
import CardinalityTracker.Reference.Storage
import CardinalityTracker.Reference.Entries
import CardinalityTracker.Reference.Peers
