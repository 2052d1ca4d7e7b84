import LogEngine.Cluster.Failover
import LogEngine.Cluster.Joining
import LogEngine.Coordinator.Agreement
import LogEngine.Coordinator.Compose
import LogEngine.Coordinator.Lru
import LogEngine.Coordinator.Search
import LogEngine.Coordinator.Sessions
import LogEngine.Coordinator.Transparent
import LogEngine.Index.History
import LogEngine.Ingest.Batch
import LogEngine.Ingest.Bookkeeping
import LogEngine.Ingest.Complete
import LogEngine.Ingest.Conserved
import LogEngine.Ingest.Faithful
import LogEngine.Ingest.Lossless
import LogEngine.Ingest.Once
import LogEngine.Ingest.Replicator
import LogEngine.Ingest.Routing
import LogEngine.Lib.Lists
import LogEngine.Lib.Steps
import LogEngine.Metadata.Balanced
import LogEngine.Metadata.Detector
import LogEngine.Metadata.Liveness
import LogEngine.Query.Findable
import LogEngine.Query.InFlight
import LogEngine.Query.Isolation
import LogEngine.Query.Keyword
import LogEngine.Query.Printer
import LogEngine.Query.Pruning
import LogEngine.Query.Race
import LogEngine.Query.Refines
import LogEngine.Storage.AppendOnly
import LogEngine.Storage.CrashMerge
import LogEngine.Storage.Durable
import LogEngine.Storage.Failures
import LogEngine.Storage.Marker
import LogEngine.Storage.Packed
import LogEngine.Storage.Preserved
import LogEngine.Storage.Retention
import LogEngine.Storage.Settled
import LogEngine.Storage.Stale
import LogEngine.Storage.Stream
