import Armada.Storage.Incremental
import Armada.Storage.SnapshotFile
import Armada.Storage.Retirement
import Armada.Replication.Replay
import Armada.Replication.Leases
import Armada.Replication.Retention
import Armada.Gossip.View
import Armada.Storage.Queue
import Armada.Fsm.Recover
import Armada.Raft.Requests
import Armada.Raft.SnapshotDir
import Armada.Rsm.Compaction
import Armada.Rsm.Sessions
import Armada.Transport.Budget
import Armada.Transport.Chunks
import Armada.Tan.PowerLoss
import Armada.Fsm.LiveReads
import Armada.Server.Reads
import Armada.Storage.SnapshotStream
import Armada.Replication.Stream
import Armada.Replication.Staging
import Armada.Replication.Selection
import Armada.Raft.Outputs
import Armada.Raft.WellFormed
import Armada.Raft.InMemSize
import Armada.Raft.WorkerPool
import Armada.Tan.Lookup
import Armada.Tan.Repair
