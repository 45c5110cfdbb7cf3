import KVStore.Library.Framing
import KVStore.Library.Decimal
import KVStore.Resp.Parser
import KVStore.Resp.RoundTrip
import KVStore.Resp.Pipeline
import KVStore.Engine.Wal
import KVStore.Engine.Eviction
import KVStore.Engine.HashTable
import KVStore.Engine.Replay
import KVStore.Engine.Snapshot
import KVStore.Engine.Crash
import KVStore.Raft.Cluster
import KVStore.Library.Consensus
import KVStore.Library.Majority
import KVStore.Raft.Election
import KVStore.Raft.Refinement
import KVStore.Raft.LogMatching
import KVStore.Raft.Safety
import KVStore.Raft.Leadership
import KVStore.Raft.LogOrder
import KVStore.Raft.Applied
import KVStore.Raft.Commitment
import KVStore.Server.Distributed
import KVStore.Library.Clockwise
import KVStore.Sharding.HashRing
import KVStore.Engine.TimedMap
import KVStore.Engine.Recovery
import KVStore.Engine.Untruncated
import KVStore.Engine.Sharded
import KVStore.Engine.Linearizable
import KVStore.Engine.Accounting
import KVStore.Engine.Api
import KVStore.Engine.Reload
import KVStore.Engine.ShardedSync
import KVStore.Engine.Shutdown
import KVStore.Engine.Wakeup
import KVStore.Library.RWLock
import KVStore.Sharding.MultiRaft
import KVStore.Raft.Restart
import KVStore.Raft.Quorum
import KVStore.Raft.SingleNode
import KVStore.Raft.Bounds
import KVStore.Raft.Follower
import KVStore.Server.RESPServer
import KVStore.Server.Simple
import KVStore.Server.Replicated
import KVStore.Engine.Damage
import KVStore.Library.InputStream
import KVStore.Engine.LogFile
import KVStore.Engine.Durability
import KVStore.Engine.OwnLog
import KVStore.Engine.EvictLoop
import KVStore.Engine.LfuOrder
import KVStore.Engine.LruOrder
import KVStore.Resp.Soundness
import KVStore.Resp.Feeding
import KVStore.Resp.Faults
import KVStore.Resp.Stuck
import KVStore.Server.Expiry
import KVStore.Server.Panics
import KVStore.Sharding.LeaderTracking
import KVStore.Server.Routing
import KVStore.Engine.Buckets
import KVStore.Server.Addresses
import KVStore.Library.WriteThrough
import KVStore.Raft.Storage
import KVStore.Library.Reachability
import KVStore.Raft.Availability
import KVStore.Engine.Scanner
import KVStore.Raft.Validity
import KVStore.Server.Replicas
import KVStore.Engine.Sessions
import KVStore.Library.EdgeTriggered
import KVStore.Resp.EventLoop
import KVStore.Server.TimedServer
