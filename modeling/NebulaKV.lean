import NebulaKV.Core.Bytes
import NebulaKV.Core.Validation
import NebulaKV.Core.LittleEndian
import NebulaKV.Core.CyclicCode
import NebulaKV.Raft.Types
import NebulaKV.Raft.Serialization
import NebulaKV.Raft.StateMachine
import NebulaKV.Raft.Storage
import NebulaKV.Raft.Node
import NebulaKV.Raft.Operations
import NebulaKV.Raft.Persistence
import NebulaKV.Raft.SnapshotInstall
import NebulaKV.Raft.RetainedLog
import NebulaKV.Raft.RejectedAppend
import NebulaKV.Raft.Cluster
import NebulaKV.Raft.Compaction
import NebulaKV.Raft.Tracking
import NebulaKV.Raft.TrackCommit
import NebulaKV.Raft.TrackRpc
import NebulaKV.Raft.CommitSafety
import NebulaKV.Raft.IndexInvariant
import NebulaKV.Raft.Restart
import NebulaKV.Raft.NoPoison
import NebulaKV.Raft.LogRepair
import NebulaKV.Raft.CommitIndex
import NebulaKV.Containers.OrderedMap
import NebulaKV.Effects.Program
import NebulaKV.Effects.Faults
import NebulaKV.Consensus.Quorum
import NebulaKV.Consensus.Protocol
import NebulaKV.Consensus.Safety
import NebulaKV.Consensus.Completeness
import NebulaKV.Service.DeleteFlag
import NebulaKV.Network.BoundedExecutor
import NebulaKV.Versioned.Newest
import NebulaKV.Lsm.MemTable
import NebulaKV.Lsm.BloomFilter
import NebulaKV.Lsm.BlockCache
import NebulaKV.Lsm.CacheTraces
import NebulaKV.Lsm.SSTable
import NebulaKV.Lsm.Manager
import NebulaKV.Lsm.WalFormat
import NebulaKV.Lsm.WalReader
import NebulaKV.Lsm.WalWriter
import NebulaKV.Lsm.Store
import NebulaKV.Lsm.TableContents
import NebulaKV.Lsm.Merge
import NebulaKV.Lsm.TableWriter
import NebulaKV.Lsm.MemTableOrder
import NebulaKV.Lsm.MemTableRuns
import NebulaKV.Lsm.Selection
import NebulaKV.Lsm.ManifestCrash
import NebulaKV.Lsm.Publish
import NebulaKV.Lsm.ManagerSteps
import NebulaKV.Lsm.FaultyManager
import NebulaKV.Lsm.StoreSteps
import NebulaKV.Lsm.StoreMap
import NebulaKV.Lsm.FaultyStore
import NebulaKV.Network.RequestProcessor
import NebulaKV.Lsm.ConcurrentRead
import NebulaKV.Lsm.TableFormat
import NebulaKV.Lsm.TableBytes
import NebulaKV.Lsm.AcceptedTable
import NebulaKV.Lsm.ManifestFormat
import NebulaKV.Lsm.AcceptedDirectory
import NebulaKV.Lsm.Traffic
import NebulaKV.Lsm.TrafficSteps
import NebulaKV.Lsm.Level1Ranges
import NebulaKV.Lsm.CompactionRace
import NebulaKV.Lsm.LiveCount
import NebulaKV.Lsm.Books
import NebulaKV.Lsm.Reopening
import NebulaKV.Raft.DurableMachine
import NebulaKV.Raft.RejectedSnapshot
import NebulaKV.Raft.SnapshotLimit
import NebulaKV.Integrity.BurstErrors
import NebulaKV.Journal.Redo
import NebulaKV.Lsm.Recovery
import NebulaKV.Lsm.WalDurability
