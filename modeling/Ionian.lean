import Ionian.Merkle.Layers
import Ionian.AppendMerkle.Tree
import Ionian.AppendMerkle.Incremental
import Ionian.AppendMerkle.Proof
import Ionian.AppendMerkle.ProofGen
import Ionian.AppendMerkle.Consistent
import Ionian.AppendMerkle.Reachable
import Ionian.AppendMerkle.History
import Ionian.AppendMerkle.Frame
import Ionian.AppendMerkle.Versions
import Ionian.AppendMerkle.Subtrees
import Ionian.Slice.Search
import Ionian.Extent.Basic
import Ionian.Refine.Fold
import Ionian.Storage.ChunkData
import Ionian.Storage.Batches
import Ionian.Storage.BatchOps
import Ionian.Storage.Run
import Ionian.Storage.ReadySeals
import Ionian.Kv.Batch
import Ionian.Slice.Vec
import Ionian.Sync.TxStore
import Ionian.Sync.Queues
import Ionian.Sync.ChunksRequest
import Ionian.Storage.Seal
import Ionian.Storage.EntryBatch
import Ionian.Storage.SealSpec
import Ionian.Storage.EntryBatchOps
import Ionian.Storage.SealRead
import Ionian.Kv.SortedMap
import Ionian.LogSync.Confirmation
import Ionian.Storage.Flow
import Ionian.Storage.FlowSeal
import Ionian.Storage.ChunkRead
import Ionian.Storage.LogManager
import Ionian.Bits.Smear
import Ionian.Storage.TxSubtrees
import Ionian.Storage.BatchIter
import Ionian.Storage.Padding
import Ionian.Storage.EntryProof
import Ionian.Storage.AvailableEntries
import Ionian.Bytes.Basic
import Ionian.Ssz.Codec
import Ionian.Storage.Serde
import Ionian.Sync.Serial
import Ionian.Sync.SerialHandlers
import Ionian.Sync.SerialRun
import Ionian.Network.PeerDB
import Ionian.Network.PeerDBRun
import Ionian.Gcra.Schedule
import Ionian.Network.RateLimiter
import Ionian.Network.RpcLimiter
import Ionian.Kv.MinQueue
import Ionian.Kv.AListSum
import Ionian.ChunkPool.WriteControl
import Ionian.FileLocation.Cache
import Ionian.FileLocation.Counts
import Ionian.Miner.Mine
