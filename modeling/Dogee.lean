import Dogee.Transition
import Dogee.Machine
import Dogee.Address
import Dogee.SyncManager
import Dogee.SemaphoreGrants
import Dogee.SyncEvent
import Dogee.SyncSystem
import Dogee.SyncCalls
import Dogee.BarrierRounds
import Dogee.RedBlack
import Dogee.DMap
import Dogee.DMapFocus
import Dogee.DMapInsert
import Dogee.DMapIteration
import Dogee.DMapRemove
import Dogee.DMapRuns
import Dogee.StableSort
import Dogee.KeyValue
import Dogee.WordMemory
import Dogee.StorageCall
import Dogee.Memcached
import Dogee.MemcachedChunk
import Dogee.MemcachedChunkRead
import Dogee.MemcachedFine
import Dogee.MemcachedFlat
import Dogee.SharedArray
import Dogee.ChunkWriters
import Dogee.MemcachedObjects
import Dogee.CacheTable
import Dogee.LockCode
import Dogee.CacheLocks
import Dogee.CacheThreads
import Dogee.CacheCluster
import Dogee.CacheLinks
import Dogee.CachePairing
import Dogee.CacheSizes
import Dogee.CacheServing
import Dogee.CacheDirectory
import Dogee.DirectoryCache
import Dogee.DirectoryCacheFlat
import Dogee.AccumulatorBuffer
import Dogee.Accumulator
import Dogee.AccumulatorRounds
import Dogee.AccumulatorSegments
import Dogee.AccumulatorSend
import Dogee.AccumulatorPacket
import Dogee.AccumulatorEncoding
import Dogee.AccumulatorModes
import Dogee.AccumulatorThreshold
import Dogee.AccumulatorSum
import Dogee.ObjectLists
import Dogee.ObjectAlloc
import Dogee.Checkpoint
import Dogee.DataMap
import Dogee.DataMapRuns
import Dogee.DataMapEnds
import Dogee.DString
import Dogee.CacheDeletion
import Dogee.CheckpointRoundTrip
import Dogee.CheckpointBarrier
import Dogee.CheckpointCrash
import Dogee.CheckpointSnapshot
import Dogee.SharedConst
import Dogee.RestartConst
import Dogee.Text
import Dogee.ClusterStart
import Dogee.Framing
import Dogee.ControlChannels
import Dogee.Serializer
import Dogee.WireFormat
import Dogee.MapReduce
import Dogee.MapReduceSteps
import Dogee.MapReduceReports
import Dogee.MapReduceOnce
import Dogee.MapSendLoop
import Dogee.MemcachedObjects
import Dogee.ObjectAlloc
import Dogee.CsvCells
import Dogee.CsvCalls
import Dogee.CsvCache
import Dogee.SyncObjects
import Dogee.ThreadPool
import Dogee.ThreadPoolEvents
import Dogee.Counters
import Dogee.Handshake
import Dogee.DataChannel
import Dogee.CacheWords
import Dogee.CacheCopies
import Dogee.CacheWriters
import Dogee.CacheRenews
import Dogee.CacheSending
import Dogee.CacheCoherence
import Dogee.CacheLatches
import Dogee.CacheReturns
import Dogee.CacheVictim
import Dogee.CacheConnect
import Dogee.CacheConnected
import Dogee.ThreadCounts
import Dogee.LocalThreadPool
import Dogee.AccumulatorDelivery
import Dogee.AccumulatorReturns
import Dogee.SyncWaits
import Dogee.BarrierReturns
import Dogee.MapReduceSessions
import Dogee.SemaphoreHolders
import Dogee.SemaphoreService
