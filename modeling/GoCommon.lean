import GoCommon.BTreeAccounting
import GoCommon.Base62
import GoCommon.BloomFilter
import GoCommon.BoundarySearch
import GoCommon.CacheFetch
import GoCommon.CircuitBreaker
import GoCommon.CommonSubsequence
import GoCommon.CountMinSketch
import GoCommon.CuckooKicks
import GoCommon.ElasticBuffer
import GoCommon.ForgeAcceptance
import GoCommon.ForgeDecodeSafety
import GoCommon.ForgeFaults
import GoCommon.ForgeIndexSessions
import GoCommon.ForgeLatestState
import GoCommon.ForgePipeline
import GoCommon.ForgeSegmentReads
import GoCommon.ForgeTailDamage
import GoCommon.HyperLogLog
import GoCommon.LinearDelays
import GoCommon.LinkedListTransfer
import GoCommon.MongoMaps
import GoCommon.MpmcOutcomes
import GoCommon.RingGrowth
import GoCommon.RingQueue
import GoCommon.RowBinding
import GoCommon.RwSpinLock
import GoCommon.SlicePool
import GoCommon.SliceSort
import GoCommon.SlidingWindow
import GoCommon.SqlPagination
import GoCommon.StripedBatcher
import GoCommon.TokenBucket
import GoCommon.TopK
import GoCommon.UniqueIds
import GoCommon.ZSetRanks
