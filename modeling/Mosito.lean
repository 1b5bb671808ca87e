import Mosito.Lib.ByteStore
import Mosito.Lib.Tournament
import Mosito.Lib.KWayMerge
import Mosito.Lib.Runs
import Mosito.Lib.Earlier
import Mosito.Lib.Ownership
import Mosito.Lib.Layout
import Mosito.Lib.Buckets
import Mosito.Lib.BinaryHeap
import Mosito.Lib.Assignment
import Mosito.Lib.Layers
import Mosito.Lib.LinkedRing
import Mosito.Lib.Fairness
import Mosito.Lib.History
import Mosito.Lib.Strided
import Mosito.Lib.Reach
import Mosito.Common.Buffer
import Mosito.Common.BlockFormat
import Mosito.Common.FlexBlock
import Mosito.Common.BlockTag
import Mosito.Common.PersistFlexBlock
import Mosito.Common.Heap
import Mosito.Common.HeapBuild
import Mosito.Common.HeapCleanup
import Mosito.Common.LoserTree
import Mosito.Common.LoserTreeAccess
import Mosito.Common.LoserTreeAgrees
import Mosito.Common.Schema
import Mosito.Common.Comparator
import Mosito.Common.SchemaLayout
import Mosito.Common.CircleQueue
import Mosito.Common.BlockCircleQueue
import Mosito.Common.ColumnQueues
import Mosito.Common.PCBuffer
import Mosito.Common.Sentinel
import Mosito.Common.SortedMerge
import Mosito.Common.BlockStream
import Mosito.Common.Merger
import Mosito.Common.Backpressure
import Mosito.Common.Barrier
import Mosito.Common.SmartPtr
import Mosito.Common.ThreadPool
import Mosito.Common.ThreadPoolRoom
import Mosito.Physical.ShuffleUpper
import Mosito.Physical.ShuffleUpper1
import Mosito.Physical.ShuffleLower1
import Mosito.Physical.RangeAgreement
import Mosito.Physical.Rendezvous
import Mosito.Physical.ShuffleLower
import Mosito.Physical.OrderedShuffle
import Mosito.Physical.ShuffleAdvance
import Mosito.Physical.ShuffleSender
import Mosito.Physical.ShuffleReturn
import Mosito.Physical.JoinGather
import Mosito.Physical.MergeJoin
import Mosito.Physical.EquiJoin
import Mosito.Physical.ParallelSort
import Mosito.Physical.HeapOut
import Mosito.Physical.Project
import Mosito.Physical.SortProducer
import Mosito.Physical.ShuffleProducer
import Mosito.Physical.Producers
import Mosito.Sql.LexerInput
import Mosito.Sql.StringLiteral
import Mosito.Sql.StmtList
import Mosito.Sql.ExprAst
import Mosito.Sql.NodeStruct
import Mosito.Sql.NodeHeap
import Mosito.Sql.NodePointer
import Mosito.Sql.Output
import Mosito.Sql.DataType
import Mosito.Sql.Grammar
import Mosito.Sql.NodeTags
import Mosito.Analysis.Relabelling
import Mosito.Analysis.KM
import Mosito.Analysis.MaximumMatching
import Mosito.Analysis.SearchCount
import Mosito.Analysis.KM32
import Mosito.Analysis.LargestMatching
import Mosito.Analysis.ParStrategy
import Mosito.Analysis.BlockThreads
import Mosito.Analysis.Histogram
import Mosito.Analysis.Bounds
import Mosito.Deploy.Registration
import Mosito.Lib.SpinLock
import Mosito.Physical.MultiPartition
import Mosito.Physical.SendRoute
import Mosito.Physical.RangePuts
import Mosito.Physical.Exchange
import Mosito.Physical.DistributedSort
import Mosito.Physical.Scan
import Mosito.Common.HeapRuns
import Mosito.Common.CircleQueueFree
import Mosito.Sql.Scanner
import Mosito.Sql.ScannerWords
import Mosito.Sql.ScannerModes
import Mosito.Sql.ScannerText
