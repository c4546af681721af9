import ChainSqld.Lib.Bits
import ChainSqld.Lib.StateExcept
import ChainSqld.Lib.Prefix
import ChainSqld.Lib.KeyedStore
import ChainSqld.Lib.Records
import ChainSqld.Lib.Rounding
import ChainSqld.Protocol.Serializer
import ChainSqld.Protocol.STAmount
import ChainSqld.Protocol.AmountMath
import ChainSqld.Protocol.Quality
import ChainSqld.Protocol.MulRatio
import ChainSqld.SHAMap.NodeID
import ChainSqld.SHAMap.TreeNode
import ChainSqld.SHAMap.NodeCodec
import ChainSqld.SHAMap.Sync
import ChainSqld.SHAMap.Commitment
import ChainSqld.SHAMap.SHAMap
import ChainSqld.SHAMap.Walk
import ChainSqld.SHAMap.Invariants
import ChainSqld.SHAMap.Replaces
import ChainSqld.SHAMap.AddItem
import ChainSqld.SHAMap.DelItem
import ChainSqld.SHAMap.Refinement
import ChainSqld.Sql.Json
import ChainSqld.Sql.ConditionTree
import ChainSqld.Sql.OperationRule
import ChainSqld.Sql.RecordRules
import ChainSqld.Sql.InsertLimit
import ChainSqld.Lib.CyclicList
import ChainSqld.Ledger.Directory
import ChainSqld.Ledger.DirectoryRing
import ChainSqld.Ledger.DirectorySteps
import ChainSqld.Ledger.DirectoryRuns
import ChainSqld.Lib.OrdMap
import ChainSqld.Ledger.StateTable
import ChainSqld.Ledger.StateTableView
import ChainSqld.Ledger.StateTableSles
import ChainSqld.Ledger.StateTableRuns
import ChainSqld.Protocol.QualityRound
import ChainSqld.Protocol.IOUAgreement
import ChainSqld.Lib.Radix
import ChainSqld.Protocol.Base58
import ChainSqld.SHAMap.KeyOrder
import ChainSqld.SHAMap.Iterator
import ChainSqld.Lib.FloorSum
import ChainSqld.Lib.CircularBuffer
import ChainSqld.TxQ.FeeMetrics
import ChainSqld.TxQ.SeriesFee
import ChainSqld.Lib.RunningMax
import ChainSqld.Consensus.CloseTime
import ChainSqld.Lib.TruncSum
import ChainSqld.Protocol.IOUValue
import ChainSqld.Paths.StrandFlow
import ChainSqld.Paths.FlowAccounting
import ChainSqld.Lib.Worklist
import ChainSqld.SHAMap.Delta
import ChainSqld.SHAMap.DeltaExact
import ChainSqld.Lib.AssocList
import ChainSqld.Consensus.DisputedTx
import ChainSqld.Consensus.Timing
import ChainSqld.Consensus.Round
import ChainSqld.Consensus.RoundDisputes
import ChainSqld.Consensus.RoundInvariant
import ChainSqld.Consensus.RoundPhases
