import MiniGU.Results.Abort
import MiniGU.Results.BlockPruning
import MiniGU.Results.BruteForceSearch
import MiniGU.Results.Collection
import MiniGU.Results.CreateGraph
import MiniGU.Results.DistinctAggregates
import MiniGU.Results.Drain
import MiniGU.Results.EdgeCompression
import MiniGU.Results.Expand
import MiniGU.Results.FactorizedAggregate
import MiniGU.Results.FactorizedCompact
import MiniGU.Results.FactorizedFlatten
import MiniGU.Results.FactorizedPipeline
import MiniGU.Results.FactorizedProject
import MiniGU.Results.GroupedAggregate
import MiniGU.Results.HashJoin
import MiniGU.Results.IndexCatalog
import MiniGU.Results.IntegerLiteral
import MiniGU.Results.IntentFolding
import MiniGU.Results.Label
import MiniGU.Results.LimitOffset
import MiniGU.Results.LogSession
import MiniGU.Results.MatchModifiers
import MiniGU.Results.NumericConversion
import MiniGU.Results.ObjectRef
import MiniGU.Results.OlapProperties
import MiniGU.Results.OneShot
import MiniGU.Results.OpenTransactions
import MiniGU.Results.PathMatch
import MiniGU.Results.PatternGrammar
import MiniGU.Results.Persistence
import MiniGU.Results.PrecedenceTable
import MiniGU.Results.QuerySnapshot
import MiniGU.Results.Recovery
import MiniGU.Results.Scan
import MiniGU.Results.SchemaPath
import MiniGU.Results.Sort
import MiniGU.Results.StringLiteral
import MiniGU.Results.TimestampOrder
import MiniGU.Results.TornTail
import MiniGU.Results.TruncateCrash
import MiniGU.Results.TypeElement
import MiniGU.Results.ValueGrammar
import MiniGU.Results.VectorIdMaps
import MiniGU.Results.VectorIndexScan
import MiniGU.Results.WalFailure
import MiniGU.Vector.GreedySearch
