import EsLogs.MergeDrop
import EsLogs.Int64Array
import EsLogs.PipeOptimizerCorrect
import EsLogs.StreamFilterText
import EsLogs.QueryOptimizer
import EsLogs.PartIndexWriting
import EsLogs.LastNCorrect
import EsLogs.DatadbRun
import EsLogs.StorageAccept
import EsLogs.PartitionRefsRun
import EsLogs.SearchWorkers
import EsLogs.DeleteTasksRun
import EsLogs.ClusterResponsesSafe
import EsLogs.NetInsertRun
import EsLogs.InValues
import EsLogs.PhraseSequence
import EsLogs.Grouping
import EsLogs.BloomFilter
import EsLogs.FilterRange
import EsLogs.FilterExact
import EsLogs.NameFilterEdits
import EsLogs.WildcardRows
import EsLogs.PatternExtract
import EsLogs.BlockLimit
import EsLogs.RowsVectors
import EsLogs.ColumnBounds
import EsLogs.IndexSearch
import EsLogs.InsertRow
import EsLogs.QueueLimit
import EsLogs.SyslogLineReader
import EsLogs.Rfc3339Text
import EsLogs.PatternMatcher
import EsLogs.ColumnsHeaderRoundTrip
