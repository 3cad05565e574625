import ColumnarEngine.Column.Codec
import ColumnarEngine.Column.Column
import ColumnarEngine.Column.FromString
import ColumnarEngine.Column.IntegerText
import ColumnarEngine.Column.Metadata
import ColumnarEngine.Column.Schema
import ColumnarEngine.Column.TemporalText
import ColumnarEngine.Exec.AggregateExpressions
import ColumnarEngine.Exec.Aggregates
import ColumnarEngine.Exec.AggregationFunctions
import ColumnarEngine.Exec.AggregationOperator
import ColumnarEngine.Exec.Batch
import ColumnarEngine.Exec.FilterCorrect
import ColumnarEngine.Exec.FilterFunctions
import ColumnarEngine.Exec.FormatValue
import ColumnarEngine.Exec.GlobalAggregates
import ColumnarEngine.Exec.GroupBy
import ColumnarEngine.Exec.GroupByCorrect
import ColumnarEngine.Exec.GroupByKeys
import ColumnarEngine.Exec.GroupByRun
import ColumnarEngine.Exec.GroupSumOverflow
import ColumnarEngine.Exec.Layout
import ColumnarEngine.Exec.LimitRun
import ColumnarEngine.Exec.OrderBy
import ColumnarEngine.Exec.OrderByColumnless
import ColumnarEngine.Exec.OrderByCorrect
import ColumnarEngine.Exec.OrderByCount
import ColumnarEngine.Exec.OrderByLayout
import ColumnarEngine.Exec.OrderByRows
import ColumnarEngine.Exec.OrderByWindow
import ColumnarEngine.Exec.Pipeline
import ColumnarEngine.Exec.PipelineChain
import ColumnarEngine.Exec.PipelineLimit
import ColumnarEngine.Exec.PipelineOnce
import ColumnarEngine.Exec.PipelineProgress
import ColumnarEngine.Exec.RowMeaning
import ColumnarEngine.Exec.ScalarCorrect
import ColumnarEngine.Exec.ScalarFunctions
import ColumnarEngine.Exec.Scan
import ColumnarEngine.Exec.SingleThread
import ColumnarEngine.Exec.SinkCalls
import ColumnarEngine.Exec.SourceRun
import ColumnarEngine.Exec.SumOverflow
import ColumnarEngine.Exec.SumWidth
import ColumnarEngine.Exec.Table
import ColumnarEngine.Exec.ThreadPool
import ColumnarEngine.Exec.ThreadPoolGuarded
import ColumnarEngine.Exec.ThreadPoolRuns
import ColumnarEngine.Exec.Transforms
import ColumnarEngine.Found.Calendar
import ColumnarEngine.Found.Codec
import ColumnarEngine.Found.Decimal
import ColumnarEngine.Found.Faults
import ColumnarEngine.Found.Grouping
import ColumnarEngine.Found.Loop
import ColumnarEngine.Found.Partial
import ColumnarEngine.Found.Runs
import ColumnarEngine.Found.StrictWeak
import ColumnarEngine.Found.Transition
import ColumnarEngine.Found.TwosComplement
import ColumnarEngine.Found.Wildcard
import ColumnarEngine.Found.Window
import ColumnarEngine.Io.ColumnarReader
import ColumnarEngine.Io.ColumnarWriter
import ColumnarEngine.Io.ConvertFile
import ColumnarEngine.Io.ConvertLoad
import ColumnarEngine.Io.ConvertLoss
import ColumnarEngine.Io.ConvertRagged
import ColumnarEngine.Io.ConvertRows
import ColumnarEngine.Io.ConvertWidth
import ColumnarEngine.Io.CsvBuffer
import ColumnarEngine.Io.CsvFields
import ColumnarEngine.Io.CsvNewline
import ColumnarEngine.Io.CsvReader
import ColumnarEngine.Io.CsvRows
import ColumnarEngine.Io.CsvScan
import ColumnarEngine.Io.CsvToColumnar
import ColumnarEngine.Io.CsvTokenizer
import ColumnarEngine.Io.ReadSafety
import ColumnarEngine.Io.RoundTrip
import ColumnarEngine.Io.ScanFile
import ColumnarEngine.Io.StringTable
import ColumnarEngine.Io.VectorOfStrings
import ColumnarEngine.Plan.Expressions
import ColumnarEngine.Plan.FilterPredicate
import ColumnarEngine.Plan.Layout
import ColumnarEngine.Plan.Names
import ColumnarEngine.Plan.Nodes
import ColumnarEngine.Plan.Schedule
import ColumnarEngine.Plan.TypeSoundness
import ColumnarEngine.Plan.WellFormed
import ColumnarEngine.Query.Answers
import ColumnarEngine.Query.BreakerRows
import ColumnarEngine.Query.Breakers
import ColumnarEngine.Query.Chain
import ColumnarEngine.Query.Collect
import ColumnarEngine.Query.Compiled
import ColumnarEngine.Query.Imported
import ColumnarEngine.Query.Meaning
import ColumnarEngine.Query.PipelineRows
import ColumnarEngine.Query.Result
import ColumnarEngine.Query.Stages
import ColumnarEngine.Query.Values
import ColumnarEngine.Types.DateCorrect
import ColumnarEngine.Types.DateText
import ColumnarEngine.Types.Timestamp
import ColumnarEngine.Types.TimestampText
import ColumnarEngine.Types.Value
