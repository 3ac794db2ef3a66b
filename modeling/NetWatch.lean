import NetWatch.Lib.Runs
import NetWatch.Lib.SlotMap
import NetWatch.Lib.Ledgers
import NetWatch.Lib.WordSum
import NetWatch.Lib.Assoc
import NetWatch.Lib.Buckets
import NetWatch.Lib.SortDedup
import NetWatch.Lib.Utf8
import NetWatch.Lib.Binary64
import NetWatch.Lib.JsNumber
import NetWatch.Lib.Outbox
import NetWatch.Lib.Replacing
import NetWatch.Lib.Redis
import NetWatch.Lib.RedisTtl
import NetWatch.Lib.Texts
import NetWatch.Lib.IpText
import NetWatch.Lib.Timeline
import NetWatch.Lib.JsValue
import NetWatch.Lib.Aggregate
import NetWatch.Lib.Repeats
import NetWatch.Lib.LittleEndian
import NetWatch.Lib.Reach
import NetWatch.Lib.Trim
import NetWatch.Lib.JsText
import NetWatch.Lib.BinarySearch
import NetWatch.Lib.LargestFirst
import NetWatch.Lib.GroupFold
import NetWatch.Lib.MergeRuns
import NetWatch.Lib.OrderStatistic
import NetWatch.Kernel.Types
import NetWatch.Kernel.Account
import NetWatch.Kernel.Ledger
import NetWatch.Kernel.DoubleBuffer
import NetWatch.Kernel.Late
import NetWatch.Kernel.Reuse
import NetWatch.Collector.BtfReader
import NetWatch.Kernel.SockKey
import NetWatch.Collector.BtfParse
import NetWatch.Collector.BtfFormat
import NetWatch.Collector.BtfNames
import NetWatch.Collector.SplitStatements
import NetWatch.Collector.Classify
import NetWatch.Collector.Procfs
import NetWatch.Collector.Model
import NetWatch.Collector.Cmdline
import NetWatch.Collector.Liveness
import NetWatch.Collector.Ingest
import NetWatch.Collector.Conservation
import NetWatch.Collector.Instances
import NetWatch.Collector.Views
import NetWatch.Collector.Exits
import NetWatch.Collector.Retention
import NetWatch.Collector.Regress
import NetWatch.Collector.Ticks
import NetWatch.Collector.SinkClickhouse
import NetWatch.Collector.ProcessTable
import NetWatch.Collector.SinkRedis
import NetWatch.Collector.RedisMirror
import NetWatch.Collector.Destinations
import NetWatch.Collector.Sniffs
import NetWatch.Collector.RedisDests
import NetWatch.Collector.RedisExpiry
import NetWatch.Live.Hub
import NetWatch.Live.Store
import NetWatch.Live.Link
import NetWatch.Live.Invariant
import NetWatch.Live.Deliver
import NetWatch.Live.Series
import NetWatch.Live.Contiguity
import NetWatch.Live.Restarts
import NetWatch.Live.Held
import NetWatch.Live.Seams
import NetWatch.Live.Breaks
import NetWatch.Live.Reader
import NetWatch.Live.ReaderInvariant
import NetWatch.Live.ReaderExact
import NetWatch.Live.Turns
import NetWatch.Live.Recovery
import NetWatch.Live.Snapshot
import NetWatch.History.Heatmap
import NetWatch.History.EvenCells
import NetWatch.History.LocalHours
import NetWatch.History.Processes
import NetWatch.History.Merges
import NetWatch.History.Ranges
import NetWatch.History.Throughput
import NetWatch.History.Grid
import NetWatch.History.Ghost
import NetWatch.History.Deviation
import NetWatch.History.Covered
import NetWatch.History.OnGrid
import NetWatch.GeoIp.Ip
import NetWatch.GeoIp.Asn
import NetWatch.GeoIp.IpGrammar
import NetWatch.GeoIp.DestText
import NetWatch.GeoIp.Reload
import NetWatch.History.AsnCountries
import NetWatch.History.Treemap
import NetWatch.Analysis.Bursts
import NetWatch.History.Beacons
import NetWatch.History.Burst
import NetWatch.Storage.Delete
import NetWatch.Storage.Guarded
import NetWatch.Storage.EndedDays
import NetWatch.Storage.LiveUntouched
import NetWatch.Storage.RedisScan
import NetWatch.Charts.Palette
import NetWatch.Lib.SortBy
import NetWatch.Lib.IntervalRows
import NetWatch.History.Lanes
import NetWatch.Live.Ranking
import NetWatch.Collector.Bitfields
import NetWatch.Lib.Lru
import NetWatch.GeoIp.ReverseDns
import NetWatch.Charts.Sankey
import NetWatch.Charts.SankeyRows
import NetWatch.Charts.SankeyGraph
import NetWatch.Charts.SankeyFlow
import NetWatch.Lib.Best
import NetWatch.Charts.SankeyOrder
import NetWatch.Charts.SankeyOrg
import NetWatch.Kernel.Drains
import NetWatch.Collector.EndToEnd
import NetWatch.Lib.Summing
import NetWatch.History.Rollup
import NetWatch.History.NewDests
import NetWatch.Lib.Recent
import NetWatch.Client.Query
import NetWatch.History.BytesPerCall
import NetWatch.Lib.Clusters
import NetWatch.Charts.Markers
import NetWatch.Live.Stacks
import NetWatch.Lib.Rounding
import NetWatch.Lib.Stretches
import NetWatch.Live.Rates
import NetWatch.Live.LiveFlows
import NetWatch.Live.FlowsRoute
import NetWatch.Live.TopTalkers
