import Parqtel.Core.WalStartup
import Parqtel.Core.EpochDrop
import Parqtel.Core.SeriesRegistry
import Parqtel.Ingest.Visibility
import Parqtel.Ingest.SerialBuffer
import Parqtel.Ingest.CommitOrder
import Parqtel.Ingest.FlushLabels
import Parqtel.Ingest.ReleaseOrder
import Parqtel.Ingest.RowCounter
import Parqtel.Ingest.SpanRates
import Parqtel.Server.ExactlyOnce
import Parqtel.Server.LogHandler
import Parqtel.Storage.CompactionContent
import Parqtel.Storage.CompactionMetadata
import Parqtel.Storage.Persist
import Parqtel.Storage.Retention
import Parqtel.Query.SeriesOnce
import Parqtel.Query.Panics
import Parqtel.Query.TimeFault
import Parqtel.Query.TraceSearch
import Parqtel.Query.PipelineRun
import Parqtel.Query.Grouping
import Parqtel.Alert.Duration
