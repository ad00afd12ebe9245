import Tinypinba.Foundation.Machine
import Tinypinba.Foundation.KeyedLoop
import Tinypinba.Foundation.MapCursor
import Tinypinba.Foundation.Relabel
import Tinypinba.Foundation.CommandLog
import Tinypinba.Basic
import Tinypinba.ReportData
import Tinypinba.Report
import Tinypinba.ReportCursor
import Tinypinba.TagReport
import Tinypinba.RequestReport
import Tinypinba.ReportList
import Tinypinba.MergeReports
import Tinypinba.ReportContainer
import Tinypinba.ContainerCalls
import Tinypinba.Worker
import Tinypinba.Dictionary
import Tinypinba.TagTranslation
import Tinypinba.Shard
import Tinypinba.RequestTree
import Tinypinba.Rotation
import Tinypinba.ChunkOwnership
import Tinypinba.MainList
import Tinypinba.ReportManager
import Tinypinba.Pipeline
import Tinypinba.Conservation
import Tinypinba.Agreement
import Tinypinba.Publication
import Tinypinba.Foundation.Decoder
import Tinypinba.Foundation.Varint
import Tinypinba.Wire
import Tinypinba.Foundation.Contract
import Tinypinba.MemoryUse
import Tinypinba.Overlong
import Tinypinba.Receiver
import Tinypinba.Respelling
