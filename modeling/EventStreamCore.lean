import EventStreamCore.Lib.Machine
import EventStreamCore.Lib.Incremental
import EventStreamCore.Lib.Circular
import EventStreamCore.Lib.BigEndian
import EventStreamCore.Events.Event
import EventStreamCore.Ingest.FrameParser
import EventStreamCore.Ingest.FrameStream
import EventStreamCore.Ingest.Tcp
import EventStreamCore.Ingest.Epoll
import EventStreamCore.Queues.Spsc
import EventStreamCore.Queues.SpscThreads
import EventStreamCore.Events.DeadLetterQueue
import EventStreamCore.Events.EventBus
import EventStreamCore.Events.RealtimeOverflow
import EventStreamCore.Queues.Mpsc
import EventStreamCore.Queues.MpscThreads
import EventStreamCore.Queues.MpscSize
import EventStreamCore.Lib.Custody
import EventStreamCore.Events.Dispatcher
import EventStreamCore.Events.Pipeline
import EventStreamCore.Bridge.Shutdown
import EventStreamCore.Metrics.Histogram
import EventStreamCore.Processor.Handler
import EventStreamCore.Queues.Dedup
import EventStreamCore.Storage.Storage
import EventStreamCore.Processor.Processors
import EventStreamCore.Processor.StorageFailure
import EventStreamCore.Queues.DedupMap
import EventStreamCore.Processor.Idempotence
import EventStreamCore.Events.EventFactory
import EventStreamCore.Processor.EventIds
import EventStreamCore.Events.Pressure
import EventStreamCore.Processor.Batch
import EventStreamCore.Processor.BatchFailure
import EventStreamCore.Ingest.EpollClose
import EventStreamCore.Lib.Linked
import EventStreamCore.Queues.DedupThreads
import EventStreamCore.Queues.DedupChains
import EventStreamCore.Queues.DedupRefusal
import EventStreamCore.Lib.SelfDelimiting
import EventStreamCore.Storage.Log
import EventStreamCore.Bridge.Metrics
import EventStreamCore.Bridge.Totals
import EventStreamCore.Events.DropAccounting
import EventStreamCore.Processor.Verdicts
import EventStreamCore.Events.EndToEnd
import EventStreamCore.Events.Routing
import EventStreamCore.Processor.Output
import EventStreamCore.Bridge.Observer
import EventStreamCore.Bridge.Observability
import EventStreamCore.Events.Crc32
import EventStreamCore.Processor.HandlerLookup
import EventStreamCore.Ingest.Udp
import EventStreamCore.Events.RealtimeFifo
import EventStreamCore.Queues.MpscBound
import EventStreamCore.Memory.EventPool
import EventStreamCore.Memory.PoolRuns
import EventStreamCore.Memory.PoolReset
import EventStreamCore.Ingest.Pool
import EventStreamCore.Lib.History
import EventStreamCore.Processor.BodyHandlers
import EventStreamCore.Processor.HandlerCalls
import EventStreamCore.Lib.CountingSort
import EventStreamCore.Queues.DedupCount
import EventStreamCore.Metrics.Percentile
import EventStreamCore.Events.DropWindow
import EventStreamCore.Events.TopicTable
import EventStreamCore.Ingest.Residual
import EventStreamCore.Storage.DlqLog
import EventStreamCore.Events.Drain
import EventStreamCore.Bridge.ShutdownProgress
import EventStreamCore.Events.Integrity
import EventStreamCore.Storage.Durability
import EventStreamCore.Ingest.EpollServer
import EventStreamCore.Ingest.EpollIsolation
import EventStreamCore.Ingest.TcpServer
import EventStreamCore.Ingest.TcpServerRuns
import EventStreamCore.Bridge.WireToDisk
import EventStreamCore.Ingest.Messages
import EventStreamCore.Bridge.Accounts
import EventStreamCore.Ingest.EpollShutdown
import EventStreamCore.Bridge.ShutdownDrains
import EventStreamCore.Events.Bounded
import EventStreamCore.Ingest.PoolThreads
import EventStreamCore.Ingest.TcpStop
import EventStreamCore.Processor.BatchRuns
import EventStreamCore.Processor.FlushCalls
import EventStreamCore.Processor.FlushVerdicts
import EventStreamCore.Processor.HandlersStay
import EventStreamCore.Processor.OneVerdict
import EventStreamCore.Queues.DedupAddresses
import EventStreamCore.Queues.DedupReuse
import EventStreamCore.Bridge.EventNumbers
import EventStreamCore.Bridge.ShutdownEnd
