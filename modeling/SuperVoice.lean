import SuperVoice.Lib.Transition
import SuperVoice.Lib.RawFrame
import SuperVoice.Lib.Linear
import SuperVoice.Common.Protocol
import SuperVoice.Server.Containment
import SuperVoice.Server.DataHandler
import SuperVoice.Server.PatchFiles
import SuperVoice.Server.Publication
import SuperVoice.Client.Shutdown
import SuperVoice.Client.QueueWakeups
import SuperVoice.Relay.Delivery
import SuperVoice.Providers.Concurrent
import SuperVoice.Providers.Breaker
import SuperVoice.Providers.Routes
import SuperVoice.Providers.Retrying
import SuperVoice.Providers.JsonOperation
import SuperVoice.Providers.UsageReport
import SuperVoice.Providers.Backoff
import SuperVoice.Providers.JobUrl
import SuperVoice.Core.Metrics
import SuperVoice.Core.Histograms
import SuperVoice.Core.Recording
import SuperVoice.Core.CurrentSpan
import SuperVoice.Client.Watcher
import SuperVoice.Http.SseDelivery
import SuperVoice.Http.Locking
import SuperVoice.Http.EventText
import SuperVoice.Http.DoneLast
import SuperVoice.Relay.Agreement
import SuperVoice.Client.Retries
import SuperVoice.Server.Completion
import SuperVoice.Server.Isolation
import SuperVoice.Server.Reassembly
import SuperVoice.Common.Crc32
import SuperVoice.Common.PatchHeader
import SuperVoice.Server.Checksum
import SuperVoice.Server.Control
import SuperVoice.Server.Acknowledge
import SuperVoice.Server.Expiry
import SuperVoice.Client.Sha256
import SuperVoice.Server.Rollback
import SuperVoice.Server.Staging
import SuperVoice.Server.WireHeader
import SuperVoice.Client.Slots
import SuperVoice.Server.Commands
import SuperVoice.Server.Listeners
import SuperVoice.Client.SystemChannels
import SuperVoice.Http.SseBuffer
import SuperVoice.Server.Bookkeeping
import SuperVoice.Core.ResolveEnv
import SuperVoice.Providers.ResolveScalar
import SuperVoice.Core.Traceparent
import SuperVoice.Core.DotEnv
import SuperVoice.Common.CommandLine
import SuperVoice.Common.CommonOptions
import SuperVoice.Server.Sessions
import SuperVoice.Server.Manifests
import SuperVoice.Server.Sweep
import SuperVoice.Core.Redaction
import SuperVoice.Core.RequestLog
import SuperVoice.Core.Requests
import SuperVoice.Client.Metering
import SuperVoice.Client.Announcements
import SuperVoice.Providers.Headers
import SuperVoice.Core.Exporter
