import LWebServer.Base.Bytes
import LWebServer.Client.Backoff
import LWebServer.Client.Channel
import LWebServer.Client.Client
import LWebServer.Client.Reconnect
import LWebServer.FastCgi.Codec
import LWebServer.FastCgi.FastCgi
import LWebServer.FastCgi.Format
import LWebServer.FastCgi.Reading
import LWebServer.FastCgi.Reply
import LWebServer.FastCgi.Request
import LWebServer.Http.Acceptance
import LWebServer.Http.Accounting
import LWebServer.Http.Answer
import LWebServer.Http.Answered
import LWebServer.Http.BodyLength
import LWebServer.Http.Bounds
import LWebServer.Http.Completeness
import LWebServer.Http.ContentLength
import LWebServer.Http.Delivery
import LWebServer.Http.Duplicates
import LWebServer.Http.Fences
import LWebServer.Http.Following
import LWebServer.Http.Grammar
import LWebServer.Http.HeaderMap
import LWebServer.Http.Leftovers
import LWebServer.Http.MediaType
import LWebServer.Http.Mime
import LWebServer.Http.Overrun
import LWebServer.Http.ParsedHeader
import LWebServer.Http.Parser
import LWebServer.Http.Progress
import LWebServer.Http.Provenance
import LWebServer.Http.Provider
import LWebServer.Http.Refill
import LWebServer.Http.Replies
import LWebServer.Http.Request
import LWebServer.Http.ResponseHead
import LWebServer.Http.Scanner
import LWebServer.Http.ScriptName
import LWebServer.Http.Segmentation
import LWebServer.Http.Soundness
import LWebServer.Http.Starting
import LWebServer.Http.Status
import LWebServer.Http.Texts
import LWebServer.Http.Tracking
import LWebServer.Http.Unambiguous
import LWebServer.Http.Unfinished
import LWebServer.Http.Wire
import LWebServer.Library.Alarm
import LWebServer.Library.Apportion
import LWebServer.Library.Bisection
import LWebServer.Library.Calendar
import LWebServer.Library.Calls
import LWebServer.Library.Cells
import LWebServer.Library.Chain
import LWebServer.Library.Checked
import LWebServer.Library.Chronicle
import LWebServer.Library.Custody
import LWebServer.Library.Decimal
import LWebServer.Library.Emplace
import LWebServer.Library.Excerpts
import LWebServer.Library.Frames
import LWebServer.Library.Halving
import LWebServer.Library.Handover
import LWebServer.Library.Locks
import LWebServer.Library.Lockstep
import LWebServer.Library.Memo
import LWebServer.Library.Memory
import LWebServer.Library.Numeral
import LWebServer.Library.Online
import LWebServer.Library.Outbox
import LWebServer.Library.Queue
import LWebServer.Library.Ranking
import LWebServer.Library.Schedule
import LWebServer.Library.Span
import LWebServer.Library.Tally
import LWebServer.Log.AsyncLogging
import LWebServer.Log.Date
import LWebServer.Log.Files
import LWebServer.Log.FixedBuffer
import LWebServer.Log.Formatting
import LWebServer.Log.HashMap
import LWebServer.Log.HashThreads
import LWebServer.Log.LocalTime
import LWebServer.Log.LogStream
import LWebServer.Log.Logfile
import LWebServer.Log.Logging
import LWebServer.Log.Ordering
import LWebServer.Log.Pipeline
import LWebServer.Log.Printing
import LWebServer.Log.Rotation
import LWebServer.Log.Shutdown
import LWebServer.Log.TimeZone
import LWebServer.Log.Timestamps
import LWebServer.Log.ZoneData
import LWebServer.Log.ZoneFile
import LWebServer.Net.Arriving
import LWebServer.Net.Buffering
import LWebServer.Net.Capacity
import LWebServer.Net.Leftovers
import LWebServer.Net.Socket
import LWebServer.Net.Termination
import LWebServer.Server.Abandonment
import LWebServer.Server.Accepting
import LWebServer.Server.Arming
import LWebServer.Server.Batch
import LWebServer.Server.Channel
import LWebServer.Server.Dialogue
import LWebServer.Server.Distribution
import LWebServer.Server.Exchanges
import LWebServer.Server.Framing
import LWebServer.Server.Isolation
import LWebServer.Server.Lives
import LWebServer.Server.Malformed
import LWebServer.Server.Manger
import LWebServer.Server.Member
import LWebServer.Server.Parking
import LWebServer.Server.Pending
import LWebServer.Server.Pieces
import LWebServer.Server.Pipelining
import LWebServer.Server.Positions
import LWebServer.Server.Probes
import LWebServer.Server.Process
import LWebServer.Server.Reads
import LWebServer.Server.Recycling
import LWebServer.Server.Renewal
import LWebServer.Server.Sessions
import LWebServer.Server.Views
import LWebServer.Server.Workers
import LWebServer.Tool.Accounting
import LWebServer.Tool.Cascade
import LWebServer.Tool.EffectiveQueue
import LWebServer.Tool.Exactness
import LWebServer.Tool.Extraction
import LWebServer.Tool.Fairness
import LWebServer.Tool.Leftovers
import LWebServer.Tool.LoadBalance
import LWebServer.Tool.LockFreeQueue
import LWebServer.Tool.Placement
import LWebServer.Tool.Printing
import LWebServer.Tool.Provenance
import LWebServer.Tool.QueueOrder
import LWebServer.Tool.QueueSize
import LWebServer.Tool.Queueing
import LWebServer.Tool.Reports
import LWebServer.Tool.RetiredNodes
import LWebServer.Tool.Scaling
import LWebServer.Tool.Throughput
import LWebServer.Tool.TimerAccuracy
import LWebServer.Tool.TimerIndex
import LWebServer.Tool.TimingWheel
import LWebServer.Tool.UserBuffer
import LWebServer.Tool.Weights
import LWebServer.Tool.WireOrder
import LWebServer.Tool.WriteLoop
