import QuietQuic.Lib.Loop
import QuietQuic.Lib.Tickets
import QuietQuic.Lib.Window
import QuietQuic.Lib.Bytes
import QuietQuic.Lib.AssocMap
import QuietQuic.Lib.Recency
import QuietQuic.Lib.Batches
import QuietQuic.Lib.Erasure
import QuietQuic.Proto.Selector
import QuietQuic.Proto.Prefilter
import QuietQuic.Proto.Outcome
import QuietQuic.Proto.RateLimit
import QuietQuic.Proto.Lru
import QuietQuic.Proto.Budget
import QuietQuic.Proto.Recovery
import QuietQuic.Proto.Quinn
import QuietQuic.Proto.Mini
import QuietQuic.Proto.Inbox
import QuietQuic.Proto.Conn
import QuietQuic.Proto.Config
import QuietQuic.Proto.Endpoint
import QuietQuic.Proto.Pass
import QuietQuic.Proto.Step
import QuietQuic.Proto.Deadlines
import QuietQuic.Proto.Actionable
import QuietQuic.Proto.Silence
import QuietQuic.Proto.Identity
import QuietQuic.Proto.Routing
import QuietQuic.Proto.Release
import QuietQuic.Proto.Lifetime
import QuietQuic.Proto.Admissions
import QuietQuic.Proto.Attribution
import QuietQuic.Proto.Provenance
import QuietQuic.Proto.SendFins
import QuietQuic.Proto.Terminal
import QuietQuic.Proto.ConnRuns
import QuietQuic.Proto.AcceptQueue
import QuietQuic.Proto.StreamReads
import QuietQuic.Proto.InitialKeys
import QuietQuic.Proto.HeaderProtection
import QuietQuic.Proto.FirstFlight
import QuietQuic.Tokio.Parked
import QuietQuic.Tokio.Channels
import QuietQuic.Tokio.System
import QuietQuic.Tokio.Calls
import QuietQuic.Tokio.Replies
import QuietQuic.Tokio.Accepts
import QuietQuic.Tokio.Reads
import QuietQuic.Tokio.ReadToEnd
import QuietQuic.Tokio.Writes
import QuietQuic.Tokio.Sends
import QuietQuic.Tokio.WaitFinished
import QuietQuic.Tokio.Handles
import QuietQuic.Tokio.Server
import QuietQuic.Tokio.Passes
import QuietQuic.Tokio.Pump
import QuietQuic.Tokio.Views
import QuietQuic.Tokio.Followed
import QuietQuic.Tokio.Awaited
import QuietQuic.Tokio.Serving
import QuietQuic.Tokio.Accepting
import QuietQuic.Proto.Screening
import QuietQuic.Proto.Client
import QuietQuic.Proto.Strangers
import QuietQuic.Tokio.Dialing
import QuietQuic.Tokio.Connects
import QuietQuic.Tokio.Closed
import QuietQuic.Tokio.Unseen
import QuietQuic.Tokio.Transfer
