import Thttpd.Core.CgiDispatch
import Thttpd.Core.Config
import Thttpd.Core.Connection
import Thttpd.Core.EventLoop
import Thttpd.Core.Handshake
import Thttpd.Core.Logging
import Thttpd.Core.MainLoop
import Thttpd.Core.Mmc
import Thttpd.Core.Poll
import Thttpd.Core.ReadBuffer
import Thttpd.Core.Reply
import Thttpd.Core.Request
import Thttpd.Core.Server
import Thttpd.Core.Startup
import Thttpd.Core.Static
import Thttpd.Core.Throttle
import Thttpd.Core.ThrottleFile
import Thttpd.Core.Timers
import Thttpd.Harness.DiffEngine
import Thttpd.Http.Auth
import Thttpd.Http.Cgi
import Thttpd.Http.Conn
import Thttpd.Http.Dirlist
import Thttpd.Http.ErrorPage
import Thttpd.Http.Match
import Thttpd.Http.Mime
import Thttpd.Http.Parse
import Thttpd.Http.Response
import Thttpd.Http.Tdate
import Thttpd.Http.Url
import Thttpd.Legacy.Dotdot
import Thttpd.Legacy.Libhttpd
import Thttpd.Legacy.Match
import Thttpd.Legacy.Mime
import Thttpd.Legacy.ThrottleFile
import Thttpd.Legacy.Thttpd
import Thttpd.Lib.Assoc
import Thttpd.Lib.Backoff
import Thttpd.Lib.Block
import Thttpd.Lib.Case
import Thttpd.Lib.Chunks
import Thttpd.Lib.Civil
import Thttpd.Lib.Climb
import Thttpd.Lib.Dirs
import Thttpd.Lib.Fs
import Thttpd.Lib.Glob
import Thttpd.Lib.IpAddr
import Thttpd.Lib.Last
import Thttpd.Lib.Lts
import Thttpd.Lib.Regex
import Thttpd.Lib.Rewrite
import Thttpd.Lib.Runs
import Thttpd.Lib.Scan
import Thttpd.Lib.Settle
import Thttpd.Lib.Slab
import Thttpd.Lib.Slice
import Thttpd.Lib.Split
import Thttpd.Lib.Text
import Thttpd.Lib.Trial
import Thttpd.Lib.Utf8
import Thttpd.Lib.Walk
import Thttpd.Migrate.Atomics
import Thttpd.Migrate.Backend
import Thttpd.Migrate.Circuit
import Thttpd.Migrate.Config
import Thttpd.Migrate.Diff
import Thttpd.Migrate.DiffLoops
import Thttpd.Migrate.Forwarder
import Thttpd.Migrate.Framing
import Thttpd.Migrate.Health
import Thttpd.Migrate.Router
import Thttpd.Migrate.Server
import Thttpd.Migrate.Shadow
import Thttpd.Migrate.State
import Thttpd.Platform
import Thttpd.Proofs.Accounting
import Thttpd.Proofs.Admission
import Thttpd.Proofs.Answer
import Thttpd.Proofs.Bodyless
import Thttpd.Proofs.Breaker
import Thttpd.Proofs.Buffer
import Thttpd.Proofs.Calendar
import Thttpd.Proofs.Calendars
import Thttpd.Proofs.Capped
import Thttpd.Proofs.CgiStatus
import Thttpd.Proofs.Closing
import Thttpd.Proofs.Compare
import Thttpd.Proofs.Confinement
import Thttpd.Proofs.Consistency
import Thttpd.Proofs.Control
import Thttpd.Proofs.CoolOff
import Thttpd.Proofs.Coverage
import Thttpd.Proofs.DateForms
import Thttpd.Proofs.Dates
import Thttpd.Proofs.Deals
import Thttpd.Proofs.Delivery
import Thttpd.Proofs.Dispatch
import Thttpd.Proofs.Dotdot
import Thttpd.Proofs.Draw
import Thttpd.Proofs.ErrorPages
import Thttpd.Proofs.Framing
import Thttpd.Proofs.Fresh
import Thttpd.Proofs.Glob
import Thttpd.Proofs.Grammar
import Thttpd.Proofs.HalfOpen
import Thttpd.Proofs.Handshake
import Thttpd.Proofs.Head
import Thttpd.Proofs.Headers
import Thttpd.Proofs.Health
import Thttpd.Proofs.Hops
import Thttpd.Proofs.Invisible
import Thttpd.Proofs.Links
import Thttpd.Proofs.Lockout
import Thttpd.Proofs.Logging
import Thttpd.Proofs.MainLoop
import Thttpd.Proofs.Mime
import Thttpd.Proofs.MimeRule
import Thttpd.Proofs.Mirror
import Thttpd.Proofs.Missing
import Thttpd.Proofs.MmapAge
import Thttpd.Proofs.MmapCache
import Thttpd.Proofs.Normalize
import Thttpd.Proofs.Normalizers
import Thttpd.Proofs.Overflow
import Thttpd.Proofs.Parse
import Thttpd.Proofs.Passes
import Thttpd.Proofs.Patterns
import Thttpd.Proofs.Place
import Thttpd.Proofs.Probe
import Thttpd.Proofs.Range
import Thttpd.Proofs.RateCap
import Thttpd.Proofs.RequestLine
import Thttpd.Proofs.Requests
import Thttpd.Proofs.Route
import Thttpd.Proofs.Routing
import Thttpd.Proofs.Scripts
import Thttpd.Proofs.Segments
import Thttpd.Proofs.Senders
import Thttpd.Proofs.Shares
import Thttpd.Proofs.Splitting
import Thttpd.Proofs.Startup
import Thttpd.Proofs.Status
import Thttpd.Proofs.Switches
import Thttpd.Proofs.Target
import Thttpd.Proofs.Tdate
import Thttpd.Proofs.Throttle
import Thttpd.Proofs.ThrottleFile
import Thttpd.Proofs.TimerRuns
import Thttpd.Proofs.Timers
import Thttpd.Proofs.Truncation
import Thttpd.Proofs.Turns
import Thttpd.Proofs.Url
import Thttpd.Proofs.Vhost
