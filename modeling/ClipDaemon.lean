import ClipDaemon.Lib.Transition
import ClipDaemon.Lib.Program
import ClipDaemon.Lib.Eviction
import ClipDaemon.Lib.SideTable
import ClipDaemon.Lib.Grams
import ClipDaemon.Store.Tokens
import ClipDaemon.Store.Service
import ClipDaemon.Store.Closing
import ClipDaemon.Store.Echo
import ClipDaemon.Store.Search
import ClipDaemon.Api.QueryHistory
import ClipDaemon.Capture.Controller
import ClipDaemon.Settings
import ClipDaemon.Api.SingleUse
import ClipDaemon.Api.Convergence
import ClipDaemon.Store.Literal
import ClipDaemon.History.RoundTrip
import ClipDaemon.Capture.Bootstrap
import ClipDaemon.Api.Subscription
import ClipDaemon.History.Reconcile
import ClipDaemon.Store.Removal
import ClipDaemon.Capture.Rejection
import ClipDaemon.Capture.Offers
import ClipDaemon.History.Files
import ClipDaemon.Api.Issuance
import ClipDaemon.History.Progress
import ClipDaemon.History.Thumbnails
import ClipDaemon.History.Statements
import ClipDaemon.Api.Locality
import ClipDaemon.Daemon.Departure
import ClipDaemon.Daemon.Failures
import ClipDaemon.Daemon.Leases
import ClipDaemon.Daemon.Fence
import ClipDaemon.Daemon.Order
import ClipDaemon.Lib.Refinement
import ClipDaemon.Daemon.Refinement
