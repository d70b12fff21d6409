import VpnPi.Js.Text
import VpnPi.Js.OrdMap
import VpnPi.Js.Value
import VpnPi.Js.Json
import VpnPi.Js.JsonRoundTrip
import VpnPi.Js.Utf8
import VpnPi.Js.Scalar
import VpnPi.Js.Trim
import VpnPi.Async.Task
import VpnPi.Async.Service
import VpnPi.Async.Numbered
import VpnPi.Island.Canonical
import VpnPi.Island.Friends
import VpnPi.Async.Pool
import VpnPi.Island.FriendSteps
import VpnPi.Island.Symbolic
import VpnPi.Island.BookLinear
import VpnPi.Island.BookRuns
import VpnPi.Island.SingleUse
import VpnPi.Island.NoForgery
import VpnPi.Island.Handshake
import VpnPi.Island.Revocation
import VpnPi.Island.Era
import VpnPi.Async.Lock
import VpnPi.Island.Canary
import VpnPi.Island.Gate
import VpnPi.Island.GateWindow
import VpnPi.Island.GateEgress
import VpnPi.Island.GateFile
import VpnPi.Island.CanaryRoute
import VpnPi.Island.RateLimit
import VpnPi.Island.Auth
import VpnPi.Island.Lockout
import VpnPi.Island.Envelope
import VpnPi.Island.Events
import VpnPi.Island.Messages
import VpnPi.Island.Replay
import VpnPi.Island.Registry
import VpnPi.Island.Domains
import VpnPi.Island.Sysinfo
import VpnPi.Selfheal.Heal
import VpnPi.Selfheal.Alert
import VpnPi.Selfheal.Loop
import VpnPi.Selfheal.Feed
import VpnPi.Selfheal.Breaker
import VpnPi.Selfheal.Endpoints
import VpnPi.Selfheal.Journal
import VpnPi.Selfheal.Roster
import VpnPi.Island.CanonicalJson
import VpnPi.Island.Share
import VpnPi.Island.ShareRefinement
import VpnPi.Island.FileName
import VpnPi.Island.RemoteShare
import VpnPi.Mesh.Relay
import VpnPi.Island.RegistryStore
import VpnPi.Island.PeerKeys
import VpnPi.Async.Saving
import VpnPi.Island.Persist
import VpnPi.Island.LinkRoster
import VpnPi.Selfheal.OneRow
import VpnPi.Async.FirstWins
import VpnPi.Mesh.MeshSource
import VpnPi.Mesh.Delivery
import VpnPi.Selfheal.Debounce
import VpnPi.Island.PythonSigner
import VpnPi.Island.Expiry
import VpnPi.Island.RevokeFrame
import VpnPi.Island.GateClock
import VpnPi.Js.Buffer
import VpnPi.Island.FriendCode
import VpnPi.Island.FirstRun
import VpnPi.Island.Download
import VpnPi.Island.BookWrites
import VpnPi.Island.Fail2ban
import VpnPi.Island.LimiterHistory
import VpnPi.Island.JailReplay
import VpnPi.Async.Related
import VpnPi.Island.BookQueries
import VpnPi.Island.BookRestart
import VpnPi.Async.Family
import VpnPi.Island.Network
import VpnPi.Island.Resolve
import VpnPi.Async.Evidence
import VpnPi.Island.Inbox
import VpnPi.Island.Issuers
import VpnPi.Island.Thread
import VpnPi.Gui.FileStore
import VpnPi.Island.Removal
import VpnPi.Gui.ViewAuth
import VpnPi.Island.GateCommand
import VpnPi.Island.Guarded
import VpnPi.Island.ShareAccess
import VpnPi.Island.EventFeed
