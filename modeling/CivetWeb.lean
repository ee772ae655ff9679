import CivetWeb.Http.HeaderLen
import CivetWeb.Http.Headers
import CivetWeb.Http.Request
import CivetWeb.Http.RoundTrip
import CivetWeb.Http.ParseResponse
import CivetWeb.Conn.GetResponse
import CivetWeb.Response.ClientReads
import CivetWeb.Http.Accepted
import CivetWeb.Http.HeaderLines
import CivetWeb.Conn.Connection
import CivetWeb.Lib.Numeral
import CivetWeb.Strtol
import CivetWeb.Conn.ChunkedRead
import CivetWeb.Conn.ChunkedSpec
import CivetWeb.Conn.ChunkedSound
import CivetWeb.Conn.ChunkedReads
import CivetWeb.Conn.ChunkedComplete
import CivetWeb.Conn.Write
import CivetWeb.Conn.GetRequest
import CivetWeb.Conn.RequestLen
import CivetWeb.Conn.Framing
import CivetWeb.Conn.KeepAlive
import CivetWeb.Conn.ReadFrame
import CivetWeb.Conn.RequestBody
import CivetWeb.Conn.Pipeline
import CivetWeb.Form.Callbacks
import CivetWeb.Lib.Machine
import CivetWeb.Form.BodyReader
import CivetWeb.Form.FieldsMove
import CivetWeb.Form.FieldsHalt
import CivetWeb.Form.FieldsStall
import CivetWeb.Form.FormValue
import CivetWeb.Form.FormVars
import CivetWeb.Form.QueryString
import CivetWeb.Form.FormPairs
import CivetWeb.Form.FormReaders
import CivetWeb.Form.Multipart
import CivetWeb.Form.MultipartBounds
import CivetWeb.Form.HandleForm
import CivetWeb.Form.MultipartHead
import CivetWeb.Form.MultipartReader
import CivetWeb.Form.MultipartRoundTrip
import CivetWeb.Websocket.Frame
import CivetWeb.Websocket.Read
import CivetWeb.Websocket.Messages
import CivetWeb.Handlers.Registry
import CivetWeb.Handlers.HandleRequest
import CivetWeb.Lib.System
import CivetWeb.Handlers.References
import CivetWeb.Handlers.RequestRuns
import CivetWeb.Handlers.Setters
import CivetWeb.Handlers.SetterRuns
import CivetWeb.Format
import CivetWeb.Dav.RequestLink
import CivetWeb.Dav.Lock
import CivetWeb.Timer.Timers
import CivetWeb.Timer.TimerThread
import CivetWeb.Timer.SortedQueue
import CivetWeb.Timer.EndsOnce
import CivetWeb.Response.Response
import CivetWeb.Response.HeadOnce
import CivetWeb.Auth.AuthHeader
import CivetWeb.Auth.Nonces
import CivetWeb.Auth.PasswordFile
import CivetWeb.Auth.CheckAuthorization
import CivetWeb.Lib.FileTree
import CivetWeb.Lib.ClosedTree
import CivetWeb.Dav.FileSystem
import CivetWeb.Dav.MoveFile
import CivetWeb.Dav.PutFile
import CivetWeb.Dav.RemoveDirectory
import CivetWeb.Dav.DavRuns
import CivetWeb.Lib.Hpack
import CivetWeb.Http2.Hpack
import CivetWeb.Http2.Strings
import CivetWeb.Http2.Frames
import CivetWeb.Http2.Isolation
import CivetWeb.Http2.Representations
import CivetWeb.Http2.HeaderTables
import CivetWeb.Handlers.Domains
import CivetWeb.Conn.WorkerDomain
import CivetWeb.Static.SendFile
import CivetWeb.Static.Range
import CivetWeb.Lib.Wildcard
import CivetWeb.Match.Pattern
import CivetWeb.Match.Longest
import CivetWeb.Match.Sort
import CivetWeb.Match.Pieces
import CivetWeb.Match.Runs
import CivetWeb.Match.Reported
import CivetWeb.Lib.Segments
import CivetWeb.Http.SafePath
import CivetWeb.Acl.Scanf
import CivetWeb.Acl.CheckAcl
import CivetWeb.Acl.Subnets
import CivetWeb.Acl.LastMatch
import CivetWeb.Conn.Throttle
import CivetWeb.Http2.DataFrames
import CivetWeb.Http2.FrameReads
import CivetWeb.Http2.FrameSizes
import CivetWeb.Http2.Encode
import CivetWeb.Lib.HpackRead
import CivetWeb.Http2.ResponseHeaders
import CivetWeb.Http2.HeaderBlock
import CivetWeb.Http2.HeaderFrame
import CivetWeb.Http2.HeaderList
import CivetWeb.Conn.ByteCount
import CivetWeb.Conn.Pace
import CivetWeb.Lib.Keyed
import CivetWeb.Auth.ModifyPasswords
import CivetWeb.Auth.PlainPasswords
import CivetWeb.Auth.SkipQuoted
import CivetWeb.Auth.DigestFields
import CivetWeb.Conn.OwnUri
import CivetWeb.Http.Percent
import CivetWeb.Response.Redirect
import CivetWeb.Ssi.SendSsiFile
import CivetWeb.Ssi.Tags
import CivetWeb.Ssi.Expansion
import CivetWeb.Cgi.HandleCgi
import CivetWeb.Files.InterpretUri
import CivetWeb.Files.PathInfo
import CivetWeb.Files.IndexFile
import CivetWeb.Files.SearchLevels
import CivetWeb.Files.BelowRoot
import CivetWeb.Dav.LockOutcome
import CivetWeb.Dav.LockRuns
import CivetWeb.Lib.Ring
import CivetWeb.Pool.SocketQueue
import CivetWeb.Pool.Steps
import CivetWeb.Pool.Fifo
import CivetWeb.Pool.QueueRuns
import CivetWeb.Pool.IdleWorkers
import CivetWeb.Pool.Leaks
import CivetWeb.Conn.HeaderOptions
import CivetWeb.Conn.OwnHost
import CivetWeb.Form.UrlCodec
import CivetWeb.Form.DecodeInPlace
import CivetWeb.Auth.Base64
import CivetWeb.Conn.Cookie
import CivetWeb.Static.Directory
import CivetWeb.Lib.Calendar
import CivetWeb.Static.Dates
import CivetWeb.Static.NotModified
import CivetWeb.Ports.ParsePort
import CivetWeb.Ports.PortShape
import CivetWeb.Ports.SslPortUsed
import CivetWeb.Lib.Ledger
import CivetWeb.Ports.SetPorts
import CivetWeb.Ports.PortLedger
import CivetWeb.Cgi.ProcessControl
import CivetWeb.Cgi.ProcessRuns
import CivetWeb.Conn.NextOption
import CivetWeb.Conn.Segmentation
import CivetWeb.Websocket.Masking
import CivetWeb.Lib.Packed
import CivetWeb.Cgi.Environment
import CivetWeb.Cgi.Variables
import CivetWeb.Http2.CodeTable
import CivetWeb.Http2.CodeTree
import CivetWeb.Http2.StringRoundTrip
import CivetWeb.Http2.IntegerReads
import CivetWeb.Http2.StringReads
import CivetWeb.Http2.FieldReads
import CivetWeb.Conn.Tallies
import CivetWeb.Conn.BytesFit
import CivetWeb.Conn.SizeAhead
import CivetWeb.Conn.SizesFit
import CivetWeb.Conn.Accounting
import CivetWeb.Conn.Arrival
import CivetWeb.Pool.AltQueue
import CivetWeb.Pool.AltQueueRuns
import CivetWeb.Lib.Slots
import CivetWeb.Pool.HandOver
import CivetWeb.Pool.Shutdown
import CivetWeb.Pool.StartStop
import CivetWeb.Pool.StartLedger
