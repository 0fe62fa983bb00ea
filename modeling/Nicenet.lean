import Nicenet.Library.Bytes
import Nicenet.Library.Framing
import Nicenet.Library.Reader
import Nicenet.Library.Transition
import Nicenet.Library.Machine
import Nicenet.Library.Split
import Nicenet.Message
import Nicenet.Session.ParseMsg
import Nicenet.Session.Receive
import Nicenet.Session.Settled
import Nicenet.Session.Termination
import Nicenet.Session.Reassembly
import Nicenet.Serial.Schema
import Nicenet.Serial.Size
import Nicenet.Serial.Wire
import Nicenet.Serial.RoundTrip
import Nicenet.Serial.InStep
import Nicenet.Serial.Received
import Nicenet.Proto.Table
import Nicenet.Proto.CmdJson
import Nicenet.Proto.CmdCpp
import Nicenet.Proto.Stable
import Nicenet.Send.Queue
import Nicenet.Send.Fifo
import Nicenet.Send.Emitted
import Nicenet.Handshake.Challenge
import Nicenet.Handshake.Freshness
import Nicenet.Handshake.Honest
import Nicenet.Handshake.Segments
import Nicenet.Handshake.ServerSign
import Nicenet.Handshake.PrivateKey
import Nicenet.Tcp.Registry
import Nicenet.Tcp.Latest
import Nicenet.Kcp.DoRead
import Nicenet.Kcp.Registry
import Nicenet.Kcp.Displaced
import Nicenet.Kcp.Stale
import Nicenet.Kcp.Expiry
import Nicenet.Kcp.Datagram
import Nicenet.Kcp.Isolation
import Nicenet.Kcp.PureUdp
import Nicenet.Kcp.OwnBytes
import Nicenet.Kcp.Receivers
import Nicenet.Http.Text
import Nicenet.Http.Split
import Nicenet.Http.Parser
import Nicenet.Http.Connection
import Nicenet.Http.Query
import Nicenet.Http.Numeral
import Nicenet.Http.Safe
import Nicenet.Url.Parser
import Nicenet.Url.Spelled
import Nicenet.Url.Parts
import Nicenet.Url.Reached
import Nicenet.Url.Failing
import Nicenet.Url.Port
import Nicenet.Http.Written
import Nicenet.Http.Head
import Nicenet.Http.Chunks
import Nicenet.Http.Completes
import Nicenet.Http.Inverse
import Nicenet.Http.Layout
import Nicenet.Http.AcceptedHead
import Nicenet.Http.Accepted
import Nicenet.Http.Announced
import Nicenet.Http.Response
import Nicenet.Http.ResponseParser
import Nicenet.Http.ResponseHead
import Nicenet.Http.ReadBack
import Nicenet.Http.Outgoing
import Nicenet.Http.Delimited
import Nicenet.Http.Answering
import Nicenet.Http.Leftover
import Nicenet.Http.KeepAlive
import Nicenet.Http.Segmented
import Nicenet.Http.Spent
import Nicenet.Http.Shared
import Nicenet.Http.WrittenHead
import Nicenet.Http.ResponseInverse
import Nicenet.Http.Decoded
import Nicenet.Http.Methods
import Nicenet.Http.Numbers
import Nicenet.Http.Lengths
import Nicenet.Coro.Dropped
import Nicenet.Coro.Destructors
import Nicenet.Bson.AsObject
import Nicenet.CopyablePtr
import Nicenet.Serial.Objects
import Nicenet.Session.Allocated
import Nicenet.Session.Dispatched
import Nicenet.Session.Commands
import Nicenet.Session.Channel
import Nicenet.Session.Values
import Nicenet.Session.Versions
import Nicenet.Kcp.Conversation
import Nicenet.Kcp.Carried
import Nicenet.Kcp.Pings
import Nicenet.Kcp.KeepAlive
import Nicenet.Handshake.Agreement
import Nicenet.Kcp.Transport
import Nicenet.Kcp.Serving
import Nicenet.Kcp.Admission
import Nicenet.Kcp.Values
import Nicenet.Tcp.Serving
import Nicenet.Tcp.Clients
import Nicenet.Library.Shared
import Nicenet.Mysql.Pool
import Nicenet.Mongo.Pool
