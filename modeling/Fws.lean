import Fws.Base.Digits
import Fws.Base.Cells
import Fws.Base.Integers
import Fws.Base.Runs
import Fws.Base.Search
import Fws.Base.Tlv
import Fws.Base.Ber
import Fws.Base.Accounts
import Fws.Base.Blocks
import Fws.Base.Calls
import Fws.Networking.Platform
import Fws.Networking.Message
import Fws.Networking.Serial
import Fws.Networking.Hosts
import Fws.Networking.MessageLog
import Fws.Networking.Reading
import Fws.Networking.Connection
import Fws.Networking.Framing
import Fws.Networking.Widths
import Fws.Networking.Net
import Fws.Networking.Wire
import Fws.Networking.Vector
import Fws.Networking.VectorBounds
import Fws.Networking.VectorList
import Fws.Networking.Server
import Fws.Networking.Table
import Fws.Networking.ConnectionTable
import Fws.Networking.Trace
import Fws.Networking.Tracking
import Fws.Networking.Selection
import Fws.Networking.Moves
import Fws.Networking.Records
import Fws.Networking.FdSets
import Fws.Asn1.TlvCodec
import Fws.Asn1.BerDecoder
import Fws.Asn1.OctetString
import Fws.Asn1.Constructed
import Fws.Asn1.DerEncoder
import Fws.Asn1.Integer
import Fws.Asn1.BerHeaders
import Fws.Asn1.Octets
import Fws.Asn1.Segments
import Fws.Asn1.Strings
import Fws.Service.Envelope
import Fws.Asn1.Members
import Fws.Asn1.Endless
import Fws.Service.EnvelopeBer
import Fws.Service.Dispatch
import Fws.Service.Lookup
import Fws.Service.Serve
import Fws.Service.ResponseBuffer
import Fws.Service.Call
import Fws.Service.Exchange
import Fws.Service.Payload
import Fws.Service.RequestBuffer
import Fws.Service.Unsent
import Fws.Service.Sending
import Fws.Service.Loop
import Fws.Service.Session
import Fws.Service.Current
import Fws.Service.Shutdown
import Fws.Service.ClientLife
import Fws.Service.Allocations
import Fws.Service.Callers
import Fws.Service.Rpc
import Fws.Service.RpcRuns
import Fws.Service.Stalls
import Fws.Service.Endless
import Fws.Service.Frames
import Fws.Sample.TestOperation
import Fws.Sample.TestMessage
