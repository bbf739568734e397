import FbBroker.Core.Bytes
import FbBroker.Lib.Chain
import FbBroker.Lib.Command
import FbBroker.Lib.Wildcard
import FbBroker.Data.Dllist
import FbBroker.Data.TrieMult
import FbBroker.Data.TrieContents
import FbBroker.Routing.Subscription
import FbBroker.Routing.Nodes
import FbBroker.Routing.Soundness
import FbBroker.Data.Queue
import FbBroker.Lib.System
import FbBroker.Lib.Stream
import FbBroker.Worker.Threads
import FbBroker.Worker.Fanout
import FbBroker.Worker.Reclaim
import FbBroker.KeepAlive.Wheel
import FbBroker.KeepAlive.Tables
import FbBroker.KeepAlive.Expiry
import FbBroker.Lib.LevelCover
import FbBroker.Packet.TopicMatches
import FbBroker.Packet.Encode
import FbBroker.Packet.Buffer
import FbBroker.Parser.Session
import FbBroker.Parser.Step
import FbBroker.Parser.Framing
import FbBroker.Parser.Frame
import FbBroker.Parser.Bounds
import FbBroker.Parser.Block
import FbBroker.Parser.Lengths
import FbBroker.Parser.RemLen
import FbBroker.Parser.Loop
import FbBroker.Parser.Execute
import FbBroker.Parser.Fields
import FbBroker.Parser.Publish
import FbBroker.Parser.Subscribe
import FbBroker.Parser.Connect
import FbBroker.Auth.AuthFb
import FbBroker.Auth.Rights
import FbBroker.Auth.Soundness
import FbBroker.Auth.Independence
import FbBroker.Auth.Password
import FbBroker.Broker.State
import FbBroker.Broker.Client
import FbBroker.Broker.Run
import FbBroker.Broker.Effects
import FbBroker.Broker.Conduct
import FbBroker.Broker.Sending
import FbBroker.Broker.Rounds
import FbBroker.Broker.Steps
import FbBroker.Broker.KeepAlive
import FbBroker.Broker.Timeout
import FbBroker.Broker.Output
import FbBroker.Broker.SysMessages
import FbBroker.Broker.Table
import FbBroker.Broker.Refusal
import FbBroker.Broker.Turns
import FbBroker.Broker.Capacity
import FbBroker.Broker.Delivery
import FbBroker.Broker.Survival
import FbBroker.Broker.Deliverable
import FbBroker.Broker.Grants
import FbBroker.Broker.Closed
import FbBroker.Broker.Publishers
import FbBroker.Broker.Gate
import FbBroker.Broker.Handshake
import FbBroker.Broker.PacketIds
import FbBroker.Broker.Presence
import FbBroker.Broker.Drafts
import FbBroker.Broker.Leaks
import FbBroker.Ws.Parser
import FbBroker.Ws.Frame
import FbBroker.Ws.Messages
import FbBroker.Ws.Headers
import FbBroker.Ws.Accept
import FbBroker.Broker.WebSocket
import FbBroker.Broker.WsErrors
import FbBroker.Lib.Script
import FbBroker.Http.Tables
import FbBroker.Http.Parser
import FbBroker.Http.Safety
