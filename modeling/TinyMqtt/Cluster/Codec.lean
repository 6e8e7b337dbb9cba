import TinyMqtt.Cluster.Cluster
import TinyMqtt.Codec.Decode
import TinyMqtt.Codec.Encode
import TinyMqtt.Codec.LenBased

/-!
The wire format between the nodes of a cluster (`codec/mqtt_codec.c` and
`codec/mqtt_cluster_codec.c`). A frame has a type, a payload length of sixteen
bits and a payload. The payload of a tunneled publish is a PUBLISH packet, and
is decoded by the MQTT decoder on a context made for the occasion, straight
from the buffer of the connection.
-/

namespace TinyMqtt

inductive ClusterMessageType where
  | clusterRouteSync | clusterRouteDel | clusterTunPublish
  deriving DecidableEq, Repr

def ClusterMessageType.code : ClusterMessageType → UInt8
  | .clusterRouteSync => 0
  | .clusterRouteDel => 1
  | .clusterTunPublish => 2

/-! ### Senders -/

/-- `send_route_sync_del_message`: the bytes of its two writes. The length
covers the terminator of the string. A null string cannot be written. -/
def sendRouteSyncDelMessage (type : ClusterMessageType) : Option Bytes → Option Bytes
  | none => none
  | some payload =>
      let payloadLen := UInt16.ofNat (payload.length + 1)
      some (type.code :: (packUint16 payloadLen ++ (payload ++ [0]).take payloadLen.toNat))

/-- The packet that `send_publish_tun_message` packs. -/
def tunPublishPkt (topic : Bytes) (message : MqttMessage Bytes) (retain : Bool) :
    PublishPkt Bytes where
  flags := UInt8.ofNat (message.qos * 2 + retain.toNat)
  topic := topic
  packetId := 0
  payload := message.message

def sendPublishTunMessage (topic : Bytes) (message : MqttMessage Bytes) (retain : Bool) :
    Except SendError Bytes := do
  let packet ← packPublishPacket (tunPublishPkt topic message retain)
  return ClusterMessageType.clusterTunPublish.code :: (packLength packet.length ++ packet)

/-! ### The decoder -/

inductive ClusterEvent where
  | onAddRoute (topicFilters : Bytes)
  | onTunPublish (pkt : PublishPkt Bytes)
  deriving DecidableEq, Repr

structure ClusterConn where
  state : TcpConnState
  inBuffer : Bytes
  parsing : LenBasedParsingCtx
  log : List ClusterEvent
  deriving DecidableEq, Repr

namespace ClusterConn

/-- A connection as `new_conn_handler` sets it up. The fields of the header are
written before they are read. -/
def new : ClusterConn := ⟨.connected, [], ⟨.parsingHeader, 0, 0⟩, []⟩

def parseAddRouteMessage (conn : ClusterConn) (len : Nat) : ClusterConn :=
  let (topicFilter, buffer) := tmqBufferReadStr conn.inBuffer len
  { conn with inBuffer := buffer, log := conn.log ++ [.onAddRoute topicFilter] }

/-- The publishes in what the MQTT decoder did for a tunnel. Any other callback
goes through a codec of the wrong type, and a DISCONNECT reads the broker of an
IO context that the connection does not have. -/
def tunneledPublishes : List (Event Bytes) → Option (List (PublishPkt Bytes))
  | [] => some []
  | .parse .disconnect _ _ :: _ => none
  | .parse _ _ _ :: log => tunneledPublishes log
  | .send _ :: log => tunneledPublishes log
  | .onTunPublish _ pkt :: log => (tunneledPublishes log).map (pkt :: ·)
  | _ :: _ => none

variable (auth : BrokerAuth)

/-- The connection in the context that `parse_tun_publish_message` makes. -/
def tunnelConn (conn : ClusterConn) : TcpConn :=
  { newConn with state := conn.state, inBuffer := conn.inBuffer, connState := .tunneled }

/-- `parse_tun_publish_message`. The context is dropped with whatever it had
read of a packet. -/
def parseTunPublishMessage (conn : ClusterConn) : Option ClusterConn := do
  let decoded ← decodeTcpMessage auth conn.tunnelConn
  let pkts ← tunneledPublishes decoded.log
  some { conn with
    state := decoded.state
    inBuffer := decoded.inBuffer
    log := conn.log ++ pkts.map .onTunPublish }

/-- The `payload_parsers` table. No parser is registered for other types. -/
def payloadParsers (conn : ClusterConn) (messageType : UInt8) (len : Nat) : Option ClusterConn :=
  if messageType = ClusterMessageType.clusterRouteSync.code then
    some (conn.parseAddRouteMessage len)
  else if messageType = ClusterMessageType.clusterTunPublish.code then
    conn.parseTunPublishMessage auth
  else none

/-- The case `PARSING_PAYLOAD` of the decoder's switch, and whether the decoder
goes on after it. -/
def onParsingPayload (conn : ClusterConn) : Option (Bool × ClusterConn) :=
  if conn.inBuffer.length < conn.parsing.payloadLen.toNat then some (false, conn)
  else do
    let conn' ← conn.payloadParsers auth conn.parsing.messageType conn.parsing.payloadLen.toNat
    some (true, { conn' with parsing := { conn'.parsing with state := .parsingHeader } })

/-- The case `PARSING_HEADER`, with `parse_header`. -/
def onParsingHeader (conn : ClusterConn) : Option (Bool × ClusterConn) :=
  match conn.inBuffer with
  | messageType :: msb :: lsb :: buffer =>
      onParsingPayload auth { conn with
        inBuffer := buffer
        parsing := ⟨.parsingPayload, messageType, beUint16 msb lsb⟩ }
  | _ => some (false, conn)

def decodeRound (conn : ClusterConn) : Option (Bool × ClusterConn) :=
  match conn.parsing.state with
  | .parsingHeader => conn.onParsingHeader auth
  | .parsingPayload => conn.onParsingPayload auth

/-- The loop of `decode_tcp_message_`. Every round but the first takes a header,
so the length of the buffer bounds the rounds. -/
def decodeLoop : Nat → ClusterConn → Option ClusterConn
  | 0, _ => none
  | fuel + 1, conn => do
      let (goesOn, conn) ← conn.decodeRound auth
      if goesOn ∧ conn.inBuffer ≠ [] then decodeLoop fuel conn
      else some conn

def decodeTcpMessage (conn : ClusterConn) : Option ClusterConn :=
  decodeLoop auth (conn.inBuffer.length + 2) conn

/-- The read callback: nothing is read from a connection that is not open. -/
def readCb (conn : ClusterConn) (chunk : Bytes) : Option ClusterConn :=
  if conn.state = .connected then
    decodeTcpMessage auth { conn with inBuffer := conn.inBuffer ++ chunk }
  else some conn

def feedChunks : ClusterConn → List Bytes → Option ClusterConn
  | conn, [] => some conn
  | conn, chunk :: chunks => do
      let conn ← conn.readCb auth chunk
      feedChunks conn chunks

end ClusterConn

end TinyMqtt
