import TinyMqtt.Conn.TcpConn

/-!
The decoder of `codec/mqtt_proto_codec.c`. Packet parsers read from the
connection's shared input buffer; `tmq_buffer_read` gives fewer bytes than
asked for when the buffer runs short. A string read short keeps the zeros it
was created with, while a local variable read short keeps whatever was on the
stack. Using such an indeterminate value makes the result `none`: what the
program does next is not determined by its input.
-/

namespace TinyMqtt

/-- `mqtt_decode_status`. -/
inductive DecodeStatus where
  | decodeOk | needMoreData | unknownPacket | badPacketFormat | protocolError | unexpectedPacket
  deriving DecidableEq, Repr

def sub32 (a b : Nat) : Nat := (a + 2 ^ 32 - b) % 2 ^ 32

theorem sub32_of_le {a b : Nat} (hle : b ≤ a) (ha : a < 2 ^ 32) : sub32 a b = a - b := by
  unfold sub32
  omega

theorem sub32_of_lt {a b : Nat} (hlt : a < b) :
    sub32 a b = a + 2 ^ 32 - b := by
  unfold sub32
  omega

def tmqBufferRead (buffer : Bytes) (size : Nat) : Bytes × Bytes :=
  (buffer.take size, buffer.drop size)

/-- `tmq_buffer_read` of one byte into an uninitialised variable. -/
def tmqBufferRead8 : Bytes → Option UInt8 × Bytes
  | [] => (none, [])
  | byte :: rest => (some byte, rest)

def beUint16 (msb lsb : UInt8) : UInt16 := UInt16.ofNat (msb.toNat * 256 + lsb.toNat)

/-- `tmq_buffer_read16` into an uninitialised variable. -/
def tmqBufferRead16 : Bytes → Option UInt16 × Bytes
  | msb :: lsb :: rest => (some (beUint16 msb lsb), rest)
  | _ => (none, [])

/-- `tmq_buffer_read16` into a variable that holds `old`. The bytes that are
missing keep the variable's own before the conversion to host order. -/
def tmqBufferRead16Into (old : UInt16) : Bytes → UInt16 × Bytes
  | msb :: lsb :: rest => (beUint16 msb lsb, rest)
  | [msb] => (beUint16 msb (UInt8.ofNat (old.toNat / 256)), [])
  | [] => (beUint16 (UInt8.ofNat (old.toNat % 256)) (UInt8.ofNat (old.toNat / 256)), [])

/-- `tmq_buffer_read` into a string made by `tmq_str_new_len(NULL, size)`. -/
def tmqBufferReadStr (buffer : Bytes) (size : Nat) : Bytes × Bytes :=
  let (bytes, rest) := tmqBufferRead buffer size
  (bytes ++ List.replicate (size - bytes.length) 0, rest)

def readLengthPrefixed (buffer : Bytes) : Option (Bytes × Bytes) := do
  let (fieldLen, buffer) := tmqBufferRead16 buffer
  let fieldLen ← fieldLen
  return tmqBufferReadStr buffer fieldLen.toNat

def readLengthPrefixedIf (flag : Bool) (buffer : Bytes) : Option (Option Bytes × Bytes) :=
  if flag then do
    let (field, buffer) ← readLengthPrefixed buffer
    return (some field, buffer)
  else some (none, buffer)

/-- The will topic and the will message of a CONNECT. Both lengths are read
into the same variable. -/
def readWillIf (flag : Bool) (buffer : Bytes) :
    Option ((Option Bytes × Option Bytes) × Bytes) :=
  if flag then do
    let (fieldLen, buffer) := tmqBufferRead16 buffer
    let fieldLen ← fieldLen
    let (willTopic, buffer) := tmqBufferReadStr buffer fieldLen.toNat
    let (fieldLen, buffer) := tmqBufferRead16Into fieldLen buffer
    let (willMessage, buffer) := tmqBufferReadStr buffer fieldLen.toNat
    return ((some willTopic, some willMessage), buffer)
  else some ((none, none), buffer)

/-- `PACKET_TYPE` of a header byte. -/
def packetTypeOf (typeFlags : UInt8) : Option PacketType :=
  PacketType.ofCode? (typeFlags.toNat / 16)

/-- `FLAGS` of a header byte. -/
def flagsOf (typeFlags : UInt8) : UInt8 := UInt8.ofNat (typeFlags.toNat % 16)

/-- How `mqtt_connect` decides on a CONNECT: validation may run in the thread
pool, and then the answer comes later. -/
inductive Validation where
  | inProgress | failure | success
  deriving DecidableEq, Repr

/-- The part of the broker that `mqtt_connect` reads. `passwordValid` is the
look-up in the password file. -/
structure BrokerAuth where
  allowAnonymous : Bool
  mysqlEnabled : Bool
  passwordValid : ConnectPkt → Bool

def BrokerAuth.validate (auth : BrokerAuth) (pkt : ConnectPkt) : Validation :=
  if auth.allowAnonymous then .success
  else if auth.mysqlEnabled then .inProgress
  else if auth.passwordValid pkt then .success
  else .failure

/-- `mqtt_connect`, the broker's `on_connect`. A refused CONNECT is answered
on the spot and the connection state is left as it is. -/
def mqttConnect (auth : BrokerAuth) (conn : TcpConn) (pkt : ConnectPkt) : TcpConn :=
  match auth.validate pkt with
  | .inProgress | .success => conn.record (.sessionConnect pkt)
  | .failure => conn.send (.connack ⟨0, notAuthorized⟩)

/-- `on_connect_response`, the client's `on_conn_ack`: the connection enters
the client's one session whatever the return code is. -/
def onConnectResponse (conn : TcpConn) : TcpConn :=
  { conn with connState := .inSession, upstream := .session 0 }

/-- The checks of `parse_connect_packet` on the connect flags. -/
def connectFlagsValid (flags : UInt8) : Bool :=
  !connectReserved flags &&
    !((!connectWillFlag flags && connectWillQos flags ≠ 0) || connectWillQos flags > 2)

/-- The payload fields of a CONNECT after the client identifier's length. -/
def parseConnectFields (flags : UInt8) (keepAlive : Option UInt16) (clientIdLen : UInt16)
    (buffer : Bytes) : Option (ConnectPkt × Bytes) := do
  let (clientId, buffer) :=
    if clientIdLen.toNat > 0 then
      let (s, rest) := tmqBufferReadStr buffer clientIdLen.toNat
      (some s, rest)
    else (none, buffer)
  let ((willTopic, willMessage), buffer) ← readWillIf (connectWillFlag flags) buffer
  let (username, buffer) ← readLengthPrefixedIf (connectUsernameFlag flags) buffer
  let (password, buffer) ← readLengthPrefixedIf (connectPasswordFlag flags) buffer
  let keepAlive ← keepAlive
  return (⟨flags, keepAlive, clientId, willTopic, willMessage, username, password⟩, buffer)

/-- `parse_connect_packet` from the connect flags on. -/
def parseConnectPayload (auth : BrokerAuth) (conn : TcpConn) (flags : UInt8) (buffer : Bytes) :
    Option (DecodeStatus × TcpConn) := do
  if !connectFlagsValid flags then return (.protocolError, conn.withInput buffer)
  let (keepAlive, buffer) := tmqBufferRead16 buffer
  let (clientIdLen, buffer) := tmqBufferRead16 buffer
  let clientIdLen ← clientIdLen
  if clientIdLen.toNat = 0 ∧ !connectCleanSession flags then
    let conn := conn.withInput buffer
    return (.protocolError, conn.send (.connack ⟨0, identifierRejected⟩))
  let (pkt, buffer) ← parseConnectFields flags keepAlive clientIdLen buffer
  let conn := { conn with connState := .startingSession }.withInput buffer
  return (.decodeOk, mqttConnect auth (conn.call (.onConnect conn.upstream pkt)) pkt)

/-- `parse_connect_packet` from the protocol level on. -/
def parseConnectLevel (auth : BrokerAuth) (conn : TcpConn) (buffer : Bytes) :
    Option (DecodeStatus × TcpConn) := do
  let (protocolLevel, buffer) := tmqBufferRead8 buffer
  let protocolLevel ← protocolLevel
  if protocolLevel ≠ 4 then
    let conn := conn.withInput buffer
    return (.protocolError, conn.send (.connack ⟨0, unacceptableProtocolVersion⟩))
  let (flags, buffer) := tmqBufferRead8 buffer
  let flags ← flags
  parseConnectPayload auth conn flags buffer

def parseConnectPacket (auth : BrokerAuth) (conn : TcpConn) (_len : Nat) :
    Option (DecodeStatus × TcpConn) := do
  if conn.codecType ≠ .server then return (.unexpectedPacket, conn)
  let (protocolNameLen, buffer) := tmqBufferRead16 conn.inBuffer
  let protocolNameLen ← protocolNameLen
  if protocolNameLen ≠ 4 then return (.protocolError, conn.withInput buffer)
  let (name, buffer) := tmqBufferReadStr buffer 4
  if name ≠ protocolName then return (.protocolError, conn.withInput buffer)
  parseConnectLevel auth conn buffer

def parseConnAckPacket (_auth : BrokerAuth) (conn : TcpConn) (_len : Nat) :
    Option (DecodeStatus × TcpConn) := do
  if conn.codecType ≠ .client then return (.unexpectedPacket, conn)
  let (ackFlags, buffer) := tmqBufferRead8 conn.inBuffer
  let (returnCode, buffer) := tmqBufferRead8 buffer
  let returnCode ← returnCode
  let ackFlags ← ackFlags
  let conn := conn.withInput buffer
  return (.decodeOk, onConnectResponse (conn.call (.onConnAck conn.upstream ⟨ackFlags, returnCode⟩)))

/-- The acknowledgement `parse_publish_packet` writes before it hands the
packet on. -/
def publishAck {π : Type} (pkt : PublishPkt π) : Option (Packet π) :=
  if publishQos pkt.flags = 1 then some (.puback pkt.packetId)
  else if publishQos pkt.flags = 2 then some (.pubrec pkt.packetId)
  else none

/-- The end of `parse_publish_packet`, once the packet is read. -/
def deliverPublish (conn : TcpConn) (pkt : PublishPkt Bytes) : TcpConn :=
  if conn.connState = .tunneled then conn.call (.onTunPublish conn.upstream pkt)
  else
    let conn := match publishAck pkt with
      | some ack => conn.send ack
      | none => conn
    conn.call (.onPublish conn.upstream pkt)

/-- `parse_publish_packet` after the topic name. At QoS 0 the source leaves
`packet_id` unwritten and nothing reads it; it is zero here. -/
def parsePublishRest (conn : TcpConn) (flags : UInt8) (topic : Bytes) (payloadLen : Int)
    (buffer : Bytes) : Option (DecodeStatus × TcpConn) := do
  let (packetId, buffer) :=
    if publishQos flags ≠ 0 then tmqBufferRead16 buffer else (some 0, buffer)
  let payloadLen := if publishQos flags ≠ 0 then payloadLen - 2 else payloadLen
  if payloadLen < 0 then return (.badPacketFormat, conn.withInput buffer)
  let packetId ← packetId
  let (payload, buffer) := tmqBufferReadStr buffer payloadLen.toNat
  return (.decodeOk, deliverPublish (conn.withInput buffer) ⟨flags, topic, packetId, payload⟩)

/-- `parse_publish_packet`. The payload length is computed in 32 unsigned
bits and only then widened to a signed 64-bit value. -/
def parsePublishPacket (_auth : BrokerAuth) (conn : TcpConn) (len : Nat) :
    Option (DecodeStatus × TcpConn) := do
  let (topicNameLen, buffer) := tmqBufferRead16 conn.inBuffer
  let topicNameLen ← topicNameLen
  let (topic, buffer) := tmqBufferReadStr buffer topicNameLen.toNat
  let payloadLen := sub32 (sub32 len 2) topicNameLen.toNat
  parsePublishRest conn (flagsOf conn.parsing.typeFlags) topic payloadLen buffer

/-- The parsers that read a packet identifier and hand it to a callback. -/
def parsePacketId (handle : TcpConn → UInt16 → TcpConn) (conn : TcpConn) :
    Option (DecodeStatus × TcpConn) := do
  let (packetId, buffer) := tmqBufferRead16 conn.inBuffer
  let packetId ← packetId
  return (.decodeOk, handle (conn.withInput buffer) packetId)

def handlePacketId (event : Upstream → UInt16 → Event Bytes) (conn : TcpConn)
    (packetId : UInt16) : TcpConn :=
  conn.call (event conn.upstream packetId)

/-- A PUBREL is answered with a PUBCOMP before it is handed on. -/
def handlePubRel (conn : TcpConn) (packetId : UInt16) : TcpConn :=
  handlePacketId .onPubRel (conn.send (.pubcomp packetId)) packetId

def parsePubAckPacket (_auth : BrokerAuth) (conn : TcpConn) (_len : Nat) :=
  parsePacketId (handlePacketId .onPubAck) conn

def parsePubrecPacket (_auth : BrokerAuth) (conn : TcpConn) (_len : Nat) :=
  parsePacketId (handlePacketId .onPubRec) conn

def parsePubRelPacket (_auth : BrokerAuth) (conn : TcpConn) (_len : Nat) :=
  parsePacketId handlePubRel conn

def parsePubcompPacket (_auth : BrokerAuth) (conn : TcpConn) (_len : Nat) :=
  parsePacketId (handlePacketId .onPubComp) conn

/-- The loop of `parse_subscribe_packet` over the topic filters. `len` is an
unsigned 32-bit counter that the source decreases without a check. Every
round reads a two-byte length, so the buffer bounds the recursion. -/
def parseTopicFilters : Nat → Nat → Bytes → Option (DecodeStatus × List TopicFilterQos × Bytes)
  | 0, _, _ => none
  | fuel + 1, len, buffer =>
      if len = 0 then some (.decodeOk, [], buffer)
      else do
        let (filterLen, buffer) := tmqBufferRead16 buffer
        let filterLen ← filterLen
        let (filter, buffer) := tmqBufferReadStr buffer filterLen.toNat
        let (qos, buffer) := tmqBufferRead8 buffer
        let qos := qos.getD 0
        if qos > 2 then return (.protocolError, [], buffer)
        let len := sub32 len (2 + filterLen.toNat + 1)
        let (status, topics, buffer) ← parseTopicFilters fuel len buffer
        return (status, ⟨filter, qos⟩ :: topics, buffer)

def parseSubscribePacket (_auth : BrokerAuth) (conn : TcpConn) (len : Nat) :
    Option (DecodeStatus × TcpConn) := do
  if conn.codecType ≠ .server then return (.unexpectedPacket, conn)
  let (packetId, buffer) := tmqBufferRead16 conn.inBuffer
  let (status, topics, buffer) ←
    parseTopicFilters (buffer.length + 1) (sub32 len 2) buffer
  let conn := conn.withInput buffer
  if status ≠ .decodeOk then return (status, conn)
  let packetId ← packetId
  return (.decodeOk, conn.call (.onSubscribe conn.upstream ⟨packetId, topics⟩))

/-- The loop of `parse_suback_packet` over the return codes. -/
def parseReturnCodes : Nat → Bytes → Option (List UInt8 × Bytes)
  | 0, buffer => some ([], buffer)
  | len + 1, buffer => do
      let (ret, buffer) := tmqBufferRead8 buffer
      let ret ← ret
      let (codes, buffer) ← parseReturnCodes len buffer
      return (ret :: codes, buffer)

def parseSubackPacket (_auth : BrokerAuth) (conn : TcpConn) (len : Nat) :
    Option (DecodeStatus × TcpConn) := do
  if conn.codecType ≠ .client then return (.unexpectedPacket, conn)
  let (packetId, buffer) := tmqBufferRead16 conn.inBuffer
  let (codes, buffer) ← parseReturnCodes (sub32 len 2) buffer
  let packetId ← packetId
  let conn := conn.withInput buffer
  return (.decodeOk, conn.call (.onSubAck conn.upstream ⟨packetId, codes⟩))

/-- The loop of `parse_unsubscribe_packet` over the topic filters. -/
def parseFilters : Nat → Nat → Bytes → Option (List Bytes × Bytes)
  | 0, _, _ => none
  | fuel + 1, len, buffer =>
      if len = 0 then some ([], buffer)
      else do
        let (filterLen, buffer) := tmqBufferRead16 buffer
        let filterLen ← filterLen
        let (filter, buffer) := tmqBufferReadStr buffer filterLen.toNat
        let len := sub32 len (2 + filterLen.toNat)
        let (topics, buffer) ← parseFilters fuel len buffer
        return (filter :: topics, buffer)

def parseUnsubscribePacket (_auth : BrokerAuth) (conn : TcpConn) (len : Nat) :
    Option (DecodeStatus × TcpConn) := do
  if conn.codecType ≠ .server then return (.unexpectedPacket, conn)
  let (packetId, buffer) := tmqBufferRead16 conn.inBuffer
  let (topics, buffer) ← parseFilters (buffer.length + 1) (sub32 len 2) buffer
  let packetId ← packetId
  let conn := conn.withInput buffer
  return (.decodeOk, conn.call (.onUnsubscribe conn.upstream ⟨packetId, topics⟩))

def parseUnsubAckPacket (_auth : BrokerAuth) (conn : TcpConn) (_len : Nat) :
    Option (DecodeStatus × TcpConn) :=
  if conn.codecType ≠ .client then some (.unexpectedPacket, conn)
  else parsePacketId (handlePacketId .onUnsubAck) conn

/-- The body of `parse_ping_req_packet`. -/
def handlePingReq (conn : TcpConn) : TcpConn :=
  let conn := conn.send .pingresp
  conn.call (.onPingReq conn.upstream)

def parsePingReqPacket (_auth : BrokerAuth) (conn : TcpConn) (_len : Nat) :
    Option (DecodeStatus × TcpConn) :=
  if conn.codecType ≠ .server then some (.unexpectedPacket, conn)
  else some (.decodeOk, handlePingReq conn)

def parsePingRespPacket (_auth : BrokerAuth) (conn : TcpConn) (_len : Nat) :
    Option (DecodeStatus × TcpConn) :=
  if conn.codecType ≠ .client then some (.unexpectedPacket, conn)
  else some (.decodeOk, conn.call (.onPingResp conn.upstream))

/-- The body of `parse_disconnect_packet`. The broker's `on_disconnect` posts
a close request for the session the union held. -/
def handleDisconnect (conn : TcpConn) : TcpConn :=
  let session := conn.upstream
  let next := { conn with connState := .noSession, upstream := .broker }
  if conn.connState = .inSession then
    (next.call (.onDisconnect .broker session)).record
      (.sessionClose .sessionDisconnect (some session))
  else next

def parseDisconnectPacket (_auth : BrokerAuth) (conn : TcpConn) (_len : Nat) :
    Option (DecodeStatus × TcpConn) :=
  if conn.codecType ≠ .server then some (.unexpectedPacket, conn)
  else some (.decodeOk, handleDisconnect conn)

/-- The `packet_parsers` table. -/
def packetParsers : PacketType → BrokerAuth → TcpConn → Nat → Option (DecodeStatus × TcpConn)
  | .connect => parseConnectPacket
  | .connack => parseConnAckPacket
  | .publish => parsePublishPacket
  | .puback => parsePubAckPacket
  | .pubrec => parsePubrecPacket
  | .pubrel => parsePubRelPacket
  | .pubcomp => parsePubcompPacket
  | .subscribe => parseSubscribePacket
  | .suback => parseSubackPacket
  | .unsubscribe => parseUnsubscribePacket
  | .unsuback => parseUnsubAckPacket
  | .pingreq => parsePingReqPacket
  | .pingresp => parsePingRespPacket
  | .disconnect => parseDisconnectPacket

def validateFlags (type : PacketType) (flags : UInt8) : DecodeStatus :=
  match type with
  | .publish => .decodeOk
  | .pubrel | .subscribe | .unsubscribe => if flags = 2 then .decodeOk else .badPacketFormat
  | _ => if flags = 0 then .decodeOk else .protocolError

/-- `parse_remain_length` on a buffer that is not empty: the `do` loop takes
bytes while there are more and the last one had its high bit set. -/
def parseRemainLength (parsing : ParsingCtx) : Bytes → DecodeStatus × ParsingCtx × Bytes
  | [] => (.needMoreData, parsing, [])
  | byte :: rest =>
      let parsing := { parsing with
        remainLength := (parsing.remainLength + byte.toNat % 128 * parsing.multiplier) % 2 ^ 32 }
      if parsing.multiplier > 128 * 128 * 128 then (.badPacketFormat, parsing, rest)
      else
        let parsing := { parsing with multiplier := parsing.multiplier * 128 % 2 ^ 32 }
        if byte.toNat ≥ 128 then parseRemainLength parsing rest
        else (.decodeOk, parsing, rest)

/-- The case `PARSING_BODY` of the decoder's switch. -/
def onParsingBody (auth : BrokerAuth) (conn : TcpConn) : Option (DecodeStatus × TcpConn) := do
  if conn.inBuffer.length < conn.parsing.remainLength then return (.needMoreData, conn)
  let type ← packetTypeOf conn.parsing.typeFlags
  let entered := conn.record (.parse type conn.state conn.connState)
  let (status, conn) ← packetParsers type auth entered conn.parsing.remainLength
  if status = .decodeOk then
    return (status, { conn with parsing := { conn.parsing with state := .parsingFixedHeader } })
  return (status, conn)

/-- The case `PARSING_REMAIN_LENGTH`. With nothing to read the switch is left
with the status it was entered with, which `validate_flags` set when the
header was read in the same round and nobody set otherwise. -/
def onParsingRemainLength (auth : BrokerAuth) (status : Option DecodeStatus) (conn : TcpConn) :
    Option (DecodeStatus × TcpConn) :=
  if conn.inBuffer = [] then status.map (·, conn)
  else
    let (status, parsing, buffer) := parseRemainLength conn.parsing conn.inBuffer
    let conn := { conn with parsing := parsing }.withInput buffer
    if status = .decodeOk then
      onParsingBody auth { conn with parsing := { conn.parsing with state := .parsingBody } }
    else some (status, conn)

/-- The case `PARSING_FIXED_HEADER`, with `parse_fix_header`. -/
def onParsingFixedHeader (auth : BrokerAuth) (conn : TcpConn) :
    Option (DecodeStatus × TcpConn) := do
  let (byte, buffer) := tmqBufferRead8 conn.inBuffer
  let byte ← byte
  let conn := conn.withInput buffer
  match packetTypeOf byte with
  | none => return (.unknownPacket, conn)
  | some type =>
      let conn := { conn with parsing := ⟨.parsingRemainLength, byte, 0, 1⟩ }
      let status := validateFlags type (flagsOf byte)
      if status = .badPacketFormat then return (status, conn)
      if conn.connState = .noSession ∧ type ≠ .connect ∧ type ≠ .connack then
        return (.protocolError, conn)
      onParsingRemainLength auth (some status) conn

def decodeRound (auth : BrokerAuth) (conn : TcpConn) : Option (DecodeStatus × TcpConn) :=
  match conn.parsing.state with
  | .parsingFixedHeader => onParsingFixedHeader auth conn
  | .parsingRemainLength => onParsingRemainLength auth none conn
  | .parsingBody => onParsingBody auth conn

/-- The condition of the decoder's `while`. -/
def TcpConn.decodeAgain (conn : TcpConn) : Bool :=
  conn.connState ≠ .tunneled && conn.inBuffer ≠ [] && conn.parsing.state = .parsingFixedHeader

/-- The loop of `decode_tcp_message_`. Every round after the first takes at
least the header byte, so the length of the buffer bounds the rounds. -/
def decodeLoop (auth : BrokerAuth) : Nat → TcpConn → Option TcpConn
  | 0, _ => none
  | fuel + 1, conn => do
      let (status, conn) ← decodeRound auth conn
      if status ≠ .decodeOk ∧ status ≠ .needMoreData then return conn.close
      if conn.decodeAgain then decodeLoop auth fuel conn
      else return conn

def decodeTcpMessage (auth : BrokerAuth) (conn : TcpConn) : Option TcpConn :=
  decodeLoop auth (conn.inBuffer.length + 2) conn

/-- The read callback: nothing is read from a connection that is not open. -/
def readCb (auth : BrokerAuth) (conn : TcpConn) (chunk : Bytes) : Option TcpConn :=
  if conn.state = .connected then
    decodeTcpMessage auth (conn.withInput (conn.inBuffer ++ chunk))
  else some conn

end TinyMqtt
