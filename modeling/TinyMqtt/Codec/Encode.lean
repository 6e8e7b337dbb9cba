import TinyMqtt.Codec.PacketBuf

/-!
The packet encoders of `codec/mqtt_proto_codec.c`. Every `send_*` function
computes the remaining length on its own, writes the fixed header and then
appends the fields; the bytes it hands to `tmq_tcp_conn_write` are the value
of its counterpart here. The host is little-endian, as `pack_uint16` needs.
-/

namespace TinyMqtt

/-- `tmq_str_len`: a null string has length zero. -/
def tmqStrLen : Option Bytes → Nat
  | none => 0
  | some s => s.length

/-- The loop of `make_fixed_header`: seven bits a byte, low group first. A
32-bit length has at most five groups, which bounds the recursion. -/
def remainLengthBytes : Nat → Nat → Bytes
  | 0, _ => []
  | fuel + 1, remainLength =>
      let byte := remainLength % 128
      let next := remainLength / 128
      if next > 0 then
        UInt8.ofNat (byte + 128) :: remainLengthBytes fuel next
      else
        [UInt8.ofNat byte]

def makeFixedHeader (type : PacketType) (flags : Nat) (remainLength : Nat) :
    Except SendError Bytes :=
  let bytes := remainLengthBytes 5 remainLength
  if bytes.length > 4 then .error .remainLengthTooLarge
  else .ok (UInt8.ofNat (type.code * 16 + flags % 16) :: bytes)

def packUint16 (value : UInt16) : Bytes :=
  [UInt8.ofNat (value.toNat / 256), UInt8.ofNat (value.toNat % 256)]

/-- `pack_uint16` applied to a length, which is cut to sixteen bits. -/
def packLength (len : Nat) : Bytes := packUint16 (UInt16.ofNat len)

def packString (s : Option Bytes) : Except SendError Bytes := do
  let body ← packStrcpy s
  return packLength (tmqStrLen s) ++ body

def uint16Steps (value : UInt16) : List PackStep := (packUint16 value).map .pushBack

def lengthSteps (len : Nat) : List PackStep := uint16Steps (UInt16.ofNat len)

def stringSteps (s : Option Bytes) : List PackStep := lengthSteps (tmqStrLen s) ++ [.strcpy s]

def packStringIf (flag : Bool) (s : Option Bytes) : Except SendError Bytes :=
  if flag then packString s else .ok []

def connectRemainLength (pkt : ConnectPkt) : Nat :=
  10 + (tmqStrLen pkt.clientId + 2) +
    (if connectUsernameFlag pkt.flags then tmqStrLen pkt.username + 2 else 0) +
    (if connectPasswordFlag pkt.flags then tmqStrLen pkt.password + 2 else 0) +
    (if connectWillFlag pkt.flags then
      tmqStrLen pkt.willTopic + 2 + (tmqStrLen pkt.willMessage + 2) else 0)

def packClientId (clientId : Option Bytes) : Except SendError Bytes :=
  if tmqStrLen clientId = 0 then .ok (packLength 0)
  else packString clientId

def sendConnectPacket (pkt : ConnectPkt) : Except SendError Bytes := do
  let header ← makeFixedHeader .connect 0 (connectRemainLength pkt % 2 ^ 32)
  let clientId ← packClientId pkt.clientId
  let willTopic ← packStringIf (connectWillFlag pkt.flags) pkt.willTopic
  let willMessage ← packStringIf (connectWillFlag pkt.flags) pkt.willMessage
  let username ← packStringIf (connectUsernameFlag pkt.flags) pkt.username
  let password ← packStringIf (connectPasswordFlag pkt.flags) pkt.password
  return header ++ (packUint16 4 ++ protocolName ++ [4, pkt.flags] ++ packUint16 pkt.keepAlive ++
    clientId ++ willTopic ++ willMessage ++ username ++ password)

def sendConnAckPacket (pkt : ConnackPkt) : Except SendError Bytes := do
  let header ← makeFixedHeader .connack 0 2
  return header ++ [pkt.ackFlags, pkt.returnCode]

def publishRemainLength (pkt : PublishPkt Bytes) : Nat :=
  if publishQos pkt.flags = 0 then 2 + pkt.topic.length + pkt.payload.length
  else 4 + pkt.topic.length + pkt.payload.length

/-- `pack_publish_packet`, which `send_publish_packet` writes as it is. The
topic and the payload are copied with their lengths, so zero bytes survive. -/
def packPublishPacket (pkt : PublishPkt Bytes) : Except SendError Bytes := do
  let header ← makeFixedHeader .publish pkt.flags.toNat (publishRemainLength pkt % 2 ^ 32)
  return header ++ (packLength pkt.topic.length ++ pkt.topic ++
    (if publishQos pkt.flags > 0 then packUint16 pkt.packetId else []) ++ pkt.payload)

/-- The five senders that write a packet identifier and nothing else. -/
def sendPacketId (type : PacketType) (flags : Nat) (packetId : UInt16) :
    Except SendError Bytes := do
  let header ← makeFixedHeader type flags 2
  return header ++ packUint16 packetId

def sendPubAckPacket := sendPacketId .puback 0
def sendPubRecPacket := sendPacketId .pubrec 0
def sendPubRelPacket := sendPacketId .pubrel 2
def sendPubCompPacket := sendPacketId .pubcomp 0
def sendUnsubAckPacket := sendPacketId .unsuback 0

def subscribeRemainLength (pkt : SubscribePkt) : Nat :=
  2 + (pkt.topics.map (fun t => t.topicFilter.length + 3)).sum

def subscribeSteps (pkt : SubscribePkt) : List PackStep :=
  uint16Steps pkt.packetId ++
    pkt.topics.flatMap fun t => stringSteps (some t.topicFilter) ++ [.pushBack t.qos]

/-- `send_subscribe_packet`. It reserves the remaining length, not what it
needs behind the fixed header. -/
def sendSubscribePacket (pkt : SubscribePkt) : Except SendError Bytes := do
  let remainLength := subscribeRemainLength pkt % 2 ^ 32
  let header ← makeFixedHeader .subscribe 2 remainLength
  let body ← packSteps ((PacketBuf.filled header.length).reserve remainLength)
    (subscribeSteps pkt)
  return header ++ body

def sendSubAckPacket (pkt : SubackPkt) : Except SendError Bytes := do
  let header ← makeFixedHeader .suback 0 ((2 + pkt.returnCodes.length) % 2 ^ 32)
  return header ++ (packUint16 pkt.packetId ++ pkt.returnCodes)

def unsubscribeRemainLength (pkt : UnsubscribePkt) : Nat :=
  2 + (pkt.topics.map (fun t => t.length + 2)).sum

def unsubscribeSteps (pkt : UnsubscribePkt) : List PackStep :=
  uint16Steps pkt.packetId ++ pkt.topics.flatMap fun t => stringSteps (some t)

/-- `send_unsubscribe_packet`, which reserves as `send_subscribe_packet`
does. -/
def sendUnsubscribePacket (pkt : UnsubscribePkt) : Except SendError Bytes := do
  let remainLength := unsubscribeRemainLength pkt % 2 ^ 32
  let header ← makeFixedHeader .unsubscribe 2 remainLength
  let body ← packSteps ((PacketBuf.filled header.length).reserve remainLength)
    (unsubscribeSteps pkt)
  return header ++ body

def sendPingReqPacket := makeFixedHeader .pingreq 0 0
def sendPingRespPacket := makeFixedHeader .pingresp 0 0
def sendDisconnectPacket := makeFixedHeader .disconnect 0 0

/-- The `packet_senders` table. -/
def packetSenders : Packet Bytes → Except SendError Bytes
  | .connect pkt => sendConnectPacket pkt
  | .connack pkt => sendConnAckPacket pkt
  | .publish pkt => packPublishPacket pkt
  | .puback packetId => sendPubAckPacket packetId
  | .pubrec packetId => sendPubRecPacket packetId
  | .pubrel packetId => sendPubRelPacket packetId
  | .pubcomp packetId => sendPubCompPacket packetId
  | .subscribe pkt => sendSubscribePacket pkt
  | .suback pkt => sendSubAckPacket pkt
  | .unsubscribe pkt => sendUnsubscribePacket pkt
  | .unsuback packetId => sendUnsubAckPacket packetId
  | .pingreq => sendPingReqPacket
  | .pingresp => sendPingRespPacket
  | .disconnect => sendDisconnectPacket

end TinyMqtt
