import TinyMqtt.Base.Str

/-!
Packets of MQTT 3.1.1 as the broker and the client hold them in memory
(`mqtt/mqtt_packet.h`), with the flag macros of that header. An optional
string that was never set is a null pointer in the source and `none` here.
-/

namespace TinyMqtt

/-- The fourteen packet types, numbered from `MQTT_CONNECT = 1`. -/
inductive PacketType where
  | connect | connack
  | publish | puback | pubrec | pubrel | pubcomp
  | subscribe | suback
  | unsubscribe | unsuback
  | pingreq | pingresp
  | disconnect
  deriving DecidableEq, Repr

def PacketType.code : PacketType → Nat
  | .connect => 1 | .connack => 2
  | .publish => 3 | .puback => 4 | .pubrec => 5 | .pubrel => 6 | .pubcomp => 7
  | .subscribe => 8 | .suback => 9
  | .unsubscribe => 10 | .unsuback => 11
  | .pingreq => 12 | .pingresp => 13
  | .disconnect => 14

def PacketType.ofCode? : Nat → Option PacketType
  | 1 => some .connect | 2 => some .connack
  | 3 => some .publish | 4 => some .puback | 5 => some .pubrec
  | 6 => some .pubrel | 7 => some .pubcomp
  | 8 => some .subscribe | 9 => some .suback
  | 10 => some .unsubscribe | 11 => some .unsuback
  | 12 => some .pingreq | 13 => some .pingresp
  | 14 => some .disconnect
  | _ => none

@[simp] theorem PacketType.ofCode?_code (t : PacketType) : ofCode? t.code = some t := by
  cases t <;> rfl

theorem PacketType.code_lt (t : PacketType) : t.code < 16 := by
  cases t <;> decide

def protocolName : Bytes := [77, 81, 84, 84]

structure ConnectPkt where
  flags : UInt8
  keepAlive : UInt16
  clientId : Option Bytes
  willTopic : Option Bytes
  willMessage : Option Bytes
  username : Option Bytes
  password : Option Bytes
  deriving DecidableEq, Repr

def connectUsernameFlag (flags : UInt8) : Bool := flags.toNat / 128 % 2 = 1

def connectPasswordFlag (flags : UInt8) : Bool := flags.toNat / 64 % 2 = 1

def connectWillQos (flags : UInt8) : Nat := flags.toNat / 8 % 4

def connectWillFlag (flags : UInt8) : Bool := flags.toNat / 4 % 2 = 1

def connectCleanSession (flags : UInt8) : Bool := flags.toNat / 2 % 2 = 1

def connectReserved (flags : UInt8) : Bool := flags.toNat % 2 = 1

/-- `connack_return_code`. The decoder stores whatever byte it receives in
this enumeration, so the field is a byte; the values below are the ones the
broker itself answers with. -/
abbrev ConnackReturnCode := UInt8

def connectionAccepted : ConnackReturnCode := 0
def unacceptableProtocolVersion : ConnackReturnCode := 1
def identifierRejected : ConnackReturnCode := 2
def notAuthorized : ConnackReturnCode := 5

structure ConnackPkt where
  ackFlags : UInt8
  returnCode : ConnackReturnCode
  deriving DecidableEq, Repr

/-- A PUBLISH packet over a string type for the payload. `packetId` has a
meaning for QoS 1 and 2 only. -/
structure PublishPkt (π : Type) where
  flags : UInt8
  topic : Bytes
  packetId : UInt16
  payload : π
  deriving DecidableEq, Repr

def publishQos (flags : UInt8) : Nat := flags.toNat / 2 % 4

def publishRetain (flags : UInt8) : Nat := flags.toNat % 2

structure TopicFilterQos where
  topicFilter : Bytes
  qos : UInt8
  deriving DecidableEq, Repr

structure SubscribePkt where
  packetId : UInt16
  topics : List TopicFilterQos
  deriving DecidableEq, Repr

structure SubackPkt where
  packetId : UInt16
  returnCodes : List UInt8
  deriving DecidableEq, Repr

structure UnsubscribePkt where
  packetId : UInt16
  topics : List Bytes
  deriving DecidableEq, Repr

/-- `tmq_any_packet_t`: one packet of any type. The acknowledgement packets
consist of their packet identifier. -/
inductive Packet (π : Type) where
  | connect (pkt : ConnectPkt)
  | connack (pkt : ConnackPkt)
  | publish (pkt : PublishPkt π)
  | puback (packetId : UInt16)
  | pubrec (packetId : UInt16)
  | pubrel (packetId : UInt16)
  | pubcomp (packetId : UInt16)
  | subscribe (pkt : SubscribePkt)
  | suback (pkt : SubackPkt)
  | unsubscribe (pkt : UnsubscribePkt)
  | unsuback (packetId : UInt16)
  | pingreq
  | pingresp
  | disconnect
  deriving DecidableEq, Repr

def Packet.packetType {π : Type} : Packet π → PacketType
  | .connect _ => .connect
  | .connack _ => .connack
  | .publish _ => .publish
  | .puback _ => .puback
  | .pubrec _ => .pubrec
  | .pubrel _ => .pubrel
  | .pubcomp _ => .pubcomp
  | .subscribe _ => .subscribe
  | .suback _ => .suback
  | .unsubscribe _ => .unsubscribe
  | .unsuback _ => .unsuback
  | .pingreq => .pingreq
  | .pingresp => .pingresp
  | .disconnect => .disconnect

/-- `tmq_publish_pkt_clone`. The topic and the payload are copied as C
strings. -/
def tmqPublishPktClone {π : Type} [TmqString π] (pkt : PublishPkt π) : PublishPkt π :=
  { pkt with topic := tmqStrNew pkt.topic, payload := tmqStrNew pkt.payload }

end TinyMqtt
