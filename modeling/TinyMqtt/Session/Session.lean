import TinyMqtt.Codec.Decode
import TinyMqtt.Store.MsgStore

/-!
The session's side of the publish flows (`mqtt/mqtt_session.c`): publishing,
the handlers of the packets of the QoS 1 and QoS 2 handshakes, and the
retransmission at the start of a connection. Timestamps are left out.
-/

namespace TinyMqtt

open LinkedList

variable {π : Type} [TmqString π]

/-- The copy of a stored packet that is handed to the connection. Stored
packets are PUBLISH or PUBREL packets, and a PUBREL is its identifier. -/
def cloneForSending : Packet π → Packet π
  | .publish pkt => .publish (tmqPublishPktClone pkt)
  | pkt => pkt

/-- `tmq_session_send_packet` without queueing. -/
def tmqSessionSendPacket (session : Session π) (pkt : Packet π) : Session π :=
  session.record (.sendPacket pkt)

def acknowledge (session : Session π) (packetId : UInt16) (type : PacketType) (qos : Int) :
    Option (Session π) := do
  let (next, session) ← memoryStoreAcknowledge session packetId type qos
  match next with
  | none => some session
  | some addr => do
      let cell ← session.heap addr
      some (tmqSessionSendPacket session (cloneForSending cell.value.packet))

/-- The loop of `resend_messages` from `sendingPkt` on, for at most `fuel`
packets. -/
def resendMessagesFrom (session : Session π) : Nat → Option Addr → Option (Session π)
  | 0, _ => none
  | fuel + 1, sendingPkt =>
      match sendingPkt with
      | none => some session
      | some addr =>
          if session.messageStore.pendingPointer = some addr then some session
          else do
            let cell ← session.heap addr
            resendMessagesFrom
              (tmqSessionSendPacket session (cloneForSending cell.value.packet)) fuel cell.next

/-- `resend_messages`. The loop ends after the inflight packets. -/
def resendMessages (session : Session π) : Option (Session π) :=
  resendMessagesFrom session (session.inflightPackets.toNat + 1)
    session.messageStore.sendingQueueHead

def tmqSessionStart (session : Session π) : Option (Session π) :=
  resendMessages session

/-- The successor of a packet identifier in `tmq_session_publish`. -/
def nextPacketIdAfter (packetId : UInt16) : UInt16 :=
  if packetId = 65535 then 0 else packetId + 1

/-- The packet `tmq_session_publish` builds. Only a QoS above 0 gives it a
packet identifier and QoS bits. -/
def newPublishPkt (nextPacketId : UInt16) (topic : Bytes) (payload : π) (qos retain : UInt8) :
    PublishPkt π :=
  if 0 < qos then
    { flags := retain ||| (qos <<< 1), topic := tmqStrNew topic, packetId := nextPacketId,
      payload := tmqStrNew payload }
  else { flags := retain, topic := tmqStrNew topic, packetId := 0, payload := tmqStrNew payload }

/-- `tmq_session_publish`. The stored packet is created at the address that
`malloc` returns. -/
def tmqSessionPublish (session : Session π) (malloc : Addr) (topic : Bytes) (payload : π)
    (qos retain : UInt8) (storeOnly : Bool) : Option (Session π) := do
  let publishPkt := newPublishPkt session.nextPacketId topic payload qos retain
  if 0 < qos then
    let session := { session with nextPacketId := nextPacketIdAfter session.nextPacketId }
    let session := session.sendingPacketNew malloc publishPkt.packetId
      (.publish (tmqPublishPktClone publishPkt))
    let (sendNow, session) ← memoryStoreStoreMessage session malloc
    some (if sendNow && !storeOnly then tmqSessionSendPacket session (.publish publishPkt)
      else session)
  else
    some (if storeOnly then session else tmqSessionSendPacket session (.publish publishPkt))

def tmqSessionSubscribe (session : Session π) (topicFilter : Bytes) (qos : UInt8) : Session π :=
  let subscribePkt : SubscribePkt := ⟨session.nextPacketId, [⟨tmqStrNew topicFilter, qos⟩]⟩
  let session := { session with nextPacketId := nextPacketIdAfter session.nextPacketId }
  tmqSessionSendPacket session (.subscribe subscribePkt)

def tmqSessionUnsubscribe (session : Session π) (topicFilter : Bytes) : Session π :=
  let unsubscribePkt : UnsubscribePkt := ⟨session.nextPacketId, [tmqStrNew topicFilter]⟩
  let session := { session with nextPacketId := nextPacketIdAfter session.nextPacketId }
  tmqSessionSendPacket session (.unsubscribe unsubscribePkt)

def tmqSessionHandlePublish (session : Session π) (publishPkt : PublishPkt π) : Session π :=
  let message : MqttMessage π := ⟨publishPkt.payload, publishQos publishPkt.flags⟩
  let deliver (session : Session π) : Session π :=
    session.record (.onNewMessage publishPkt.topic message (publishRetain publishPkt.flags))
  if publishQos publishPkt.flags = 2 then
    if publishPkt.packetId ∈ session.qos2PacketIds then session
    else deliver
      { session with qos2PacketIds := insert publishPkt.packetId session.qos2PacketIds }
  else deliver session

def tmqSessionHandlePuback (session : Session π) (packetId : UInt16) : Option (Session π) :=
  acknowledge session packetId .publish 1

/-- `tmq_session_handle_pubrec`. A PUBREL is stored whether or not the
identifier was known. -/
def tmqSessionHandlePubrec (session : Session π) (malloc : Addr) (packetId : UInt16) :
    Option (Session π) := do
  let session ← acknowledge session packetId .publish 2
  let session := session.sendingPacketNew malloc packetId (.pubrel packetId)
  let (sendNow, session) ← memoryStoreStoreMessage session malloc
  some (if sendNow then tmqSessionSendPacket session (.pubrel packetId) else session)

def tmqSessionHandlePubrel (session : Session π) (packetId : UInt16) : Session π :=
  { session with qos2PacketIds := session.qos2PacketIds.erase packetId }

def tmqSessionHandlePubcomp (session : Session π) (packetId : UInt16) : Option (Session π) :=
  acknowledge session packetId .pubrel (-1)

/-- What the codec does with a packet of the publish flows on a connection in
session: the acknowledgement it writes, then the session's callback. -/
def publishFlowEvents (upstream : Upstream) : Packet π → List (Event π)
  | .publish pkt => (publishAck pkt).toList.map .send ++ [.onPublish upstream pkt]
  | .puback packetId => [.onPubAck upstream packetId]
  | .pubrec packetId => [.onPubRec upstream packetId]
  | .pubrel packetId => [.send (.pubcomp packetId), .onPubRel upstream packetId]
  | .pubcomp packetId => [.onPubComp upstream packetId]
  | _ => []

/-- The session's part in what the codec does. -/
def handleEvent (malloc : Addr) (session : Session π) : Event π → Option (Session π)
  | .send pkt => some (tmqSessionSendPacket session pkt)
  | .onPublish _ pkt => some (tmqSessionHandlePublish session pkt)
  | .onPubAck _ packetId => tmqSessionHandlePuback session packetId
  | .onPubRec _ packetId => tmqSessionHandlePubrec session malloc packetId
  | .onPubRel _ packetId => some (tmqSessionHandlePubrel session packetId)
  | .onPubComp _ packetId => tmqSessionHandlePubcomp session packetId
  | _ => some session

def receivePacket (upstream : Upstream) (malloc : Addr) (session : Session π) (pkt : Packet π) :
    Option (Session π) :=
  (publishFlowEvents upstream pkt).foldlM (handleEvent malloc) session

end TinyMqtt
