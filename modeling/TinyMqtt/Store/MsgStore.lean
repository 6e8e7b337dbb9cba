import TinyMqtt.Session.Types

/-!
The in-memory message store (`store/mqtt_msg_store.c`). A step that follows a
null or freed pointer has no result.
-/

namespace TinyMqtt

open LinkedList

variable {π : Type}

/-- `memory_store_store_message`. The result says whether the packet is to be
sent at once. -/
def memoryStoreStoreMessage (session : Session π) (sendingPkt : Addr) :
    Option (Bool × Session π) := do
  let store := session.messageStore
  let heap ← match store.sendingQueueTail with
    | none => some session.heap
    | some tail => do
        let cell ← session.heap tail
        some (Function.update session.heap tail (some { cell with next := some sendingPkt }))
  let head := if store.sendingQueueTail.isNone then some sendingPkt else store.sendingQueueHead
  let sendNow := decide (session.inflightPackets < session.inflightWindowSize)
  let pendingPointer :=
    if sendNow then store.pendingPointer
    else some (store.pendingPointer.getD sendingPkt)
  some (sendNow,
    { session with
      heap := heap
      messageStore :=
        { totalSize := store.totalSize + 1
          sendingQueueHead := head
          sendingQueueTail := some sendingPkt
          pendingPointer := pendingPointer }
      inflightPackets :=
        if sendNow then session.inflightPackets + 1 else session.inflightPackets })

/-- Whether the loop of `memory_store_acknowledge` stops at a packet. The
QoS is compared for PUBLISH only. -/
def StoredPacket.acknowledgedBy (stored : StoredPacket π) (packetId : UInt16) (type : PacketType)
    (qos : Int) : Bool :=
  if stored.packetId ≠ packetId ∨ stored.packet.packetType ≠ type then false
  else match stored.packet with
    | .publish pkt => (publishQos pkt.flags : Int) = qos
    | _ => true

/-- The loop of `memory_store_acknowledge` from the link `p` on, `remaining`
rounds before `cnt` reaches the number of inflight packets. The result is the
link the loop stops at, if it finds a packet. -/
def findAcknowledged (session : Session π) (packetId : UInt16) (type : PacketType) (qos : Int) :
    Link → Nat → Option (Option Link)
  | p, 0 => do
      let _ ← readLink session.heap session.messageStore.sendingQueueHead p
      some none
  | p, remaining + 1 => do
      match ← readLink session.heap session.messageStore.sendingQueueHead p with
      | none => some none
      | some addr => do
          let cell ← session.heap addr
          if cell.value.acknowledgedBy packetId type qos then some (some p)
          else findAcknowledged session packetId type qos (.next addr) remaining

/-- A link read as a pointer to the packet it is the first field of. The
store's own head is no part of a packet. -/
def linkAsPacket : Link → Option Addr
  | .head => none
  | .next node => some node

/-- The tail once the packet `remove`, found through the link `p`, is unlinked
and `head` is the first packet. -/
def tailAfterRemoval (tail head : Option Addr) (remove : Addr) (p : Link) : Option (Option Addr) :=
  if tail = some remove then
    if head.isSome then (linkAsPacket p).map some else some none
  else some tail

/-- The call of `on_publish_finish`, made for PUBLISH only. -/
def reportPublishFinish (session : Session π) (packet : Packet π) (qos : Int) : Session π :=
  match packet with
  | .publish pkt =>
      if session.onPublishFinish then session.record (.onPublishFinish pkt.packetId qos)
      else session
  | _ => session

def removeAcknowledged (session : Session π) (p : Link) (qos : Int) : Option (Session π) := do
  let remove ← (← readLink session.heap session.messageStore.sendingQueueHead p)
  let cell ← session.heap remove
  let session := reportPublishFinish session cell.value.packet qos
  let (heap, head) ← writeLink session.heap session.messageStore.sendingQueueHead p cell.next
  let tail ← tailAfterRemoval session.messageStore.sendingQueueTail head remove p
  some { session with
    heap := Function.update heap remove none
    messageStore :=
      { session.messageStore with
        totalSize := session.messageStore.totalSize - 1
        sendingQueueHead := head
        sendingQueueTail := tail }
    inflightPackets := session.inflightPackets - 1 }

/-- What follows a valid acknowledgement: the first pending packet is returned
to be sent. -/
def releasePending (session : Session π) : Option (Option Addr × Session π) :=
  match session.messageStore.pendingPointer with
  | none => some (none, session)
  | some pending => do
      let cell ← session.heap pending
      some (some pending,
        { session with
          messageStore := { session.messageStore with pendingPointer := cell.next }
          inflightPackets := session.inflightPackets + 1 })

def memoryStoreAcknowledge (session : Session π) (packetId : UInt16) (type : PacketType)
    (qos : Int) : Option (Option Addr × Session π) := do
  match ← findAcknowledged session packetId type qos .head session.inflightPackets.toNat with
  | none => some (none, session)
  | some p => do
      let session ← removeAcknowledged session p qos
      releasePending session

end TinyMqtt
