import TinyMqtt.Codec.Packet
import TinyMqtt.Lib.LinkedList
import Mathlib.Data.Finset.Insert

/-!
A session (`tmq_session_t`) with the in-memory message store it points to. The
packets of the sending queue are cells of a heap, linked through the first
field of `sending_packet_t`; the store keeps pointers into that queue. The
callbacks a session makes and the packets it hands to its connection are
recorded in a log.
-/

namespace TinyMqtt

open LinkedList

/-- A `sending_packet_t` without its link. -/
structure StoredPacket (π : Type) where
  packetId : UInt16
  packet : Packet π
  deriving DecidableEq, Repr

/-- `MESSAGE_STORE_PUBLIC_MEMBERS`, the whole of a memory store. -/
structure MessageStore where
  totalSize : UInt16
  sendingQueueHead : Option Addr
  sendingQueueTail : Option Addr
  pendingPointer : Option Addr
  deriving DecidableEq, Repr

structure MqttMessage (π : Type) where
  message : π
  qos : Nat
  deriving DecidableEq, Repr

inductive SessionEvent (π : Type) where
  | sendPacket (pkt : Packet π)
  | onNewMessage (topic : Bytes) (message : MqttMessage π) (retain : Nat)
  | onPublishFinish (packetId : UInt16) (qos : Int)
  deriving DecidableEq, Repr

structure Session (π : Type) where
  /-- the cells that hold the session's `sending_packet_t`s -/
  heap : Heap (StoredPacket π)
  messageStore : MessageStore
  /-- whether the `on_publish_finish` callback is set -/
  onPublishFinish : Bool
  nextPacketId : UInt16
  inflightWindowSize : UInt8
  inflightPackets : UInt8
  qos2PacketIds : Finset UInt16
  log : List (SessionEvent π)

variable {π : Type}

/-- `tmq_session_new` with a new memory store. The first packet identifier is
random and the client sets the callback, so both are arguments. -/
def tmqSessionNew (onPublishFinish : Bool) (nextPacketId : UInt16) (maxInflight : UInt8) :
    Session π where
  heap := fun _ => none
  messageStore := ⟨0, none, none, none⟩
  onPublishFinish := onPublishFinish
  nextPacketId := nextPacketId
  inflightWindowSize := maxInflight
  inflightPackets := 0
  qos2PacketIds := ∅
  log := []

namespace Session

def record (session : Session π) (event : SessionEvent π) : Session π :=
  { session with log := session.log ++ [event] }

def sent (session : Session π) : List (Packet π) :=
  session.log.filterMap fun
    | .sendPacket pkt => some pkt
    | _ => none

/-- The messages passed to `on_new_message`, with their topics. -/
def delivered (session : Session π) : List (Bytes × MqttMessage π) :=
  session.log.filterMap fun
    | .onNewMessage topic message _ => some (topic, message)
    | _ => none

/-- The messages passed to `on_new_message`, with topic and retain flag. -/
def passed (session : Session π) : List (Bytes × MqttMessage π × Nat) :=
  session.log.filterMap fun
    | .onNewMessage topic message retain => some (topic, message, retain)
    | _ => none

/-- `sending_packet_new`. The address is the one `malloc` returns. -/
def sendingPacketNew (session : Session π) (malloc : Addr) (packetId : UInt16)
    (packet : Packet π) : Session π :=
  { session with
    heap := Function.update session.heap malloc (some ⟨none, ⟨packetId, packet⟩⟩) }

end Session

end TinyMqtt
