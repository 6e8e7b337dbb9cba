import TinyMqtt.Codec.RoundTrip
import TinyMqtt.Lib.Run
import TinyMqtt.Session.Session

/-!
Two persistent sessions, one of which publishes to the other over connections
that come and go. A connection delivers packets in order; when it drops, any
suffix of what is in transit is lost in both directions, and so is what either
side writes until the next connection starts with `tmq_session_start`.

Each publication is stamped with its position in the sequence of publications,
so that the messages handed to `on_new_message` can be told apart.
-/

namespace TinyMqtt

open LinkedList

/-- A call of `tmq_session_publish`. -/
structure Publication where
  topic : Bytes
  payload : Bytes
  qos : UInt8
  retain : UInt8
  qosValid : qos ≤ 2
  retainValid : retain ≤ 1

structure Exchange where
  sender : Session Stamped
  receiver : Session Stamped
  forward : List (Packet Stamped)
  backward : List (Packet Stamped)
  connected : Bool
  publications : List Publication

namespace Exchange

def new (sender receiver : Session Stamped) : Exchange := ⟨sender, receiver, [], [], false, []⟩

/-- What a session wrote between two of its states, as far as there is a
connection to carry it. -/
def transmitted (x : Exchange) (before after : Session Stamped) : List (Packet Stamped) :=
  if x.connected then after.sent.drop before.sent.length else []

inductive Action where
  | publish (malloc : Addr) (publication : Publication) (storeOnly : Bool)
  | deliverForward (malloc : Addr)
  | deliverBackward (malloc : Addr)
  | drop (keepForward keepBackward : Nat)
  | reconnect

def step (x : Exchange) : Action → Option Exchange
  | .publish malloc publication storeOnly => do
      let sender ← tmqSessionPublish x.sender malloc publication.topic
        ⟨x.publications.length, publication.payload⟩ publication.qos publication.retain storeOnly
      some { x with
        sender := sender
        forward := x.forward ++ x.transmitted x.sender sender
        publications := x.publications ++ [publication] }
  | .deliverForward malloc =>
      match x.forward with
      | [] => some x
      | pkt :: rest => do
          let receiver ← receivePacket (.session 1) malloc x.receiver pkt
          some { x with
            receiver := receiver
            forward := rest
            backward := x.backward ++ x.transmitted x.receiver receiver }
  | .deliverBackward malloc =>
      match x.backward with
      | [] => some x
      | pkt :: rest => do
          let sender ← receivePacket (.session 0) malloc x.sender pkt
          some { x with
            sender := sender
            forward := x.forward ++ x.transmitted x.sender sender
            backward := rest }
  | .drop keepForward keepBackward =>
      some { x with
        forward := x.forward.take keepForward
        backward := x.backward.take keepBackward
        connected := false }
  | .reconnect => do
      let sender ← tmqSessionStart x.sender
      some { x with
        sender := sender
        forward := sender.sent.drop x.sender.sent.length
        backward := []
        connected := true }

/-- `malloc` returns memory that is not in use when it is called: a PUBREC
frees the acknowledged PUBLISH before it creates the PUBREL. -/
def Allocates (x : Exchange) : Action → Prop
  | .publish malloc _ _ => x.sender.heap malloc = none
  | .deliverBackward malloc => ∀ packetId acked, x.backward.head? = some (.pubrec packetId) →
      acknowledge x.sender packetId .publish 2 = some acked → acked.heap malloc = none
  | _ => True

/-- The packet identifiers of the unacknowledged packets are pairwise
distinct. -/
def DistinctIds (session : Session Stamped) : Prop :=
  ∀ queue, Segment session.heap session.messageStore.sendingQueueHead queue none →
    (queue.map fun queued => queued.2.packetId).Nodup

/-- The steps of the runs considered: memory comes from `malloc`, and the
identifiers stay distinct. -/
def Allowed (x : Exchange) (action : Action) : Prop :=
  x.Allocates action ∧ ∀ next, x.step action = some next → DistinctIds next.sender

/-- How often a publication was passed to the receiver's `on_new_message`. -/
def deliveries (x : Exchange) (stamp : Nat) : Nat :=
  x.receiver.delivered.countP fun passed => passed.2.message.stamp = stamp

/-- The PUBLISH of a publication is in the sender's store. -/
def InStore (x : Exchange) (stamp : Nat) : Prop :=
  ∃ queue, Segment x.sender.heap x.sender.messageStore.sendingQueueHead queue none ∧
    ∃ queued ∈ queue, ∃ pkt, queued.2.packet = .publish pkt ∧ pkt.payload.stamp = stamp

end Exchange

/-- The codec of a healthy connection in session does with a packet of the
publish flows what `receivePacket` assumes. -/
theorem deliver_publishFlow (auth : BrokerAuth) {conn : TcpConn} (pkt : Packet Bytes)
    (hstate : conn.state = .connected) (hhealthy : conn.writeErrorIn = none)
    (hsession : conn.connState = .inSession)
    (hflow : pkt.packetType = .publish ∨ pkt.packetType = .puback ∨ pkt.packetType = .pubrec ∨
      pkt.packetType = .pubrel ∨ pkt.packetType = .pubcomp) :
    (deliver auth conn pkt).log = conn.log ++ publishFlowEvents conn.upstream pkt := by
  have hcall : ∀ (c : TcpConn) e, c.writeErrorIn = none → c.call e = c.record e := by
    intro c e hc
    simp [TcpConn.call, TcpConn.tick, TcpConn.record, hc]
  have hsend : ∀ p, conn.send p = conn.record (.send p) := by
    intro p
    simp [TcpConn.send, TcpConn.tick, TcpConn.record, hstate, hhealthy]
  cases pkt with
  | publish pkt =>
      cases hack : publishAck pkt with
      | none => simp [deliver, deliverPublish, hsession, hack, hcall, hhealthy, publishFlowEvents]
      | some ack =>
          simp only [deliver, deliverPublish, hsession, hack, reduceCtorEq, ↓reduceIte, hsend]
          rw [hcall (conn.record (.send ack)) _ hhealthy]
          simp [publishFlowEvents, hack, TcpConn.record]
  | puback packetId => simp [deliver, handlePacketId, hcall, hhealthy, publishFlowEvents]
  | pubrec packetId => simp [deliver, handlePacketId, hcall, hhealthy, publishFlowEvents]
  | pubrel packetId =>
      simp only [deliver, handlePubRel, handlePacketId, hsend]
      rw [hcall (conn.record (.send (.pubcomp packetId))) _ hhealthy]
      simp [publishFlowEvents, TcpConn.record]
  | pubcomp packetId => simp [deliver, handlePacketId, hcall, hhealthy, publishFlowEvents]
  | _ => simp [Packet.packetType] at hflow

end TinyMqtt
