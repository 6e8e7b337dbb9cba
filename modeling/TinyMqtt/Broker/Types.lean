import TinyMqtt.Conn.StateMachine
import TinyMqtt.Lib.Mailbox
import TinyMqtt.Topic.Tree

/-!
The broker's shared state: its connections, the session table and the topic
tree, the requests waiting for the logic thread, and the mails waiting for the
IO threads. Connections and sessions are named by their addresses. What
happens is recorded in a log, which no handler reads.

The publish flows of a session, its message store among them, are the subject
of `Session` and not part of this state.
-/

namespace TinyMqtt

inductive SessionState where
  | opened | closed
  deriving DecidableEq, Repr

/-- The will fields of a session. They are set or null together. -/
structure Will (π : Type) where
  topic : Bytes
  message : π
  qos : Nat
  retain : Bool
  deriving DecidableEq, Repr

/-- `subscription_map` of a session. -/
abbrev Subscriptions := AList fun _ : Bytes => UInt8

/-- The fields of `tmq_session_t` that the broker works with. -/
structure SessionRecord (π : Type) where
  clientId : Bytes
  username : Bytes
  state : SessionState
  cleanSession : Bool
  conn : Nat
  ioContextIdx : UInt8
  will : Option (Will π)
  subscriptions : Subscriptions
  /-- the session table has given up its reference -/
  released : Bool

/-- A `tmq_tcp_conn_t` with its `tcp_conn_mqtt_ctx_t`. -/
structure ClientConn where
  /-- the text of the peer address (`tmq_tcp_conn_id`) -/
  connId : Bytes
  ioContext : Nat
  state : TcpConnState
  connState : ConnState
  upstream : Upstream
  /-- a write error closed the connection inside the decoder, which goes on
  with the bytes it has -/
  draining : Bool
  deriving DecidableEq, Repr

/-- A CONNECT packet. The string type of messages carries its will message,
which `pkt` has as bytes. -/
structure ConnectReq (π : Type) where
  pkt : ConnectPkt
  willMessage : π

/-- The requests to the logic thread of priority 1: `session_req` and
`topic_req`. A close request names no session when its pointer is null. -/
inductive Request (π : Type) where
  | connect (conn : Nat) (req : ConnectReq π)
  | close (op : SessionReqOp) (session : Option Nat)
  | subscribe (clientId : Bytes) (pkt : SubscribePkt)
  | unsubscribe (clientId : Bytes) (pkt : UnsubscribePkt)

/-- `session_connect_resp` in the mailbox of an IO context. -/
structure ConnectMail where
  ioContext : Nat
  conn : Nat
  resp : ConnectResp

/-- `subscribe_info_t` in a broadcast task. -/
structure BroadcastEntry where
  session : Nat
  qos : UInt8
  isSessionClosed : Bool
  deriving DecidableEq, Repr

/-- `broadcast_ctx_t` in the mailbox of an IO context. -/
structure BroadcastTask (π : Type) where
  ioContext : Nat
  topic : Bytes
  message : MqttMessage π
  retain : Bool
  subscribers : List BroadcastEntry

/-- What the broker does, in order. -/
inductive BrokerEvent (π : Type) where
  /-- a CONNECT was handed to the broker -/
  | connect (conn : Nat) (will : Option (Will π))
  | disconnect (conn : Nat)
  | tcpClosed (conn : Nat)
  /-- a CONNECT was accepted -/
  | accepted (conn session : Nat) (will : Option (Will π))
  /-- a close request was posted for the session of a connection -/
  | closeRequest (conn : Nat) (op : SessionReqOp) (session : Option Nat)
  /-- a session that was on a connection was closed on request -/
  | sessionClosed (conn session : Nat) (op : SessionReqOp) (will : Option (Will π))
  | willPublished (conn : Nat) (will : Will π)
  /-- `TCP_CONN_SHARE` and `TCP_CONN_RELEASE` on behalf of a session -/
  | share (conn session : Nat)
  | release (conn session : Nat)
  /-- a packet is written to a connection -/
  | write (conn : Nat) (pkt : Packet π)
  /-- a packet is queued for a connection -/
  | queueWrite (conn : Nat) (pkt : Packet π)
  | sessionNew (session : Nat)
  | sessionStart (session : Nat)

structure Broker (π : Type) where
  conns : Nat → Option ClientConn
  /-- the `tmq_session_t`s in memory -/
  heap : Nat → Option (SessionRecord π)
  sessions : Bytes → Option Nat
  topicsTree : Topics π
  nextIoContext : Nat
  /-- the CONNECT packets that the thread pool validates -/
  validations : List (Nat × ConnectReq π)
  requests : List (Request π)
  mqttConnectResponses : List ConnectMail
  broadcastTasks : List (BroadcastTask π)
  log : List (BrokerEvent π)

inductive Access where
  | sub | pub
  deriving DecidableEq, Repr

/-- The configuration of a broker. `aclDenies` is the answer of
`tmq_acl_auth`, false when access control is off; `cJsonParse` is a library
function. -/
structure BrokerConfig (π J : Type) where
  auth : BrokerAuth
  ioThreads : Nat
  inflightWindowSize : UInt8
  aclDenies : SessionRecord π → Bytes → Access → Bool
  cJsonParse : π → Option J

namespace Broker

variable {π : Type}

def init : Broker π where
  conns := fun _ => none
  heap := fun _ => none
  sessions := fun _ => none
  topicsTree := tmqTopicsInit
  nextIoContext := 0
  validations := []
  requests := []
  mqttConnectResponses := []
  broadcastTasks := []
  log := []

def record (broker : Broker π) (event : BrokerEvent π) : Broker π :=
  { broker with log := broker.log ++ [event] }

def setConn (broker : Broker π) (k : Nat) (conn : ClientConn) : Broker π :=
  { broker with conns := Function.update broker.conns k (some conn) }

def setSession (broker : Broker π) (s : Nat) (session : SessionRecord π) : Broker π :=
  { broker with heap := Function.update broker.heap s (some session) }

/-- `tmq_executor_post` of priority 1. -/
def post (broker : Broker π) (request : Request π) : Broker π :=
  { broker with requests := broker.requests ++ [request] }

end Broker

end TinyMqtt
