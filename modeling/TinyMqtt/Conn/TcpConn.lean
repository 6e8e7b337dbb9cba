import TinyMqtt.Codec.Packet

/-!
A TCP connection that carries MQTT, as the decoder and the IO thread see it:
the bytes not yet decoded, the connection context (`tcp_conn_mqtt_ctx_t`) and
the log of everything the connection caused so far. The context's `upstream`
is a union in the source; here it records which member was written last, so
that reading the wrong member is visible.

A socket write error closes the connection from inside `tmq_tcp_conn_write`,
in the middle of whatever the decoder is doing. `writeErrorIn` counts the
writes and handler calls until that happens; `none` means the socket stays
healthy.
-/

namespace TinyMqtt

/-- `tcp_conn_mqtt_ctx_t::upstream` with the member last written. Sessions
are named by their address. -/
inductive Upstream where
  | broker
  | session (address : Nat)
  | client
  deriving DecidableEq, Repr

inductive ConnState where
  | noSession | startingSession | inSession | tunneled
  deriving DecidableEq, Repr

inductive TcpConnState where
  | sslHandshaking | connected | disconnecting | disconnected
  deriving DecidableEq, Repr

inductive CodecType where
  | client | server
  deriving DecidableEq, Repr

/-- `mqtt_parsing_state`. -/
inductive ParsingState where
  | parsingFixedHeader | parsingRemainLength | parsingBody
  deriving DecidableEq, Repr

/-- `mqtt_parsing_ctx_t` with its fixed header. -/
structure ParsingCtx where
  state : ParsingState
  typeFlags : UInt8
  remainLength : Nat
  multiplier : Nat
  deriving DecidableEq, Repr

/-- `session_req_op` of the requests that close a session. -/
inductive SessionReqOp where
  | sessionDisconnect | sessionForceClose
  deriving DecidableEq, Repr

/-- What a connection causes, in order: packet parsers being entered, codec
callbacks with the union value they are handed, packets written and requests
posted to the broker's executor. -/
inductive Event (π : Type) where
  /-- a parser of `packet_parsers` is entered in this connection state -/
  | parse (type : PacketType) (state : TcpConnState) (connState : ConnState)
  | onConnect (upstream : Upstream) (pkt : ConnectPkt)
  | onConnAck (upstream : Upstream) (pkt : ConnackPkt)
  | onPublish (session : Upstream) (pkt : PublishPkt π)
  | onTunPublish (upstream : Upstream) (pkt : PublishPkt π)
  | onPubAck (session : Upstream) (packetId : UInt16)
  | onPubRec (session : Upstream) (packetId : UInt16)
  | onPubRel (session : Upstream) (packetId : UInt16)
  | onPubComp (session : Upstream) (packetId : UInt16)
  | onSubscribe (session : Upstream) (pkt : SubscribePkt)
  | onSubAck (session : Upstream) (pkt : SubackPkt)
  | onUnsubscribe (session : Upstream) (pkt : UnsubscribePkt)
  | onUnsubAck (session : Upstream) (packetId : UInt16)
  | onPingReq (session : Upstream)
  | onPingResp (session : Upstream)
  | onDisconnect (upstream session : Upstream)
  /-- a packet handed to `tmq_tcp_conn_write` on an open connection -/
  | send (pkt : Packet π)
  /-- the broker took up a CONNECT and will answer it -/
  | sessionConnect (pkt : ConnectPkt)
  /-- a close request for a session, `none` when its pointer is null -/
  | sessionClose (op : SessionReqOp) (session : Option Upstream)
  | sessionStart (session : Upstream)
  deriving DecidableEq, Repr

structure TcpConn where
  codecType : CodecType
  state : TcpConnState
  inBuffer : Bytes
  upstream : Upstream
  connState : ConnState
  parsing : ParsingCtx
  writeErrorIn : Option Nat
  log : List (Event Bytes)
  deriving DecidableEq, Repr

/-- A connection as `new_tcp_connection_handler` sets it up. The header fields
are written before they are read. -/
def newConn : TcpConn where
  codecType := .server
  state := .connected
  inBuffer := []
  upstream := .broker
  connState := .noSession
  parsing := ⟨.parsingFixedHeader, 0, 0, 1⟩
  writeErrorIn := none
  log := []

namespace TcpConn

/-- The same connection with other bytes left to decode. -/
def withInput (conn : TcpConn) (buffer : Bytes) : TcpConn := { conn with inBuffer := buffer }

def record (conn : TcpConn) (e : Event Bytes) : TcpConn :=
  { conn with log := conn.log ++ [e] }

/-- `tcp_conn_close_callback` of the broker. The client's callback leaves the
connection context alone. -/
def onClose (conn : TcpConn) : TcpConn :=
  match conn.codecType with
  | .client => conn
  | .server =>
      if conn.connState = .inSession then
        { conn with connState := .noSession }.record
          (.sessionClose .sessionForceClose (some conn.upstream))
      else conn

/-- `conn_close_`, which is also `tmq_tcp_conn_force_close`. -/
def close (conn : TcpConn) : TcpConn :=
  if conn.state = .disconnected then conn
  else { conn.onClose with state := .disconnected }

/-- One more write or handler call passes; the socket may fail at it. -/
def tick (conn : TcpConn) : TcpConn :=
  match conn.writeErrorIn with
  | none => conn
  | some 0 => { conn with writeErrorIn := none }.close
  | some (n + 1) => { conn with writeErrorIn := some n }

/-- A codec callback. Its own writes may meet a socket error. -/
def call (conn : TcpConn) (e : Event Bytes) : TcpConn := (conn.record e).tick

/-- `tmq_tcp_conn_write` of one encoded packet. -/
def send (conn : TcpConn) (pkt : Packet Bytes) : TcpConn :=
  if conn.state = .disconnected then conn
  else (conn.record (.send pkt)).tick

@[simp] theorem record_inBuffer (conn : TcpConn) (e : Event Bytes) :
    (conn.record e).inBuffer = conn.inBuffer := rfl

@[simp] theorem record_parsing (conn : TcpConn) (e : Event Bytes) :
    (conn.record e).parsing = conn.parsing := rfl

@[simp] theorem record_log (conn : TcpConn) (e : Event Bytes) :
    (conn.record e).log = conn.log ++ [e] := rfl

/-- Closing a connection in the middle of a packet leaves its parser where it
is. -/
@[simp] theorem close_parsing (conn : TcpConn) : conn.close.parsing = conn.parsing := by
  unfold close onClose
  split
  · rfl
  · cases conn.codecType <;> simp only
    split <;> rfl

/-- One more write passes or the socket fails at it. The parser stays where it
is. -/
@[simp] theorem tick_parsing (conn : TcpConn) : conn.tick.parsing = conn.parsing := by
  unfold tick
  split <;> simp

/-- A codec callback does not touch the parser. The packet was read before it is
handed on. -/
@[simp] theorem call_parsing (conn : TcpConn) (e : Event Bytes) :
    (conn.call e).parsing = conn.parsing := by
  simp [call]

@[simp] theorem withInput_inBuffer (conn : TcpConn) (buffer : Bytes) :
    (conn.withInput buffer).inBuffer = buffer := rfl

/-- Only the last change of the bytes to decode counts. -/
@[simp] theorem withInput_withInput (conn : TcpConn) (first second : Bytes) :
    (conn.withInput first).withInput second = conn.withInput second := rfl

@[simp] theorem withInput_codecType (conn : TcpConn) (buffer : Bytes) :
    (conn.withInput buffer).codecType = conn.codecType := rfl

@[simp] theorem withInput_state (conn : TcpConn) (buffer : Bytes) :
    (conn.withInput buffer).state = conn.state := rfl

@[simp] theorem withInput_upstream (conn : TcpConn) (buffer : Bytes) :
    (conn.withInput buffer).upstream = conn.upstream := rfl

@[simp] theorem withInput_connState (conn : TcpConn) (buffer : Bytes) :
    (conn.withInput buffer).connState = conn.connState := rfl

@[simp] theorem withInput_parsing (conn : TcpConn) (buffer : Bytes) :
    (conn.withInput buffer).parsing = conn.parsing := rfl

@[simp] theorem withInput_writeErrorIn (conn : TcpConn) (buffer : Bytes) :
    (conn.withInput buffer).writeErrorIn = conn.writeErrorIn := rfl

@[simp] theorem withInput_log (conn : TcpConn) (buffer : Bytes) :
    (conn.withInput buffer).log = conn.log := rfl

/-- A connection with the bytes it has is the connection itself. -/
@[simp] theorem withInput_self (conn : TcpConn) : conn.withInput conn.inBuffer = conn := rfl

/-! None of the actions of a connection looks at the bytes still to decode. -/

theorem record_withInput (conn : TcpConn) (buffer : Bytes) (e : Event Bytes) :
    (conn.withInput buffer).record e = (conn.record e).withInput buffer := rfl

/-- The callback for a closed connection does not look at the bytes that are
left. -/
theorem onClose_withInput (conn : TcpConn) (buffer : Bytes) :
    (conn.withInput buffer).onClose = conn.onClose.withInput buffer := by
  obtain ⟨codecType, state, inBuffer, upstream, connState, parsing, writeErrorIn, log⟩ := conn
  cases codecType with
  | client => rfl
  | server => cases connState <;> rfl

/-- Closing a connection leaves the bytes that were not decoded in its
buffer. -/
theorem close_withInput (conn : TcpConn) (buffer : Bytes) :
    (conn.withInput buffer).close = conn.close.withInput buffer := by
  unfold close
  rw [onClose_withInput]
  by_cases hclosed : conn.state = .disconnected
  · simp [hclosed]
  · simp only [withInput_state, hclosed, ↓reduceIte]
    rfl

/-- Whether the socket fails depends on the writes before, not on what was
read. -/
theorem tick_withInput (conn : TcpConn) (buffer : Bytes) :
    (conn.withInput buffer).tick = conn.tick.withInput buffer := by
  unfold tick
  rw [withInput_writeErrorIn]
  cases conn.writeErrorIn with
  | none => rfl
  | some n =>
      cases n with
      | zero => exact close_withInput { conn with writeErrorIn := none } buffer
      | succ n => rfl

/-- A codec callback is handed a packet; the buffer behind the packet is not its
business. -/
theorem call_withInput (conn : TcpConn) (buffer : Bytes) (e : Event Bytes) :
    (conn.withInput buffer).call e = (conn.call e).withInput buffer := by
  unfold call
  rw [record_withInput, tick_withInput]

/-- Sending a packet while others are being decoded does not depend on them. -/
theorem send_withInput (conn : TcpConn) (buffer : Bytes) (pkt : Packet Bytes) :
    (conn.withInput buffer).send pkt = (conn.send pkt).withInput buffer := by
  unfold send
  rw [record_withInput, tick_withInput]
  by_cases hclosed : conn.state = .disconnected <;> simp [hclosed]

end TcpConn

end TinyMqtt
