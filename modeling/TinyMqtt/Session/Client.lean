import TinyMqtt.Lib.Run
import TinyMqtt.Session.Progress

/-!
The client (`mqtt/mqtt_client.c`). It has one session, which it keeps across
connections unless the session is a clean one. Connections are numbered, and
the session writes to the one it was last given, open or not. The client is in
asynchronous mode: an operation runs in the event loop between two callbacks.

`tmq_session_new` reads the index of its connection's `io_context`, and
`on_tcp_connected` makes connections that have none, so no client gets past its
first CONNACK. What would happen behind it is that of a client whose connections
have a context: its kept session is not sent again.
-/

namespace TinyMqtt

open LinkedList Run

structure ConnectOptions where
  username : Option Bytes
  password : Option Bytes
  clientId : Option Bytes
  cleanSession : Bool
  keepAlive : UInt16
  willMessage : Option Bytes
  willTopic : Option Bytes
  willQos : UInt8
  willRetain : Bool
  deriving DecidableEq, Repr

/-- The packet that `on_tcp_connected` builds. -/
def ConnectOptions.connectPkt (options : ConnectOptions) : ConnectPkt :=
  let flags : UInt8 := if options.cleanSession then 2 else 0
  let flags := if options.willMessage.isSome then
      let flags := flags ||| 4 ||| options.willQos <<< (3 : UInt8)
      if options.willRetain then flags ||| 32 else flags
    else flags
  let flags := if options.username.isSome then flags ||| 128 else flags
  let flags := if options.password.isSome then flags ||| 64 else flags
  { flags := flags
    keepAlive := options.keepAlive
    clientId := some (tmqStrNew (options.clientId.getD []))
    willTopic := options.willMessage.map fun _ => tmqStrNew (options.willTopic.getD [])
    willMessage := options.willMessage.map tmqStrNew
    username := options.username.map tmqStrNew
    password := options.password.map tmqStrNew }

/-- The client's `tmq_session_t`. -/
structure ClientSession (π : Type) where
  session : Session π
  cleanSession : Bool
  isOpen : Bool
  conn : Nat

/-- `tiny_mqtt` with what was written to each connection. `connState` is that
of the current connection's context, and `ioContext` the index of its
`io_context`. -/
structure Client (π : Type) where
  conn : Option Nat
  ioContext : Option Nat
  connState : ConnState
  session : Option (ClientSession π)
  connectOptions : ConnectOptions
  connectRes : Option ConnackReturnCode
  connections : Nat
  written : Nat → List (Packet π)

/-- What happens to a client, one event of its loop after the other. -/
inductive ClientEvent (π : Type) where
  | connect (options : ConnectOptions)
  | tcpConnected
  | connAck (nextPacketId : UInt16) (pkt : ConnackPkt)
  | closed
  | publish (malloc : Addr) (topic : Bytes) (payload : π) (qos retain : UInt8)
  | subscribe (topicFilter : Bytes) (qos : UInt8)
  | unsubscribe (topicFilter : Bytes)
  | disconnect
  /-- the timer, when the server's last packet is recent enough -/
  | ping
  /-- a packet of the publish flows comes in -/
  | packet (malloc : Addr) (pkt : Packet π)

namespace Client

variable {π : Type} [TmqString π]

/-- `tinymqtt_new`, with the options of the first `tinymqtt_connect`. -/
def tinymqttNew (options : ConnectOptions) : Client π where
  conn := none
  ioContext := none
  connState := .noSession
  session := none
  connectOptions := options
  connectRes := none
  connections := 0
  written := fun _ => []

/-- `on_tcp_connected`, with the `io_context` that it passes to
`tmq_tcp_conn_new`. -/
def onTcpConnected (client : Client π) (ioContext : Option Nat) : Client π :=
  { client with
    conn := some client.connections
    ioContext := ioContext
    connState := .noSession
    connections := client.connections + 1
    written := Function.update client.written client.connections
      [.connect client.connectOptions.connectPkt] }

/-- `on_connect_response`, whatever the return code is. A new session has a
window of one packet and starts at a random identifier; `tmq_session_new` takes
its `io_context_idx` from the connection's `io_context`. -/
def onConnectResponse (client : Client π) (nextPacketId : UInt16) (pkt : ConnackPkt) :
    Option (Client π) := do
  let conn ← client.conn
  let session : ClientSession π ← match client.session with
    | none => client.ioContext.map fun _ =>
        ⟨tmqSessionNew false nextPacketId 1, client.connectOptions.cleanSession, true, conn⟩
    | some session => some { session with isOpen := true, conn := conn }
  let session := { session with session := { session.session with onPublishFinish := true } }
  some { client with
    connectRes := some pkt.returnCode
    connState := .inSession
    session := some session }

/-- `tcp_conn_close_cb` of the current connection, with `tmq_session_close`. -/
def tcpConnCloseCb (client : Client π) : Option (Client π) := do
  let _ ← client.conn
  let closed := { client with conn := none }
  if client.connState = .inSession then
    some { closed with
      connState := .noSession
      session := (client.session.map fun session => { session with isOpen := false }).filter
        fun session => !session.cleanSession }
  else some closed

/-- The session after a call, and the packets it handed to its connection
written there, if that is still the current one. -/
def withSession (client : Client π) (session : ClientSession π) (next : Session π) : Client π :=
  let packets := next.sent.drop session.session.sent.length
  { client with
    session := some { session with session := next }
    written := if client.conn = some session.conn then
        Function.update client.written session.conn (client.written session.conn ++ packets)
      else client.written }

/-- An operation of `handle_async_operations`. Without a session it is not
queued. -/
def onSession (client : Client π) (call : Session π → Option (Session π)) :
    Option (Client π) :=
  match client.session with
  | none => some client
  | some session => (call session.session).map (client.withSession session)

/-- A packet written to the current connection without the session. -/
def write (client : Client π) (pkt : Packet π) : Option (Client π) := do
  let conn ← client.conn
  some { client with
    written := Function.update client.written conn (client.written conn ++ [pkt]) }

/-- One event. `ioContext` is null in `on_tcp_connected`. -/
def step (ioContext : Option Nat) (client : Client π) : ClientEvent π → Option (Client π)
  | .connect options => some { client with connectOptions := options }
  | .tcpConnected => some (client.onTcpConnected ioContext)
  | .connAck nextPacketId pkt => client.onConnectResponse nextPacketId pkt
  | .closed => client.tcpConnCloseCb
  | .publish malloc topic payload qos retain =>
      if qos > 2 then some client
      else client.onSession fun session =>
        tmqSessionPublish session malloc topic payload qos retain false
  | .subscribe topicFilter qos =>
      client.onSession fun session => some (tmqSessionSubscribe session topicFilter qos)
  | .unsubscribe topicFilter =>
      client.onSession fun session => some (tmqSessionUnsubscribe session topicFilter)
  | .disconnect => client.write .disconnect
  | .ping => do
      let _ ← client.session
      client.write .pingreq
  | .packet malloc pkt =>
      if client.connState = .inSession then
        client.onSession fun session => receivePacket (.session 0) malloc session pkt
      else none

/-- `malloc` returns memory that is not in use. -/
def Allocates (client : Client π) : ClientEvent π → Prop
  | .publish malloc _ _ _ _ => ∀ session, client.session = some session →
      session.session.heap malloc = none
  | .packet malloc (.pubrec packetId) => ∀ session acked, client.session = some session →
      acknowledge session.session packetId .publish 2 = some acked → acked.heap malloc = none
  | _ => True

end Client

/-! ### What the session stores -/

section Stores

variable {π : Type}

def Packet.IsFlow (pkt : Packet π) : Prop :=
  pkt.packetType = .publish ∨ pkt.packetType = .pubrel

theorem isFlow_publish (pkt : PublishPkt π) : (Packet.publish pkt).IsFlow := Or.inl rfl

theorem isFlow_pubrel (packetId : UInt16) : (Packet.pubrel packetId : Packet π).IsFlow :=
  Or.inr rfl

theorem isFlow_cloneForSending [TmqString π] {pkt : Packet π} (h : pkt.IsFlow) :
    (cloneForSending pkt).IsFlow := by
  cases pkt <;> exact h

/-- The store of a session with a window of one packet holds packets of the
publish flows. -/
def StoresFlow (session : Session π) : Prop :=
  ∃ queue, Represents session 1 queue ∧ ∀ queued ∈ queue, queued.2.packet.IsFlow

variable {session next : Session π} {packetId : UInt16}

theorem StoresFlow.send (h : StoresFlow session) (nextPacketId : UInt16) (pkt : Packet π) :
    StoresFlow (tmqSessionSendPacket { session with nextPacketId := nextPacketId } pkt) := by
  obtain ⟨queue, hrepresents, hflow⟩ := h
  exact ⟨queue, hrepresents.congr rfl rfl rfl rfl, hflow⟩

theorem StoresFlow.handlePublish (h : StoresFlow session) (pkt : PublishPkt π) :
    StoresFlow (tmqSessionHandlePublish session pkt) := by
  obtain ⟨queue, hrepresents, hflow⟩ := h
  refine ⟨queue, ?_, hflow⟩
  unfold tmqSessionHandlePublish
  split
  · split
    · exact hrepresents
    · exact hrepresents.congr rfl rfl rfl rfl
  · exact hrepresents.congr rfl rfl rfl rfl

variable [TmqString π]

theorem StoresFlow.acknowledge (h : StoresFlow session) {type : PacketType} {qos : Int}
    (hack : acknowledge session packetId type qos = some next) : StoresFlow next := by
  obtain ⟨queue, hrepresents, hflow⟩ := h
  obtain ⟨after, packets, hafter, -, hprogress, -⟩ := acknowledge_progress hrepresents hack
  refine ⟨after, hafter, ?_⟩
  intro queued hmem
  exact hflow queued (by simpa using hprogress.members queued hmem)

theorem StoresFlow.pubrec (h : StoresFlow session) {malloc : Addr}
    (hfree : ∀ acked, TinyMqtt.acknowledge session packetId .publish 2 = some acked →
      acked.heap malloc = none)
    (hhandle : tmqSessionHandlePubrec session malloc packetId = some next) : StoresFlow next := by
  obtain ⟨queue, hrepresents, hflow⟩ := h
  obtain ⟨after, packets, hafter, -, hprogress, -⟩ :=
    tmqSessionHandlePubrec_progress hrepresents hfree hhandle
  refine ⟨after, hafter, ?_⟩
  intro queued hmem
  rcases List.mem_append.mp (hprogress.members queued hmem) with hold | hnew
  · exact hflow queued hold
  · obtain rfl := List.mem_singleton.mp hnew
    exact isFlow_pubrel packetId

theorem StoresFlow.publish (h : StoresFlow session) {malloc : Addr}
    (hfree : session.heap malloc = none) {topic : Bytes} {payload : π} {qos retain : UInt8}
    (hpublish : tmqSessionPublish session malloc topic payload qos retain false = some next) :
    StoresFlow next := by
  obtain ⟨queue, hrepresents, hflow⟩ := h
  by_cases hqos : 0 < qos
  · obtain ⟨found, hfound, hafter, -⟩ :=
      tmqSessionPublish_stored hrepresents hfree topic payload hqos retain false rfl
    obtain rfl := Option.some.inj (hpublish.symm.trans hfound)
    refine ⟨_, hafter, ?_⟩
    intro queued hmem
    rcases List.mem_append.mp hmem with hold | hnew
    · exact hflow queued hold
    · obtain rfl := List.mem_singleton.mp hnew
      exact isFlow_publish _
  · obtain ⟨found, hfound, hafter, -⟩ :=
      tmqSessionPublish_unstored hrepresents malloc topic payload hqos retain false
    obtain rfl := Option.some.inj (hpublish.symm.trans hfound)
    exact ⟨queue, hafter, hflow⟩

theorem StoresFlow.receive (h : StoresFlow session) {upstream : Upstream} {malloc : Addr}
    {pkt : Packet π}
    (hfree : ∀ packetId acked, pkt = .pubrec packetId →
      TinyMqtt.acknowledge session packetId .publish 2 = some acked → acked.heap malloc = none)
    (hreceive : receivePacket upstream malloc session pkt = some next) : StoresFlow next := by
  have hsame : receivePacket upstream malloc session pkt = some session → StoresFlow next := by
    intro hsame
    obtain rfl := Option.some.inj (hsame.symm.trans hreceive)
    exact h
  cases pkt with
  | publish pkt =>
      rw [receivePacket_publish] at hreceive
      obtain rfl := Option.some.inj hreceive
      apply StoresFlow.handlePublish
      cases publishAck pkt with
      | none => exact h
      | some ack => exact h.send session.nextPacketId ack
  | puback packetId =>
      rw [receivePacket_puback] at hreceive
      exact h.acknowledge hreceive
  | pubrec packetId =>
      rw [receivePacket_pubrec] at hreceive
      exact h.pubrec (fun acked => hfree packetId acked rfl) hreceive
  | pubrel packetId =>
      rw [receivePacket_pubrel] at hreceive
      obtain rfl := Option.some.inj hreceive
      obtain ⟨queue, hrepresents, hflow⟩ := h
      exact ⟨queue, hrepresents.congr rfl rfl rfl rfl, hflow⟩
  | pubcomp packetId =>
      rw [receivePacket_pubcomp] at hreceive
      exact h.acknowledge hreceive
  | _ => exact hsame rfl

end Stores

/-! ### After a reconnection -/

namespace Client

variable {π : Type} {client next : Client π}

/-- Before the CONNACK the session still has its previous connection, and
nothing of its store is written to the new one. -/
structure Awaits (client : Client π) (conn : Nat) : Prop where
  previous : ∀ session, client.session = some session → session.conn ≠ conn
  unsent : ∀ pkt ∈ client.written conn, ¬ pkt.IsFlow

structure Valid (client : Client π) : Prop where
  stores : ∀ session, client.session = some session → StoresFlow session.session
  given : ∀ session, client.session = some session → session.conn < client.connections
  current : ∀ conn, client.conn = some conn → conn < client.connections
  awaits : ∀ conn, client.conn = some conn → client.connState ≠ .inSession → client.Awaits conn

theorem valid_new (options : ConnectOptions) : (tinymqttNew options : Client π).Valid where
  stores := nofun
  given := nofun
  current := nofun
  awaits := nofun

theorem Valid.onTcpConnected (h : client.Valid) (ioContext : Option Nat) :
    (client.onTcpConnected ioContext).Valid where
  stores := h.stores
  given session hsession := Nat.lt_succ_of_lt (h.given session hsession)
  current conn hconn := by
    obtain rfl := Option.some.inj hconn
    exact Nat.lt_succ_self _
  awaits conn hconn _ := by
    obtain rfl := Option.some.inj hconn
    refine ⟨fun session hsession => (h.given session hsession).ne, ?_⟩
    intro pkt hmem
    have hwritten : (client.onTcpConnected ioContext).written client.connections =
        [.connect client.connectOptions.connectPkt] := Function.update_self _ _ _
    rw [hwritten] at hmem
    obtain rfl := List.mem_singleton.mp hmem
    simp [Packet.IsFlow, Packet.packetType]

theorem onConnectResponse_eq {conn : Nat} (hconn : client.conn = some conn)
    {nextPacketId : UInt16} {pkt : ConnackPkt}
    (hresponse : client.onConnectResponse nextPacketId pkt = some next) :
    next.conn = client.conn ∧ next.connections = client.connections ∧
      next.written = client.written ∧ next.connState = .inSession ∧
      ∃ session, next.session = some session ∧ session.conn = conn ∧
        session.session = { (client.session.elim (tmqSessionNew false nextPacketId 1)
          ClientSession.session) with onPublishFinish := true } := by
  unfold onConnectResponse at hresponse
  rw [hconn] at hresponse
  cases hsession : client.session with
  | none =>
      rw [hsession] at hresponse
      obtain ⟨index, hindex⟩ : ∃ index, client.ioContext = some index := by
        cases hcontext : client.ioContext with
        | none => simp [hcontext] at hresponse
        | some index => exact ⟨index, rfl⟩
      rw [hindex] at hresponse
      obtain rfl := Option.some.inj hresponse
      exact ⟨hconn.symm ▸ hconn, rfl, rfl, rfl, _, rfl, rfl, rfl⟩
  | some session =>
      rw [hsession] at hresponse
      obtain rfl := Option.some.inj hresponse
      exact ⟨hconn.symm ▸ hconn, rfl, rfl, rfl, _, rfl, rfl, rfl⟩

/-- A CONNACK is handled where there is a session, or an `io_context` for a new
one. -/
theorem onConnectResponse_isSome {conn : Nat} (hconn : client.conn = some conn)
    (nextPacketId : UInt16) (pkt : ConnackPkt) :
    (∃ next, client.onConnectResponse nextPacketId pkt = some next) ↔
      client.session ≠ none ∨ client.ioContext ≠ none := by
  unfold onConnectResponse
  rw [hconn]
  cases hsession : client.session with
  | some session => exact iff_of_true ⟨_, rfl⟩ (Or.inl (Option.some_ne_none session))
  | none => cases hcontext : client.ioContext <;> simp

theorem Valid.onConnectResponse (h : client.Valid) {nextPacketId : UInt16} {pkt : ConnackPkt}
    (hresponse : client.onConnectResponse nextPacketId pkt = some next) : next.Valid := by
  obtain ⟨conn, hconn, -⟩ := Option.bind_eq_some_iff.mp hresponse
  obtain ⟨hsame, hconnections, -, hstate, session, hsession, hgiven, hstored⟩ :=
    onConnectResponse_eq hconn hresponse
  constructor
  · intro other hother
    obtain rfl := Option.some.inj (hsession.symm.trans hother)
    rw [hstored]
    have hbefore : StoresFlow
        (client.session.elim (tmqSessionNew false nextPacketId 1) ClientSession.session) := by
      cases hold : client.session with
      | none => exact ⟨[], represents_new false nextPacketId 1, by simp⟩
      | some old => exact h.stores old hold
    obtain ⟨queue, hrepresents, hflow⟩ := hbefore
    exact ⟨queue, hrepresents.congr rfl rfl rfl rfl, hflow⟩
  · intro other hother
    obtain rfl := Option.some.inj (hsession.symm.trans hother)
    rw [hgiven, hconnections]
    exact h.current conn hconn
  · rw [hsame, hconnections]
    exact h.current
  · intro other _ hawaits
    exact absurd hstate hawaits

theorem Valid.tcpConnCloseCb (h : client.Valid) (hclose : client.tcpConnCloseCb = some next) :
    next.Valid := by
  obtain ⟨conn, -, hclose⟩ := Option.bind_eq_some_iff.mp hclose
  split at hclose
  · obtain rfl := Option.some.inj hclose
    have hkept : ∀ session, ((client.session.map fun session : ClientSession π =>
          { session with isOpen := false }).filter fun session => !session.cleanSession) =
            some session →
        ∃ before, client.session = some before ∧ session.session = before.session ∧
          session.conn = before.conn := by
      intro session hsession
      obtain ⟨hmap, -⟩ := Option.filter_eq_some_iff.mp hsession
      obtain ⟨before, hbefore, rfl⟩ := Option.map_eq_some_iff.mp hmap
      exact ⟨before, hbefore, rfl, rfl⟩
    refine ⟨?_, ?_, nofun, nofun⟩
    · intro session hsession
      obtain ⟨before, hbefore, hsame, -⟩ := hkept session hsession
      rw [hsame]
      exact h.stores before hbefore
    · intro session hsession
      obtain ⟨before, hbefore, -, hsame⟩ := hkept session hsession
      rw [hsame]
      exact h.given before hbefore
  · obtain rfl := Option.some.inj hclose
    exact ⟨h.stores, h.given, nofun, nofun⟩

theorem Valid.onSession (h : client.Valid) {call : Session π → Option (Session π)}
    (hcall : ∀ session after, client.session = some session →
      call session.session = some after → StoresFlow after)
    (hstep : client.onSession call = some next) : next.Valid := by
  unfold Client.onSession at hstep
  split at hstep
  · obtain rfl := Option.some.inj hstep
    exact h
  · next session hsession =>
    obtain ⟨after, hafter, rfl⟩ := Option.map_eq_some_iff.mp hstep
    refine ⟨?_, ?_, h.current, ?_⟩
    · intro other hother
      obtain rfl := Option.some.inj hother
      exact hcall session after hsession hafter
    · intro other hother
      obtain rfl := Option.some.inj hother
      exact h.given session hsession
    · intro conn hconn hstate
      have hawaits := h.awaits conn hconn hstate
      have hother := hawaits.previous session hsession
      refine ⟨?_, ?_⟩
      · intro other hsame
        obtain rfl := Option.some.inj hsame
        exact hother
      · have hwritten : (client.withSession session after).written conn = client.written conn := by
          unfold withSession
          dsimp only
          split
          · exact Function.update_of_ne hother.symm _ _
          · rfl
        rw [hwritten]
        exact hawaits.unsent

theorem Valid.write (h : client.Valid) {pkt : Packet π} (hflow : ¬ pkt.IsFlow)
    (hwrite : client.write pkt = some next) : next.Valid := by
  obtain ⟨conn, hconn, hwrite⟩ := Option.bind_eq_some_iff.mp hwrite
  obtain rfl := Option.some.inj hwrite
  refine ⟨h.stores, h.given, h.current, ?_⟩
  intro other hother hstate
  obtain rfl := Option.some.inj (hconn.symm.trans hother)
  have hawaits := h.awaits conn hconn hstate
  refine ⟨hawaits.previous, ?_⟩
  dsimp only
  rw [Function.update_self]
  intro sent hmem
  rcases List.mem_append.mp hmem with hold | hnew
  · exact hawaits.unsent sent hold
  · obtain rfl := List.mem_singleton.mp hnew
    exact hflow

/-- A client that has had no CONNACK. -/
structure Sessionless (client : Client π) : Prop where
  session : client.session = none
  ioContext : client.ioContext = none

theorem Sessionless.onConnectResponse (h : client.Sessionless) (nextPacketId : UInt16)
    (pkt : ConnackPkt) : client.onConnectResponse nextPacketId pkt = none := by
  unfold Client.onConnectResponse
  rw [h.session, h.ioContext]
  cases client.conn <;> rfl

theorem Sessionless.onSession (h : client.Sessionless)
    {call : Session π → Option (Session π)} (hstep : client.onSession call = some next) :
    next.Sessionless := by
  rw [Client.onSession, h.session] at hstep
  obtain rfl := Option.some.inj hstep
  exact h

theorem Sessionless.write (h : client.Sessionless) {pkt : Packet π}
    (hstep : client.write pkt = some next) : next.Sessionless := by
  obtain ⟨conn, -, hwrite⟩ := Option.bind_eq_some_iff.mp hstep
  obtain rfl := Option.some.inj hwrite
  exact ⟨h.session, h.ioContext⟩

theorem Sessionless.tcpConnCloseCb (h : client.Sessionless)
    (hstep : client.tcpConnCloseCb = some next) : next.Sessionless := by
  obtain ⟨conn, -, hclose⟩ := Option.bind_eq_some_iff.mp hstep
  split at hclose
  · obtain rfl := Option.some.inj hclose
    exact ⟨by simp [h.session], h.ioContext⟩
  · obtain rfl := Option.some.inj hclose
    exact ⟨h.session, h.ioContext⟩

variable [TmqString π]

theorem valid_step (ioContext : Option Nat) (client : Client π) (event : ClientEvent π)
    (next : Client π) (h : client.Valid) (halloc : client.Allocates event)
    (hstep : client.step ioContext event = some next) : next.Valid := by
  cases event with
  | connect options =>
      obtain rfl := Option.some.inj hstep
      exact ⟨h.stores, h.given, h.current, fun conn hconn hstate =>
        ⟨(h.awaits conn hconn hstate).previous, (h.awaits conn hconn hstate).unsent⟩⟩
  | tcpConnected =>
      obtain rfl := Option.some.inj hstep
      exact h.onTcpConnected ioContext
  | connAck nextPacketId pkt => exact h.onConnectResponse hstep
  | closed => exact h.tcpConnCloseCb hstep
  | publish malloc topic payload qos retain =>
      rw [step] at hstep
      split at hstep
      · obtain rfl := Option.some.inj hstep
        exact h
      · refine h.onSession ?_ hstep
        intro session after hsession hafter
        exact (h.stores session hsession).publish (halloc session hsession) hafter
  | subscribe topicFilter qos =>
      rw [step] at hstep
      refine h.onSession ?_ hstep
      intro session after hsession hafter
      obtain rfl := Option.some.inj hafter
      exact (h.stores session hsession).send _ _
  | unsubscribe topicFilter =>
      rw [step] at hstep
      refine h.onSession ?_ hstep
      intro session after hsession hafter
      obtain rfl := Option.some.inj hafter
      exact (h.stores session hsession).send _ _
  | disconnect => exact h.write (by simp [Packet.IsFlow, Packet.packetType]) hstep
  | ping =>
      obtain ⟨session, -, hwrite⟩ := Option.bind_eq_some_iff.mp hstep
      exact h.write (by simp [Packet.IsFlow, Packet.packetType]) hwrite
  | packet malloc pkt =>
      rw [step] at hstep
      split at hstep
      · refine h.onSession ?_ hstep
        intro session after hsession hafter
        refine (h.stores session hsession).receive ?_ hafter
        rintro packetId acked rfl hack
        exact halloc session acked hsession hack
      · cases hstep

/-- The CONNACK on a new connection is handled, and has the inflight packets of
the kept session's store written to the connection, in queue order, as
`tmq_session_start` does. -/
def ResendsOnConnAck (client : Client π) (conn : Nat) (nextPacketId : UInt16)
    (pkt : ConnackPkt) : Prop :=
  ∃ next, client.onConnectResponse nextPacketId pkt = some next ∧
    ∀ session queue, client.session = some session → Represents session.session 1 queue →
      (copies (queue.take session.session.inflightPackets.toNat)).Sublist (next.written conn)

/-- Nothing of a store is written between a new connection and its CONNACK, so
what is to be sent again would have to be sent by it. -/
theorem Valid.sublist_written_iff (h : client.Valid) {conn : Nat} (hconn : client.conn = some conn)
    (hstate : client.connState ≠ .inSession) {session : ClientSession π}
    (hsession : client.session = some session) {queue : List (QueuedPacket π)}
    (hrepresents : Represents session.session 1 queue) :
    (copies (queue.take session.session.inflightPackets.toNat)).Sublist (client.written conn) ↔
      session.session.inflightPackets = 0 := by
  constructor
  · intro hsublist
    obtain ⟨queue', hrepresents', hflow⟩ := h.stores session hsession
    obtain rfl := segment_unique hrepresents.linked hrepresents'.linked
    rw [hrepresents.take_inflight] at hsublist
    -- a packet in flight would be written before the CONNACK
    cases queue with
    | nil =>
        apply UInt8.toNat_inj.mp
        rw [hrepresents.inflight]
        rfl
    | cons first queue =>
        have hmem := hsublist.subset (List.mem_map_of_mem (List.mem_cons_self (a := first)))
        have hclone := isFlow_cloneForSending (hflow first List.mem_cons_self)
        exact absurd hclone ((h.awaits conn hconn hstate).unsent _ hmem)
  · intro hzero
    rw [hzero]
    exact List.nil_sublist _

theorem resendsOnConnAck_iff (h : client.Valid) {conn : Nat} (hconn : client.conn = some conn)
    (hstate : client.connState ≠ .inSession) (nextPacketId : UInt16) (pkt : ConnackPkt) :
    client.ResendsOnConnAck conn nextPacketId pkt ↔
      (client.session ≠ none ∨ client.ioContext ≠ none) ∧
        ∀ session, client.session = some session → session.session.inflightPackets = 0 := by
  rw [← onConnectResponse_isSome hconn nextPacketId pkt]
  constructor
  · rintro ⟨next, hnext, hresent⟩
    refine ⟨⟨next, hnext⟩, ?_⟩
    intro session hsession
    obtain ⟨queue, hrepresents, -⟩ := h.stores session hsession
    obtain ⟨-, -, hwritten, -⟩ := onConnectResponse_eq hconn hnext
    have hsublist := hresent session queue hsession hrepresents
    rw [hwritten] at hsublist
    exact (h.sublist_written_iff hconn hstate hsession hrepresents).mp hsublist
  · rintro ⟨⟨next, hnext⟩, hzero⟩
    refine ⟨next, hnext, ?_⟩
    intro session queue hsession hrepresents
    obtain ⟨-, -, hwritten, -⟩ := onConnectResponse_eq hconn hnext
    rw [hwritten]
    exact (h.sublist_written_iff hconn hstate hsession hrepresents).mpr (hzero session hsession)

/-- After any run of a client whose connections have a context, the CONNACK on a
new connection has the kept store sent again just when there is nothing to
send. -/
theorem resendsOnConnAck_iff_of_runs {index : Nat} {options : ConnectOptions}
    {events : List (ClientEvent π)}
    (hallocates : Admissible Allocates (step (some index)) (tinymqttNew options) events)
    (hrun : runs (step (some index)) (tinymqttNew options) events = some client) {conn : Nat}
    (hconn : client.conn = some conn) (hstate : client.connState ≠ .inSession)
    {session : ClientSession π} (hsession : client.session = some session)
    (nextPacketId : UInt16) (pkt : ConnackPkt) :
    client.ResendsOnConnAck conn nextPacketId pkt ↔ session.session.inflightPackets = 0 := by
  have hvalid := runs_preserves (valid_step (some index)) (valid_new options) hallocates hrun
  rw [resendsOnConnAck_iff hvalid hconn hstate nextPacketId pkt, hsession]
  simp

/-! ### The connections of the source -/

/-- Where connections have no context, no step begins a session. -/
theorem sessionless_step (client : Client π) (event : ClientEvent π) (next : Client π)
    (h : client.Sessionless) (hstep : client.step none event = some next) : next.Sessionless := by
  cases event with
  | connect options =>
      obtain rfl := Option.some.inj hstep
      exact ⟨h.session, h.ioContext⟩
  | tcpConnected =>
      obtain rfl := Option.some.inj hstep
      exact ⟨h.session, rfl⟩
  | connAck nextPacketId pkt =>
      rw [step, h.onConnectResponse] at hstep
      cases hstep
  | closed => exact h.tcpConnCloseCb hstep
  | publish malloc topic payload qos retain =>
      rw [step] at hstep
      split at hstep
      · obtain rfl := Option.some.inj hstep
        exact h
      · exact h.onSession hstep
  | subscribe topicFilter qos =>
      rw [step] at hstep
      exact h.onSession hstep
  | unsubscribe topicFilter =>
      rw [step] at hstep
      exact h.onSession hstep
  | disconnect => exact h.write hstep
  | ping =>
      rw [step, h.session] at hstep
      cases hstep
  | packet malloc pkt =>
      rw [step] at hstep
      split at hstep
      · exact h.onSession hstep
      · cases hstep

/-- After any run of a client, no CONNACK has anything sent again: `tmq_session_new`
reads through the null `io_context` of the connection. -/
theorem not_resendsOnConnAck_of_runs {options : ConnectOptions} {events : List (ClientEvent π)}
    (hrun : runs (step none) (tinymqttNew options) events = some client) (conn : Nat)
    (nextPacketId : UInt16) (pkt : ConnackPkt) :
    ¬client.ResendsOnConnAck conn nextPacketId pkt := by
  have hclient : client.Sessionless := runs_maintains sessionless_step ⟨rfl, rfl⟩ hrun
  rintro ⟨next, hnext, -⟩
  rw [hclient.onConnectResponse] at hnext
  cases hnext

/-- The options of a client `c` that keeps its session. -/
def keptOptions : ConnectOptions :=
  ⟨none, none, some [99], false, 60, none, none, 0, false⟩

/-- A connection that is lost, a publish without a session, and another
connection. -/
def reconnected : List (ClientEvent Bytes) :=
  [.tcpConnected, .closed, .publish 0 [97] [109] 1 0, .tcpConnected]

theorem not_resendsOnConnAck_reconnected : ∃ client : Client Bytes,
    runs (step none) (tinymqttNew keptOptions) reconnected = some client ∧ client.conn = some 1 ∧
      ¬client.ResendsOnConnAck 1 7 ⟨0, connectionAccepted⟩ := by
  have hrun : runs (step none) (tinymqttNew keptOptions) reconnected = some _ := rfl
  exact ⟨_, hrun, rfl, not_resendsOnConnAck_of_runs hrun 1 7 ⟨0, connectionAccepted⟩⟩

/-- The first CONNACK of a client. -/
theorem not_resendsOnConnAck_first :
    ¬ ∀ (options : ConnectOptions) (events : List (ClientEvent Bytes)) (client : Client Bytes)
        (conn : Nat) (nextPacketId : UInt16) (pkt : ConnackPkt),
        runs (step none) (tinymqttNew options) events = some client → client.conn = some conn →
        pkt.returnCode = connectionAccepted → client.ResendsOnConnAck conn nextPacketId pkt := by
  intro hall
  obtain ⟨next, hnext, -⟩ :=
    hall keptOptions [.tcpConnected] _ 0 7 ⟨0, connectionAccepted⟩ rfl rfl rfl
  cases hnext

end Client

end TinyMqtt
