import TinyMqtt.Broker.Types
import TinyMqtt.Lib.Run

/-!
The handlers of the broker: what the logic thread does with requests
(`mqtt/mqtt_broker.c`), what the IO threads do with packets, closed sockets and
mails (`mqtt/mqtt_io_context.c`), and the life cycle of a session
(`mqtt/mqtt_session.c`). A handler that reads through a null pointer, the wrong
member of a union or a failed assertion has no result.

A write error closes a connection inside the handler that writes. Only in the
decoder does it matter that the handler goes on afterwards; elsewhere the
error is a step of its own.
-/

namespace TinyMqtt

variable {π J : Type} [TmqString π]

def connectWillRetain (flags : UInt8) : Bool := flags.toNat / 32 % 2 = 1

/-- The will that `start_session` takes from a CONNECT packet, as the session
stores it. -/
def ConnectReq.will (req : ConnectReq π) : Option (Will π) :=
  if connectWillFlag req.pkt.flags then
    req.pkt.willTopic.map fun willTopic =>
      { topic := tmqStrNew willTopic, message := tmqStrNew req.willMessage,
        qos := connectWillQos req.pkt.flags, retain := connectWillRetain req.pkt.flags }
  else none

def tmpClientPrefix : Bytes := [116, 109, 112, 95, 99, 108, 105, 101, 110, 116, 91]

/-- The client identifier of a CONNECT packet, or a temporary one. -/
def ConnectReq.clientId (req : ConnectReq π) (conn : ClientConn) : Bytes :=
  match req.pkt.clientId with
  | none | some [] => tmpClientPrefix ++ cstr conn.connId ++ [93]
  | some clientId => cstr clientId

def ConnectResp.address : ConnectResp → Option Nat
  | .accepted session _ => some session
  | .refused _ _ => none

/-- What the source leaves open when a request is executed. -/
structure Execution where
  /-- the address of a new session -/
  malloc : Nat
  /-- the order in which a table of subscriptions is walked through -/
  order : List Bytes
  /-- the memory after the last filter of a SUBSCRIBE -/
  qosAfterEnd : UInt8
  /-- what the uninitialised subscriber vectors of retained messages hold,
  `none` for a null pointer -/
  uninitialised : Nat → Option (List BroadcastEntry)

namespace Broker

/-! ### Connections -/

/-- `get_next_io_context` and `new_tcp_connection_handler`. -/
def newTcpConnectionHandler (config : BrokerConfig π J) (broker : Broker π) (k : Nat)
    (connId : Bytes) : Option (Broker π) :=
  if (broker.conns k).isSome then none
  else
    let nextIoContext := broker.nextIoContext + 1
    let conn : ClientConn :=
      { connId := connId, ioContext := broker.nextIoContext, state := .connected,
        connState := .noSession, upstream := .broker, draining := false }
    some { broker.setConn k conn with
      nextIoContext := if config.ioThreads ≤ nextIoContext then 0 else nextIoContext }

def postClose (broker : Broker π) (k : Nat) (op : SessionReqOp) (session : Option Nat) :
    Broker π :=
  (broker.post (.close op session)).record (.closeRequest k op session)

/-- `conn_close_` with `tcp_conn_close_callback`. -/
def connClose (broker : Broker π) (k : Nat) (draining : Bool) : Option (Broker π) := do
  let conn ← broker.conns k
  if conn.state = .disconnected then some broker
  else
    let closed := (broker.setConn k
      { conn with state := .disconnected, connState := .noSession, draining := draining }).record
        (.tcpClosed k)
    if conn.connState = .inSession then
      match conn.upstream with
      | .session s => some (closed.postClose k .sessionForceClose (some s))
      | _ => none
    else some ((broker.setConn k
      { conn with state := .disconnected, draining := draining }).record (.tcpClosed k))

/-- A write error inside the decoder, on a connection in session. -/
def writeError (broker : Broker π) (k : Nat) : Option (Broker π) := do
  let conn ← broker.conns k
  if conn.connState = .inSession then broker.connClose k true else none

def readable (broker : Broker π) (k : Nat) : Option ClientConn := do
  let conn ← broker.conns k
  if conn.state = .connected ∨ conn.draining then some conn else none

/-- `parse_connect_packet` with `mqtt_connect`, which answers a CONNECT that
the password file refuses; `fails` says whether that write fails. -/
def mqttConnect (config : BrokerConfig π J) (broker : Broker π) (k : Nat) (req : ConnectReq π)
    (fails : Bool) : Option (Broker π) := do
  let conn ← broker.readable k
  if conn.upstream ≠ .broker then none
  else
    let broker := (broker.setConn k { conn with connState := .startingSession }).record
      (.connect k req.will)
    match config.auth.validate req.pkt with
    | .inProgress => some { broker with validations := broker.validations ++ [(k, req)] }
    | .success => some (broker.post (.connect k req))
    | .failure =>
        let broker := broker.record (.write k (.connack ⟨0, notAuthorized⟩))
        if fails then broker.connClose k true else some broker

/-- The decoder's check of the connection state before it parses a packet
other than CONNECT. -/
def gate (broker : Broker π) (k : Nat) (handle : ClientConn → Option (Broker π)) :
    Option (Broker π) := do
  let conn ← broker.readable k
  if conn.connState = .noSession then
    (broker.setConn k { conn with draining := false }).connClose k false
  else handle conn

/-- `parse_disconnect_packet` with `mqtt_disconnect`. -/
def mqttDisconnect (broker : Broker π) (k : Nat) : Option (Broker π) :=
  broker.gate k fun conn =>
    let left := (broker.setConn k { conn with connState := .noSession, upstream := .broker }).record
      (.disconnect k)
    if conn.connState = .inSession then
      match conn.upstream with
      | .session s => some (left.postClose k .sessionDisconnect (some s))
      | _ => none
    else some left

def putSubscriptions (subscriptions : Subscriptions) (topics : List TopicFilterQos) :
    Subscriptions :=
  topics.foldl (fun table tf => table.insert (cstr tf.topicFilter) tf.qos) subscriptions

/-- `parse_subscribe_packet` with `tmq_session_handle_subscribe`. -/
def tmqSessionHandleSubscribe (broker : Broker π) (k : Nat) (pkt : SubscribePkt) :
    Option (Broker π) :=
  broker.gate k fun conn =>
    match conn.upstream with
    | .session s => do
        let session ← broker.heap s
        some ((broker.setSession s { session with
          subscriptions := putSubscriptions session.subscriptions pkt.topics }).post
            (.subscribe session.clientId pkt))
    | _ => none

def eraseSubscriptions (subscriptions : Subscriptions) (topics : List Bytes) : Subscriptions :=
  topics.foldl (fun table topicFilter => table.erase (cstr topicFilter)) subscriptions

/-- `parse_unsubscribe_packet` with `tmq_session_handle_unsubscribe`. -/
def tmqSessionHandleUnsubscribe (broker : Broker π) (k : Nat) (pkt : UnsubscribePkt) :
    Option (Broker π) :=
  broker.gate k fun conn =>
    match conn.upstream with
    | .session s => do
        let session ← broker.heap s
        some ((broker.setSession s { session with
          subscriptions := eraseSubscriptions session.subscriptions pkt.topics }).post
            (.unsubscribe session.clientId pkt))
    | _ => none

def receivePacket (broker : Broker π) (k : Nat) : Option (Broker π) :=
  broker.gate k fun conn =>
    match conn.upstream with
    | .session _ => some broker
    | _ => none

/-! ### Connect responses -/

def makeConnectRespond (broker : Broker π) (k : Nat) (conn : ClientConn) (resp : ConnectResp) :
    Broker π :=
  { broker with mqttConnectResponses := broker.mqttConnectResponses ++ [⟨conn.ioContext, k, resp⟩] }

/-- `validate_password_in_thread_pool`. The tasks of the pool end in any
order, and the database gives the answer. -/
def validatePassword (broker : Broker π) (i : Nat) (valid : Bool) : Option (Broker π) := do
  let (k, req) ← broker.validations[i]?
  let conn ← broker.conns k
  let broker := { broker with validations := broker.validations.eraseIdx i }
  if req.pkt.username.isSome ∧ req.pkt.password.isSome ∧ valid then
    some (broker.post (.connect k req))
  else some (broker.makeConnectRespond k conn (.refused notAuthorized (by decide)))

/-- `connect_complete_handler` of an IO context. -/
def connectCompleteHandler (broker : Broker π) (ioContext : Nat) : Option (Broker π) := do
  let (mail, rest) ← Mailbox.take? ConnectMail.ioContext ioContext broker.mqttConnectResponses
  let conn ← broker.conns mail.conn
  let broker := { broker with mqttConnectResponses := rest }
  if (mail.resp.address.isSome ∧ conn.connState = .noSession) ∨ conn.state ≠ .connected then
    some (broker.postClose mail.conn
      (if conn.connState = .noSession then .sessionDisconnect else .sessionForceClose)
      mail.resp.address)
  else
    match mail.resp with
    | .accepted s sessionPresent =>
        let broker := broker.setConn mail.conn
          { conn with upstream := .session s, connState := .inSession }
        let broker := broker.record (.write mail.conn
          (.connack ⟨if sessionPresent then 1 else 0, connectionAccepted⟩))
        some (broker.record (.sessionStart s))
    | .refused returnCode _ => some (broker.record (.write mail.conn (.connack ⟨0, returnCode⟩)))

/-! ### Publishing -/

/-- A subscriber as `mqtt_broadcast` finds it. -/
def broadcastInfo (broker : Broker π) (info : SubscribeInfo) :
    Option (SessionRecord π × BroadcastEntry) := do
  let session ← broker.heap info.session
  some (session, ⟨info.session, info.qos, session.state = .closed⟩)

def openConns (heap : Nat → Option (SessionRecord π)) (entries : List BroadcastEntry) :
    List (Nat × Nat) :=
  entries.filterMap fun entry =>
    if entry.isSessionClosed then none
    else (heap entry.session).map fun session => (session.conn, entry.session)

def mqttBroadcast (config : BrokerConfig π J) (topic : Bytes) (message : MqttMessage π)
    (broker : Broker π) (subscribers : SubscribeMap) : Option (Broker π) := do
  let infos ← subscribers.entries.mapM fun entry => broker.broadcastInfo entry.2
  if infos.any fun info => config.ioThreads ≤ info.1.ioContextIdx.toNat then none
  else
    let tasks := (List.range config.ioThreads).map fun i =>
      { ioContext := i, topic := tmqStrNew topic,
        message := ⟨tmqStrNew message.message, message.qos⟩, retain := false,
        subscribers := (infos.filter fun info => info.1.ioContextIdx.toNat = i).map Prod.snd }
    some { broker with
      broadcastTasks := broker.broadcastTasks ++ tasks
      log := broker.log ++ (openConns broker.heap (infos.map Prod.snd)).map fun shared =>
        .share shared.1 shared.2 }

/-- The tables that `client_on_match` was called with. -/
def matchedTables (events : List (MatchEvent J)) : List SubscribeMap :=
  events.filterMap fun
    | .clientOnMatch _ subscribers => some subscribers
    | _ => none

/-- `tmq_topics_publish` with the broker's `client_on_match`. -/
def topicsPublish (config : BrokerConfig π J) (broker : Broker π) (req : PublishReq π) :
    Option (Broker π) :=
  let published := tmqTopicsPublish config.cJsonParse broker.topicsTree req
  (matchedTables published.2.1).foldlM (mqttBroadcast config req.topic req.message)
    { broker with topicsTree := published.1 }

/-- `broadcast_handler` of an IO context, without the session's part. The
connection it releases is the one the session has by now. -/
def broadcastHandler (broker : Broker π) (ioContext : Nat) : Option (Broker π) := do
  let (task, rest) ← Mailbox.take? BroadcastTask.ioContext ioContext broker.broadcastTasks
  if task.subscribers.any fun entry => (broker.heap entry.session).isNone then none
  else
    some { broker with
      broadcastTasks := rest
      log := broker.log ++ (openConns broker.heap task.subscribers).map fun shared =>
        .release shared.1 shared.2 }

/-! ### Session requests -/

def sessionCloseCallback (broker : Broker π) (s : Nat) (session : SessionRecord π)
    (forceClean : Bool) (order : List Bytes) : Option (Broker π) :=
  if !session.cleanSession && !forceClean then some broker
  else if ¬ order.Perm session.subscriptions.keys then none
  else do
    let topics ← order.foldlM
      (fun topics topicFilter => tmqTopicsRemoveSubscription topics topicFilter session.clientId)
      broker.topicsTree
    some { broker.setSession s { session with released := true } with
      topicsTree := topics
      sessions := Function.update broker.sessions session.clientId none }

def tmqSessionClose (broker : Broker π) (s : Nat) (forceClean : Bool) (order : List Bytes) :
    Option (Broker π) := do
  let session ← broker.heap s
  let closed := { session with state := .closed }
  ((broker.setSession s closed).record (.release session.conn s)).sessionCloseCallback s closed
    forceClean order

def tmqSessionNew (broker : Broker π) (malloc k : Nat) (conn : ClientConn) (clientId : Bytes)
    (req : ConnectReq π) (cleanSession : Bool) : Broker π :=
  let session : SessionRecord π :=
    { clientId := clientId, username := cstr (req.pkt.username.getD []), state := .opened,
      cleanSession := cleanSession, conn := k, ioContextIdx := UInt8.ofNat conn.ioContext,
      will := req.will, subscriptions := ∅, released := false }
  ((broker.setSession malloc session).record (.share k malloc)).record (.sessionNew malloc)

/-- `tmq_session_resume`. The IO context of the session stays as it was. -/
def tmqSessionResume (broker : Broker π) (s : Nat) (session : SessionRecord π) (k : Nat)
    (req : ConnectReq π) : Broker π :=
  (broker.setSession s
    { session with
      conn := k, state := .opened, username := cstr (req.pkt.username.getD []),
      will := req.will }).record (.share k s)

def accept (broker : Broker π) (k : Nat) (conn : ClientConn) (req : ConnectReq π) (s : Nat)
    (sessionPresent : Bool) : Broker π :=
  (broker.record (.accepted k s req.will)).makeConnectRespond k conn (.accepted s sessionPresent)

/-- The end of `start_session` where a new session is put into the table. -/
def putNewSession (broker : Broker π) (malloc k : Nat) (conn : ClientConn) (req : ConnectReq π)
    (cleanSession sessionPresent : Bool) : Broker π :=
  let clientId := req.clientId conn
  let broker := broker.tmqSessionNew malloc k conn clientId req cleanSession
  { broker with
    sessions := Function.update broker.sessions clientId (some malloc) }.accept k conn req malloc
      sessionPresent

/-- `malloc` returns memory that is not in use. -/
def startNewSession (broker : Broker π) (malloc k : Nat) (conn : ClientConn) (req : ConnectReq π)
    (cleanSession sessionPresent : Bool) : Option (Broker π) :=
  if (broker.heap malloc).isSome then none
  else some (broker.putNewSession malloc k conn req cleanSession sessionPresent)

def startSession (broker : Broker π) (run : Execution) (k : Nat) (req : ConnectReq π) :
    Option (Broker π) := do
  let conn ← broker.conns k
  match broker.sessions (req.clientId conn) with
  | none => broker.startNewSession run.malloc k conn req (connectCleanSession req.pkt.flags) false
  | some s => do
      let session ← broker.heap s
      if session.state = .opened then
        some (broker.makeConnectRespond k conn (.refused identifierRejected (by decide)))
      else if session.cleanSession then none
      else if connectCleanSession req.pkt.flags then do
        let broker ← broker.tmqSessionClose s true run.order
        broker.startNewSession run.malloc k conn req true true
      else
        some ((broker.tmqSessionResume s session k req).accept k conn req s true)

/-- The publish of a will in `handle_session_req`. -/
def publishWill (config : BrokerConfig π J) (broker : Broker π) (session : SessionRecord π)
    (will : Will π) : Option (Broker π) :=
  (broker.record (.willPublished session.conn will)).topicsPublish config
    { topic := will.topic, message := ⟨tmqStrNew will.message, will.qos⟩, retain := will.retain,
      isTunneledPub := false, publisherUsername := tmqStrNew session.username,
      publisherClientId := tmqStrNew session.clientId }

def publishWillOf (config : BrokerConfig π J) (broker : Broker π) (op : SessionReqOp)
    (session : SessionRecord π) : Option (Broker π) :=
  match op, session.will with
  | .sessionForceClose, some will => broker.publishWill config session will
  | _, _ => some broker

/-- `handle_session_req` for a close request. -/
def closeSession (config : BrokerConfig π J) (broker : Broker π) (run : Execution)
    (op : SessionReqOp) (s : Nat) : Option (Broker π) := do
  let session ← broker.heap s
  let broker ← broker.publishWillOf config op session
  (broker.record (.sessionClosed session.conn s op session.will)).tmqSessionClose s false run.order

/-! ### Topic requests -/

/-- The loop of `handle_topic_req` over the filters of a SUBSCRIBE: the tree,
the retained messages it found and the return codes. -/
def addSubscriptions (config : BrokerConfig π J) (session : SessionRecord π) (s : Nat) :
    List TopicFilterQos → Topics π → Topics π × List (RetainMessage π) × List UInt8
  | [], topics => (topics, [], [])
  | tf :: rest, topics =>
      if config.aclDenies session tf.topicFilter .sub then
        addSubscriptions config session s rest topics
      else
        let added := tmqTopicsAddSubscription topics tf.topicFilter session.clientId ⟨s, tf.qos⟩
        let others := addSubscriptions config session s rest added.2
        (others.1, added.1 ++ others.2.1, tf.qos :: others.2.2)

/-- The broadcast tasks for the retained messages. Their subscriber vectors
are not initialised before the session is pushed. -/
def retainTasks (run : Execution) (conn : ClientConn) (s : Nat)
    (retained : List (RetainMessage π)) : List (BroadcastTask π) :=
  retained.zipIdx.map fun message =>
    { ioContext := conn.ioContext, topic := tmqStrNew message.1.retainTopic,
      message := ⟨tmqStrNew message.1.retainMsg.message, message.1.retainMsg.qos⟩, retain := true,
      subscribers := match run.uninitialised message.2 with
        | none => []
        | some entries => entries ++ [⟨s, run.qosAfterEnd, false⟩] }

/-- `handle_topic_req` for a SUBSCRIBE of an open session. -/
def subscribeTopics (config : BrokerConfig π J) (broker : Broker π) (run : Execution) (s : Nat)
    (session : SessionRecord π) (pkt : SubscribePkt) : Option (Broker π) := do
  let conn ← broker.conns session.conn
  let added := addSubscriptions config session s pkt.topics broker.topicsTree
  let broker := { broker with topicsTree := added.1 }
  let broker := broker.record (.queueWrite session.conn (.suback ⟨pkt.packetId, added.2.2⟩))
  some { broker with
    broadcastTasks := broker.broadcastTasks ++ retainTasks run conn s added.2.1
    log := broker.log ++ added.2.1.map fun _ => .share session.conn s }

/-- `handle_topic_req` for an UNSUBSCRIBE of an open session. -/
def unsubscribeTopics (broker : Broker π) (session : SessionRecord π) (clientId : Bytes)
    (pkt : UnsubscribePkt) : Option (Broker π) := do
  let topics ← pkt.topics.foldlM
    (fun topics topicFilter => tmqTopicsRemoveSubscription topics topicFilter clientId)
    broker.topicsTree
  let broker := { broker with topicsTree := topics }
  some (broker.record (.queueWrite session.conn (.unsuback pkt.packetId)))

/-- The test at the start of `handle_topic_req`: a request of a client that
has no open session is dropped. -/
def withOpenSession (broker : Broker π) (clientId : Bytes)
    (handle : Nat → SessionRecord π → Option (Broker π)) : Option (Broker π) :=
  match broker.sessions clientId with
  | none => some broker
  | some s => do
      let session ← broker.heap s
      if session.state = .closed then some broker else handle s session

/-! ### The logic thread -/

/-- `handle_session_req` and `handle_topic_req`. -/
def handleRequest (config : BrokerConfig π J) (broker : Broker π) (run : Execution) :
    Request π → Option (Broker π)
  | .connect k req => broker.startSession run k req
  | .close op session => do
      let s ← session
      broker.closeSession config run op s
  | .subscribe clientId pkt => broker.withOpenSession clientId fun s session =>
      broker.subscribeTopics config run s session pkt
  | .unsubscribe clientId pkt => broker.withOpenSession clientId fun _ session =>
      broker.unsubscribeTopics session clientId pkt

def execute (config : BrokerConfig π J) (broker : Broker π) (run : Execution) :
    Option (Broker π) :=
  match broker.requests with
  | [] => none
  | request :: requests => { broker with requests := requests }.handleRequest config run request

inductive Label (π : Type) where
  | accept (k : Nat) (connId : Bytes)
  | connect (k : Nat) (req : ConnectReq π) (fails : Bool)
  | disconnect (k : Nat)
  | subscribe (k : Nat) (pkt : SubscribePkt)
  | unsubscribe (k : Nat) (pkt : UnsubscribePkt)
  /-- any other packet -/
  | packet (k : Nat)
  /-- the peer closes, a packet is malformed, the keep-alive time is over, or
  a write fails -/
  | close (k : Nat)
  /-- a write fails inside the decoder -/
  | writeError (k : Nat)
  | validate (i : Nat) (valid : Bool)
  | connectComplete (ioContext : Nat)
  | execute (run : Execution)
  /-- `handle_publish_req` -/
  | publish (req : PublishReq π)
  | broadcast (ioContext : Nat)

def step (config : BrokerConfig π J) (broker : Broker π) : Label π → Option (Broker π)
  | .accept k connId => broker.newTcpConnectionHandler config k connId
  | .connect k req fails => broker.mqttConnect config k req fails
  | .disconnect k => broker.mqttDisconnect k
  | .subscribe k pkt => broker.tmqSessionHandleSubscribe k pkt
  | .unsubscribe k pkt => broker.tmqSessionHandleUnsubscribe k pkt
  | .packet k => broker.receivePacket k
  | .close k => broker.connClose k false
  | .writeError k => broker.writeError k
  | .validate i valid => broker.validatePassword i valid
  | .connectComplete ioContext => broker.connectCompleteHandler ioContext
  | .execute run => broker.execute config run
  | .publish req => broker.topicsPublish config req
  | .broadcast ioContext => broker.broadcastHandler ioContext

end Broker

end TinyMqtt
