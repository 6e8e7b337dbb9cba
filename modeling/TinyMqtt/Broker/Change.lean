import TinyMqtt.Broker.Handlers

/-!
What one step of the broker can do, with everything it checked. The invariants
of the following modules are proved over these cases.
-/

namespace TinyMqtt

namespace Broker

variable {π J : Type} [TmqString π]

def queueTasks (broker : Broker π) (topics : Topics π) (tasks : List (BroadcastTask π))
    (events : List (BrokerEvent π)) : Broker π :=
  { broker with
    topicsTree := topics
    broadcastTasks := broker.broadcastTasks ++ tasks
    log := broker.log ++ events }

/-- A message was queued in tasks for the subscribers it found, and the
connections of the open ones were shared. -/
structure Queues (heap : Nat → Option (SessionRecord π)) (message : MqttMessage π)
    (tasks : List (BroadcastTask π)) (shares : List (Nat × Nat)) : Prop where
  shared : shares.Perm (openConns heap (tasks.flatMap BroadcastTask.subscribers))
  flagged : ∀ task ∈ tasks, ∀ entry ∈ task.subscribers, ∃ session,
    heap entry.session = some session ∧
      (entry.isSessionClosed = true ↔ session.state = .closed)
  message : ∀ task ∈ tasks,
    task.message = ⟨tmqStrNew message.message, message.qos⟩ ∧ task.retain = false

inductive PublishesWill (config : BrokerConfig π J) (broker : Broker π)
    (session : SessionRecord π) (op : SessionReqOp) :
    Topics π → List (BroadcastTask π) → List (BrokerEvent π) → Prop where
  | silent (hsilent : op = .sessionDisconnect ∨ session.will = none) :
      PublishesWill config broker session op broker.topicsTree [] []
  | publish (will : Will π) (req : PublishReq π) {tasks : List (BroadcastTask π)}
      {shares : List (Nat × Nat)} (hop : op = .sessionForceClose) (hwill : session.will = some will)
      (hmessage : req.message = ⟨tmqStrNew will.message, will.qos⟩)
      (hqueues : Queues broker.heap req.message tasks shares) :
      PublishesWill config broker session op
        (tmqTopicsPublish config.cJsonParse broker.topicsTree req).1 tasks
        (.willPublished session.conn will :: shares.map fun shared => .share shared.1 shared.2)

def keepSession (broker : Broker π) (s : Nat) (session : SessionRecord π) : Broker π :=
  (broker.setSession s { session with state := .closed }).record (.release session.conn s)

def cleanSession (broker : Broker π) (s : Nat) (session : SessionRecord π) (topics : Topics π) :
    Broker π :=
  { (broker.setSession s { session with state := .closed, released := true }).record
      (.release session.conn s) with
    topicsTree := topics
    sessions := Function.update broker.sessions session.clientId none }

def removeAll (clientId : Bytes) (filters : List Bytes) (topics : Topics π) : Option (Topics π) :=
  filters.foldlM (fun topics topicFilter => tmqTopicsRemoveSubscription topics topicFilter clientId)
    topics

def dequeue (broker : Broker π) (requests : List (Request π)) : Broker π :=
  { broker with requests := requests }

/-- A step of the broker and what it found. The label is left open where no
later condition depends on it. -/
inductive Change (config : BrokerConfig π J) (broker : Broker π) : Label π → Broker π → Prop where
  | unchanged (label : Label π) : Change config broker label broker
  | accept {k : Nat} {connId : Bytes} (n : Nat) (hnew : broker.conns k = none) :
      Change config broker (.accept k connId)
        { broker.setConn k ⟨connId, broker.nextIoContext, .connected, .noSession, .broker, false⟩ with
          nextIoContext := n }
  | closeIdle (label : Label π) {k : Nat} {conn : ClientConn}
      (hconn : broker.conns k = some conn) (hopen : conn.state ≠ .disconnected)
      (hidle : conn.connState ≠ .inSession) :
      Change config broker label ((broker.setConn k
        { conn with state := .disconnected, draining := false }).record (.tcpClosed k))
  | closeAttached (label : Label π) {k s : Nat} {conn : ClientConn} (draining : Bool)
      (hconn : broker.conns k = some conn) (hopen : conn.state ≠ .disconnected)
      (hin : conn.connState = .inSession) (hup : conn.upstream = .session s) :
      Change config broker label (((broker.setConn k
        { conn with state := .disconnected, connState := .noSession, draining := draining }).record
          (.tcpClosed k)).postClose k .sessionForceClose (some s))
  | stop (label : Label π) {k : Nat} {conn : ClientConn} (hconn : broker.conns k = some conn)
      (hidle : conn.connState = .noSession) (hclosed : conn.state = .disconnected) :
      Change config broker label (broker.setConn k { conn with draining := false })
  | connectPool {k : Nat} {req : ConnectReq π} {fails : Bool} {conn : ClientConn}
      (hconn : broker.conns k = some conn) (hup : conn.upstream = .broker)
      (hreadable : conn.state = .connected ∨ conn.draining = true) :
      Change config broker (.connect k req fails)
        { (broker.setConn k { conn with connState := .startingSession }).record
            (.connect k req.will) with
          validations := broker.validations ++ [(k, req)] }
  | connectPost {k : Nat} {req : ConnectReq π} {fails : Bool} {conn : ClientConn}
      (hconn : broker.conns k = some conn) (hup : conn.upstream = .broker)
      (hreadable : conn.state = .connected ∨ conn.draining = true) :
      Change config broker (.connect k req fails)
        (((broker.setConn k { conn with connState := .startingSession }).record
          (.connect k req.will)).post (.connect k req))
  | connectRefuse {k : Nat} {req : ConnectReq π} {fails : Bool} {conn : ClientConn}
      (hconn : broker.conns k = some conn) (hup : conn.upstream = .broker)
      (hreadable : conn.state = .connected ∨ conn.draining = true) :
      Change config broker (.connect k req fails)
        (((broker.setConn k { conn with connState := .startingSession }).record
          (.connect k req.will)).record (.write k (.connack ⟨0, notAuthorized⟩)))
  | connectLose {k : Nat} {req : ConnectReq π} {fails : Bool} {conn : ClientConn}
      (hconn : broker.conns k = some conn) (hup : conn.upstream = .broker)
      (hopen : conn.state ≠ .disconnected) :
      Change config broker (.connect k req fails)
        ((((broker.setConn k
          { conn with connState := .startingSession, state := .disconnected, draining := true }).record
          (.connect k req.will)).record (.write k (.connack ⟨0, notAuthorized⟩))).record
            (.tcpClosed k))
  | disconnectIdle {k : Nat} {conn : ClientConn} (hconn : broker.conns k = some conn)
      (hreadable : conn.state = .connected ∨ conn.draining = true)
      (hstarting : conn.connState ≠ .inSession) (hgate : conn.connState ≠ .noSession) :
      Change config broker (.disconnect k) ((broker.setConn k
        { conn with connState := .noSession, upstream := .broker }).record (.disconnect k))
  | disconnectAttached {k s : Nat} {conn : ClientConn} (hconn : broker.conns k = some conn)
      (hreadable : conn.state = .connected ∨ conn.draining = true)
      (hin : conn.connState = .inSession) (hup : conn.upstream = .session s) :
      Change config broker (.disconnect k) (((broker.setConn k
        { conn with connState := .noSession, upstream := .broker }).record
          (.disconnect k)).postClose k .sessionDisconnect (some s))
  | subscribe {k s : Nat} {pkt : SubscribePkt} {conn : ClientConn} {session : SessionRecord π}
      (hconn : broker.conns k = some conn) (hgate : conn.connState ≠ .noSession)
      (hup : conn.upstream = .session s) (hsession : broker.heap s = some session) :
      Change config broker (.subscribe k pkt) ((broker.setSession s
        { session with subscriptions := putSubscriptions session.subscriptions pkt.topics }).post
          (.subscribe session.clientId pkt))
  | unsubscribe {k s : Nat} {pkt : UnsubscribePkt} {conn : ClientConn} {session : SessionRecord π}
      (hconn : broker.conns k = some conn) (hgate : conn.connState ≠ .noSession)
      (hup : conn.upstream = .session s) (hsession : broker.heap s = some session) :
      Change config broker (.unsubscribe k pkt) ((broker.setSession s
        { session with subscriptions := eraseSubscriptions session.subscriptions pkt.topics }).post
          (.unsubscribe session.clientId pkt))
  | validate {i k : Nat} {req : ConnectReq π} (hpool : broker.validations[i]? = some (k, req)) :
      Change config broker (.validate i true)
        ({ broker with validations := broker.validations.eraseIdx i }.post (.connect k req))
  | invalidate {i k : Nat} {valid : Bool} {req : ConnectReq π} {conn : ClientConn}
      (hpool : broker.validations[i]? = some (k, req)) (hconn : broker.conns k = some conn) :
      Change config broker (.validate i valid)
        ({ broker with validations := broker.validations.eraseIdx i }.makeConnectRespond k conn
          (.refused notAuthorized (by decide)))
  | answerClose {ioContext : Nat} {mail : ConnectMail} {conn : ClientConn}
      {before after : List ConnectMail}
      (hmails : broker.mqttConnectResponses = before ++ mail :: after)
      (htake : Mailbox.take? ConnectMail.ioContext ioContext broker.mqttConnectResponses
        = some (mail, before ++ after))
      (hconn : broker.conns mail.conn = some conn)
      (hclose : (mail.resp.address ≠ none ∧ conn.connState = .noSession) ∨ conn.state ≠ .connected) :
      Change config broker (.connectComplete ioContext)
        ({ broker with mqttConnectResponses := before ++ after }.postClose mail.conn
          (if conn.connState = ConnState.noSession then .sessionDisconnect else .sessionForceClose)
          mail.resp.address)
  | answerEnter {ioContext k s : Nat} {sessionPresent : Bool} {conn : ClientConn}
      {before after : List ConnectMail}
      (hmails : broker.mqttConnectResponses
        = before ++ ⟨ioContext, k, .accepted s sessionPresent⟩ :: after)
      (htake : Mailbox.take? ConnectMail.ioContext ioContext broker.mqttConnectResponses
        = some (⟨ioContext, k, .accepted s sessionPresent⟩, before ++ after))
      (hconn : broker.conns k = some conn) (hconnected : conn.state = .connected)
      (hpending : conn.connState ≠ .noSession) :
      Change config broker (.connectComplete ioContext)
        ((({ broker with mqttConnectResponses := before ++ after }.setConn k
          { conn with upstream := .session s, connState := .inSession }).record
            (.write k (.connack ⟨if sessionPresent then 1 else 0, connectionAccepted⟩))).record
              (.sessionStart s))
  | answerRefuse {ioContext k : Nat} {returnCode : ConnackReturnCode}
      {hcode : returnCode ≠ connectionAccepted} {conn : ClientConn} {before after : List ConnectMail}
      (hmails : broker.mqttConnectResponses
        = before ++ ⟨ioContext, k, .refused returnCode hcode⟩ :: after)
      (hconn : broker.conns k = some conn) (hconnected : conn.state = .connected) :
      Change config broker (.connectComplete ioContext)
        ({ broker with mqttConnectResponses := before ++ after }.record
          (.write k (.connack ⟨0, returnCode⟩)))
  | reject {run : Execution} {k s : Nat} {req : ConnectReq π} {requests : List (Request π)}
      {conn : ClientConn} {session : SessionRecord π}
      (hrequests : broker.requests = .connect k req :: requests)
      (hconn : broker.conns k = some conn)
      (hregistered : broker.sessions (req.clientId conn) = some s)
      (hsession : broker.heap s = some session) (hopened : session.state = .opened) :
      Change config broker (.execute run) ((broker.dequeue requests).makeConnectRespond k conn
        (.refused identifierRejected (by decide)))
  | startNew {run : Execution} {k : Nat} {req : ConnectReq π} {requests : List (Request π)}
      {conn : ClientConn} (hrequests : broker.requests = .connect k req :: requests)
      (hconn : broker.conns k = some conn) (habsent : broker.sessions (req.clientId conn) = none)
      (hfree : broker.heap run.malloc = none) :
      Change config broker (.execute run) ((broker.dequeue requests).putNewSession run.malloc k conn
        req (connectCleanSession req.pkt.flags) false)
  | restart {run : Execution} {k s : Nat} {req : ConnectReq π} {requests : List (Request π)}
      {conn : ClientConn} {session : SessionRecord π} {topics : Topics π}
      (hrequests : broker.requests = .connect k req :: requests)
      (hconn : broker.conns k = some conn)
      (hregistered : broker.sessions (req.clientId conn) = some s)
      (hsession : broker.heap s = some session) (hclosed : session.state = .closed)
      (hclean : connectCleanSession req.pkt.flags = true)
      (horder : run.order.Perm session.subscriptions.keys)
      (hremoved : removeAll session.clientId run.order broker.topicsTree = some topics)
      (hfree : broker.heap run.malloc = none) :
      Change config broker (.execute run)
        (((broker.dequeue requests).cleanSession s session topics).putNewSession run.malloc k conn
          req true true)
  | resume {run : Execution} {k s : Nat} {req : ConnectReq π} {requests : List (Request π)}
      {conn : ClientConn} {session : SessionRecord π}
      (hrequests : broker.requests = .connect k req :: requests)
      (hconn : broker.conns k = some conn)
      (hregistered : broker.sessions (req.clientId conn) = some s)
      (hsession : broker.heap s = some session) (hclosed : session.state = .closed)
      (hkeep : connectCleanSession req.pkt.flags = false) :
      Change config broker (.execute run)
        (((broker.dequeue requests).tmqSessionResume s session k req).accept k conn req s true)
  | closeKeep {run : Execution} {op : SessionReqOp} {s : Nat} {requests : List (Request π)}
      {session : SessionRecord π} {topics : Topics π} {tasks : List (BroadcastTask π)}
      {events : List (BrokerEvent π)}
      (hrequests : broker.requests = .close op (some s) :: requests)
      (hsession : broker.heap s = some session) (hkeep : session.cleanSession = false)
      (hwill : PublishesWill config broker session op topics tasks events) :
      Change config broker (.execute run)
        ((((broker.dequeue requests).queueTasks topics tasks events).record
          (.sessionClosed session.conn s op session.will)).keepSession s session)
  | closeClean {run : Execution} {op : SessionReqOp} {s : Nat} {requests : List (Request π)}
      {session : SessionRecord π} {topics cleaned : Topics π} {tasks : List (BroadcastTask π)}
      {events : List (BrokerEvent π)}
      (hrequests : broker.requests = .close op (some s) :: requests)
      (hsession : broker.heap s = some session) (hclean : session.cleanSession = true)
      (hwill : PublishesWill config broker session op topics tasks events)
      (horder : run.order.Perm session.subscriptions.keys)
      (hremoved : removeAll session.clientId run.order topics = some cleaned) :
      Change config broker (.execute run)
        ((((broker.dequeue requests).queueTasks topics tasks events).record
          (.sessionClosed session.conn s op session.will)).cleanSession s session cleaned)
  | dropTopics {run : Execution} {request : Request π} {clientId : Bytes}
      {requests : List (Request π)} (hrequests : broker.requests = request :: requests)
      (htopic : (∃ pkt, request = .subscribe clientId pkt) ∨
        ∃ pkt, request = .unsubscribe clientId pkt)
      (hnone : ∀ s session, broker.sessions clientId = some s → broker.heap s = some session →
        session.state = .closed) :
      Change config broker (.execute run) (broker.dequeue requests)
  | addTopics {run : Execution} {s : Nat} {clientId : Bytes} {pkt : SubscribePkt}
      {requests : List (Request π)} {session : SessionRecord π} {conn : ClientConn}
      (hrequests : broker.requests = .subscribe clientId pkt :: requests)
      (hregistered : broker.sessions clientId = some s) (hsession : broker.heap s = some session)
      (hopened : session.state = .opened) (hconn : broker.conns session.conn = some conn) :
      Change config broker (.execute run)
        { broker.dequeue requests with
          topicsTree := (addSubscriptions config session s pkt.topics broker.topicsTree).1
          broadcastTasks := broker.broadcastTasks ++ retainTasks run conn s
            (addSubscriptions config session s pkt.topics broker.topicsTree).2.1
          log := broker.log ++ [.queueWrite session.conn (.suback ⟨pkt.packetId,
              (addSubscriptions config session s pkt.topics broker.topicsTree).2.2⟩)] ++
            (addSubscriptions config session s pkt.topics broker.topicsTree).2.1.map
              fun _ => .share session.conn s }
  | removeTopics {run : Execution} {s : Nat} {clientId : Bytes} {pkt : UnsubscribePkt}
      {requests : List (Request π)} {session : SessionRecord π} {topics : Topics π}
      (hrequests : broker.requests = .unsubscribe clientId pkt :: requests)
      (hregistered : broker.sessions clientId = some s) (hsession : broker.heap s = some session)
      (hopened : session.state = .opened)
      (hremoved : removeAll clientId pkt.topics broker.topicsTree = some topics) :
      Change config broker (.execute run)
        ({ broker.dequeue requests with topicsTree := topics }.record
          (.queueWrite session.conn (.unsuback pkt.packetId)))
  | publish {req : PublishReq π} {tasks : List (BroadcastTask π)} {shares : List (Nat × Nat)}
      (hqueues : Queues broker.heap req.message tasks shares) :
      Change config broker (.publish req)
        (broker.queueTasks (tmqTopicsPublish config.cJsonParse broker.topicsTree req).1 tasks
          (shares.map fun shared => .share shared.1 shared.2))
  | broadcast {ioContext : Nat} {task : BroadcastTask π} {before after : List (BroadcastTask π)}
      (htasks : broker.broadcastTasks = before ++ task :: after)
      (hfound : ∀ entry ∈ task.subscribers, broker.heap entry.session ≠ none) :
      Change config broker (.broadcast ioContext)
        { broker with
          broadcastTasks := before ++ after
          log := broker.log ++ (openConns broker.heap task.subscribers).map fun shared =>
            .release shared.1 shared.2 }

/-! ### Every step is one of the changes -/

section Cases

variable {config : BrokerConfig π J} {broker next : Broker π}

theorem connClose_cases {k : Nat} {draining : Bool}
    (hclose : broker.connClose k draining = some next)
    (hdraining : draining = false ∨
      ∀ conn, broker.conns k = some conn → conn.connState = .inSession) (label : Label π) :
    Change config broker label next := by
  simp only [connClose, Option.bind_eq_bind, Option.bind_eq_some_iff] at hclose
  obtain ⟨conn, hconn, hclose⟩ := hclose
  split at hclose
  · obtain rfl := Option.some.inj hclose
    exact .unchanged label
  · rename_i hopen
    split at hclose
    · rename_i hin
      split at hclose
      · rename_i s hup
        obtain rfl := Option.some.inj hclose
        exact .closeAttached label draining hconn hopen hin hup
      · cases hclose
    · rename_i hidle
      obtain rfl := Option.some.inj hclose
      obtain rfl := hdraining.resolve_right fun hin => hidle (hin conn hconn)
      exact .closeIdle label hconn hopen hidle

omit [TmqString π] in
theorem readable_eq_some {k : Nat} {conn : ClientConn} (hread : broker.readable k = some conn) :
    broker.conns k = some conn ∧ (conn.state = .connected ∨ conn.draining = true) := by
  simp only [readable, Option.bind_eq_bind, Option.bind_eq_some_iff] at hread
  obtain ⟨found, hconn, hread⟩ := hread
  split at hread
  · rename_i hreadable
    obtain rfl := Option.some.inj hread
    exact ⟨hconn, hreadable⟩
  · cases hread

/-- Without a session the decoder closes the connection. -/
theorem gate_cases {k : Nat} {handle : ClientConn → Option (Broker π)}
    (hgate : broker.gate k handle = some next) (label : Label π) :
    Change config broker label next ∨ ∃ conn, broker.conns k = some conn ∧
      (conn.state = .connected ∨ conn.draining = true) ∧ conn.connState ≠ .noSession ∧
      handle conn = some next := by
  simp only [gate, Option.bind_eq_bind, Option.bind_eq_some_iff] at hgate
  obtain ⟨conn, hread, hgate⟩ := hgate
  obtain ⟨hconn, hreadable⟩ := readable_eq_some hread
  split at hgate
  · rename_i hidle
    left
    simp only [connClose, setConn, Function.update_self, Option.bind_eq_bind, Option.bind_some,
      Function.update_idem] at hgate
    split at hgate
    · rename_i hclosed
      obtain rfl := Option.some.inj hgate
      exact .stop label hconn hidle hclosed
    · rename_i hopen
      rw [if_neg (by rw [hidle]; decide)] at hgate
      obtain rfl := Option.some.inj hgate
      exact .closeIdle label hconn hopen (by rw [hidle]; decide)
  · rename_i hpassed
    exact .inr ⟨conn, hconn, hreadable, hpassed, hgate⟩

theorem mqttConnect_cases {k : Nat} {req : ConnectReq π} {fails : Bool}
    (hconnect : broker.mqttConnect config k req fails = some next) :
    Change config broker (.connect k req fails) next := by
  simp only [mqttConnect, Option.bind_eq_bind, Option.bind_eq_some_iff] at hconnect
  obtain ⟨conn, hread, hconnect⟩ := hconnect
  obtain ⟨hconn, hreadable⟩ := readable_eq_some hread
  split at hconnect
  · cases hconnect
  · rename_i hup
    have hup := not_not.mp hup
    split at hconnect
    · obtain rfl := Option.some.inj hconnect
      exact .connectPool hconn hup hreadable
    · obtain rfl := Option.some.inj hconnect
      exact .connectPost hconn hup hreadable
    · split at hconnect
      · simp only [connClose, setConn, record, Function.update_self, Option.bind_eq_bind,
          Option.bind_some, Function.update_idem] at hconnect
        split at hconnect
        · obtain rfl := Option.some.inj hconnect
          exact .connectRefuse hconn hup hreadable
        · rename_i hopen
          rw [if_neg (by decide)] at hconnect
          obtain rfl := Option.some.inj hconnect
          exact .connectLose hconn hup hopen
      · obtain rfl := Option.some.inj hconnect
        exact .connectRefuse hconn hup hreadable

theorem mqttDisconnect_cases {k : Nat} (hdisconnect : broker.mqttDisconnect k = some next) :
    Change config broker (.disconnect k) next := by
  rcases gate_cases hdisconnect (.disconnect k) with
    hclosed | ⟨conn, hconn, hreadable, hgate, hhandle⟩
  · exact hclosed
  · dsimp only at hhandle
    split at hhandle
    · rename_i hin
      split at hhandle
      · rename_i s hup
        obtain rfl := Option.some.inj hhandle
        exact .disconnectAttached hconn hreadable hin hup
      · cases hhandle
    · rename_i hstarting
      obtain rfl := Option.some.inj hhandle
      exact .disconnectIdle hconn hreadable hstarting hgate

theorem subscribe_cases {k : Nat} {pkt : SubscribePkt}
    (hsubscribe : broker.tmqSessionHandleSubscribe k pkt = some next) :
    Change config broker (.subscribe k pkt) next := by
  rcases gate_cases hsubscribe (.subscribe k pkt) with hclosed | ⟨conn, hconn, -, hgate, hhandle⟩
  · exact hclosed
  · split at hhandle
    · rename_i s hup
      simp only [Option.bind_eq_bind, Option.bind_eq_some_iff] at hhandle
      obtain ⟨session, hsession, hhandle⟩ := hhandle
      obtain rfl := Option.some.inj hhandle
      exact .subscribe hconn hgate hup hsession
    · cases hhandle

theorem unsubscribe_cases {k : Nat} {pkt : UnsubscribePkt}
    (hunsubscribe : broker.tmqSessionHandleUnsubscribe k pkt = some next) :
    Change config broker (.unsubscribe k pkt) next := by
  rcases gate_cases hunsubscribe (.unsubscribe k pkt) with
    hclosed | ⟨conn, hconn, -, hgate, hhandle⟩
  · exact hclosed
  · split at hhandle
    · rename_i s hup
      simp only [Option.bind_eq_bind, Option.bind_eq_some_iff] at hhandle
      obtain ⟨session, hsession, hhandle⟩ := hhandle
      obtain rfl := Option.some.inj hhandle
      exact .unsubscribe hconn hgate hup hsession
    · cases hhandle

theorem receivePacket_cases {k : Nat} (hpacket : broker.receivePacket k = some next) :
    Change config broker (.packet k) next := by
  rcases gate_cases hpacket (.packet k) with hclosed | ⟨conn, -, -, -, hhandle⟩
  · exact hclosed
  · split at hhandle
    · obtain rfl := Option.some.inj hhandle
      exact .unchanged _
    · cases hhandle

theorem validatePassword_cases {i : Nat} {valid : Bool}
    (hvalidate : broker.validatePassword i valid = some next) :
    Change config broker (.validate i valid) next := by
  simp only [validatePassword, Option.bind_eq_bind, Option.bind_eq_some_iff] at hvalidate
  obtain ⟨⟨k, req⟩, hpool, conn, hconn, hvalidate⟩ := hvalidate
  split at hvalidate
  · rename_i hvalid
    obtain rfl := Option.some.inj hvalidate
    obtain ⟨-, -, rfl⟩ := hvalid
    exact .validate hpool
  · obtain rfl := Option.some.inj hvalidate
    exact .invalidate hpool hconn

theorem connectComplete_cases {ioContext : Nat}
    (hcomplete : broker.connectCompleteHandler ioContext = some next) :
    Change config broker (.connectComplete ioContext) next := by
  simp only [connectCompleteHandler, Option.bind_eq_bind, Option.bind_eq_some_iff] at hcomplete
  obtain ⟨⟨mail, rest⟩, htake, conn, hconn, hcomplete⟩ := hcomplete
  obtain ⟨before, after, hmails, hrest, howner, -⟩ := Mailbox.take?_eq_some htake
  dsimp only at hmails hrest howner hconn hcomplete
  subst hrest
  split at hcomplete
  · rename_i hclose
    obtain rfl := Option.some.inj hcomplete
    rw [Option.isSome_iff_ne_none] at hclose
    exact .answerClose hmails htake hconn hclose
  · rename_i hstays
    obtain ⟨owner, k, resp⟩ := mail
    dsimp only at howner
    subst howner
    push Not at hstays
    cases resp with
    | accepted s sessionPresent =>
        obtain rfl := Option.some.inj hcomplete
        exact .answerEnter hmails htake hconn hstays.2 (hstays.1 rfl)
    | refused returnCode hcode =>
        obtain rfl := Option.some.inj hcomplete
        exact .answerRefuse hmails hconn hstays.2

/-! #### Publishing -/

omit [TmqString π] in
theorem openConns_append (heap : Nat → Option (SessionRecord π))
    (first second : List BroadcastEntry) :
    openConns heap (first ++ second) = openConns heap first ++ openConns heap second :=
  List.filterMap_append

theorem Queues.append {heap : Nat → Option (SessionRecord π)} {message : MqttMessage π}
    {first second : List (BroadcastTask π)} {shares shares' : List (Nat × Nat)}
    (hfirst : Queues heap message first shares) (hsecond : Queues heap message second shares') :
    Queues heap message (first ++ second) (shares ++ shares') := by
  constructor
  · rw [List.flatMap_append, openConns_append]
    exact hfirst.shared.append hsecond.shared
  · intro task htask
    rcases List.mem_append.mp htask with hmem | hmem
    · exact hfirst.flagged task hmem
    · exact hsecond.flagged task hmem
  · intro task htask
    rcases List.mem_append.mp htask with hmem | hmem
    · exact hfirst.message task hmem
    · exact hsecond.message task hmem

omit [TmqString π] in
/-- Entries that are sorted by a number are all there. -/
theorem perm_flatMap_range {α : Type} (index : α → Nat) (entries : List α) (n : Nat) :
    ((List.range n).flatMap fun i => entries.filter fun entry => index entry = i).Perm
      (entries.filter fun entry => index entry < n) := by
  induction n with
  | zero => simp
  | succ n ih =>
      have hsplit := List.filter_append_perm (fun entry => decide (index entry < n))
        (entries.filter fun entry => index entry < n + 1)
      rw [List.filter_filter, List.filter_filter] at hsplit
      have hbelow : ∀ entry, (decide (index entry < n) && decide (index entry < n + 1))
          = decide (index entry < n) := by
        intro entry
        by_cases h : index entry < n
        · simp [h, Nat.lt_succ_of_lt h]
        · simp [h]
      have hlast : ∀ entry, (!decide (index entry < n) && decide (index entry < n + 1))
          = decide (index entry = n) := by
        intro entry
        rw [← decide_not, ← Bool.decide_and]
        congr 1
        exact propext (by omega)
      simp only [hbelow, hlast] at hsplit
      rw [List.range_succ, List.flatMap_append, List.flatMap_singleton]
      exact (ih.append_right _).trans hsplit

omit [TmqString π] in
theorem mem_of_mapM_eq_some {α β : Type} {f : α → Option β} {inputs : List α} {outputs : List β}
    (hmap : inputs.mapM f = some outputs) {output : β} (hmem : output ∈ outputs) :
    ∃ input ∈ inputs, f input = some output := by
  induction inputs generalizing outputs with
  | nil =>
      obtain rfl := Option.some.inj hmap
      exact (List.not_mem_nil hmem).elim
  | cons input inputs ih =>
      simp only [List.mapM_cons, Option.bind_eq_bind, Option.bind_eq_some_iff, Option.pure_def,
        Option.some.injEq] at hmap
      obtain ⟨first, hfirst, rest, hrest, rfl⟩ := hmap
      rcases List.mem_cons.mp hmem with rfl | hlater
      · exact ⟨input, List.mem_cons_self, hfirst⟩
      · obtain ⟨other, hother, hf⟩ := ih hrest hlater
        exact ⟨other, List.mem_cons_of_mem input hother, hf⟩

omit [TmqString π] in
/-- The subscribers, sorted by IO context. -/
theorem perm_byIoContext {infos : List (SessionRecord π × BroadcastEntry)} {ioThreads : Nat}
    (hbound : ¬ infos.any fun info => ioThreads ≤ info.1.ioContextIdx.toNat) :
    ((List.range ioThreads).flatMap fun i =>
      infos.filter fun info => info.1.ioContextIdx.toNat = i).Perm infos := by
  have hsorted := perm_flatMap_range
    (fun info : SessionRecord π × BroadcastEntry => info.1.ioContextIdx.toNat) infos ioThreads
  have hall : infos.filter (fun info => info.1.ioContextIdx.toNat < ioThreads) = infos := by
    rw [List.filter_eq_self]
    intro info hinfo
    simp only [List.any_eq_true, decide_eq_true_eq, not_exists, not_and, not_le] at hbound
    exact decide_eq_true (hbound info hinfo)
  rwa [hall] at hsorted

theorem mqttBroadcast_cases {topic : Bytes} {message : MqttMessage π} {subscribers : SubscribeMap}
    (hbroadcast : mqttBroadcast config topic message broker subscribers = some next) :
    ∃ tasks shares, next = broker.queueTasks broker.topicsTree tasks
        (shares.map fun shared => .share shared.1 shared.2) ∧
      Queues broker.heap message tasks shares := by
  simp only [mqttBroadcast, Option.bind_eq_bind, Option.bind_eq_some_iff] at hbroadcast
  obtain ⟨infos, hinfos, hbroadcast⟩ := hbroadcast
  split at hbroadcast
  · cases hbroadcast
  · rename_i hbound
    obtain rfl := Option.some.inj hbroadcast
    refine ⟨_, _, rfl, ?_, ?_, ?_⟩
    · rw [List.flatMap_map, ← List.map_flatMap]
      exact (((perm_byIoContext hbound).map Prod.snd).filterMap _).symm
    · intro task htask entry hentry
      obtain ⟨i, -, rfl⟩ := List.mem_map.mp htask
      obtain ⟨info, hinfo, rfl⟩ := List.mem_map.mp hentry
      obtain ⟨found, -, hfound⟩ := mem_of_mapM_eq_some hinfos (List.mem_of_mem_filter hinfo)
      simp only [broadcastInfo, Option.bind_eq_bind, Option.bind_eq_some_iff] at hfound
      obtain ⟨session, hsession, hfound⟩ := hfound
      obtain rfl := Option.some.inj hfound
      exact ⟨session, hsession, by simp⟩
    · intro task htask
      obtain ⟨i, -, rfl⟩ := List.mem_map.mp htask
      exact ⟨rfl, rfl⟩

theorem foldlM_mqttBroadcast_cases {topic : Bytes} {message : MqttMessage π}
    {tables : List SubscribeMap}
    (hbroadcast : tables.foldlM (mqttBroadcast config topic message) broker = some next) :
    ∃ tasks shares, next = broker.queueTasks broker.topicsTree tasks
        (shares.map fun shared => .share shared.1 shared.2) ∧
      Queues broker.heap message tasks shares := by
  induction tables generalizing broker with
  | nil =>
      obtain rfl := Option.some.inj hbroadcast
      refine ⟨[], [], ?_, .refl _, ?_, ?_⟩
      · simp [queueTasks]
      · simp
      · simp
  | cons subscribers tables ih =>
      simp only [List.foldlM_cons, Option.bind_eq_bind, Option.bind_eq_some_iff] at hbroadcast
      obtain ⟨middle, hfirst, hrest⟩ := hbroadcast
      obtain ⟨tasks, shares, rfl, hqueues⟩ := mqttBroadcast_cases hfirst
      obtain ⟨tasks', shares', rfl, hqueues'⟩ := ih hrest
      refine ⟨tasks ++ tasks', shares ++ shares', ?_, hqueues.append hqueues'⟩
      simp [queueTasks]

theorem topicsPublish_cases {req : PublishReq π}
    (hpublish : broker.topicsPublish config req = some next) :
    ∃ tasks shares, next = broker.queueTasks
        (tmqTopicsPublish config.cJsonParse broker.topicsTree req).1 tasks
        (shares.map fun shared => .share shared.1 shared.2) ∧
      Queues broker.heap req.message tasks shares := by
  obtain ⟨tasks, shares, rfl, hqueues⟩ := foldlM_mqttBroadcast_cases hpublish
  exact ⟨tasks, shares, rfl, hqueues⟩

theorem broadcastHandler_cases {ioContext : Nat}
    (hbroadcast : broker.broadcastHandler ioContext = some next) :
    Change config broker (.broadcast ioContext) next := by
  simp only [broadcastHandler, Option.bind_eq_bind, Option.bind_eq_some_iff] at hbroadcast
  obtain ⟨⟨task, rest⟩, htake, hbroadcast⟩ := hbroadcast
  obtain ⟨before, after, htasks, hrest, -⟩ := Mailbox.take?_eq_some htake
  dsimp only at htasks hrest hbroadcast
  subst hrest
  split at hbroadcast
  · cases hbroadcast
  · rename_i hfound
    obtain rfl := Option.some.inj hbroadcast
    apply Change.broadcast htasks
    intro entry hentry hnone
    apply hfound
    rw [List.any_eq_true]
    exact ⟨entry, hentry, by rw [hnone]; rfl⟩

/-! #### Requests -/

omit [TmqString π] in
theorem tmqSessionClose_cases {s : Nat} {forceClean : Bool} {order : List Bytes}
    (hclose : broker.tmqSessionClose s forceClean order = some next) :
    ∃ session, broker.heap s = some session ∧
      ((session.cleanSession = false ∧ forceClean = false ∧ next = broker.keepSession s session) ∨
        ∃ topics, order.Perm session.subscriptions.keys ∧
          removeAll session.clientId order broker.topicsTree = some topics ∧
          next = broker.cleanSession s session topics ∧
          (session.cleanSession = true ∨ forceClean = true)) := by
  simp only [tmqSessionClose, sessionCloseCallback, Option.bind_eq_bind,
    Option.bind_eq_some_iff] at hclose
  obtain ⟨session, hsession, hclose⟩ := hclose
  refine ⟨session, hsession, ?_⟩
  split at hclose
  · rename_i hkeep
    obtain rfl := Option.some.inj hclose
    simp only [Bool.and_eq_true, Bool.not_eq_true'] at hkeep
    exact .inl ⟨hkeep.1, hkeep.2, rfl⟩
  · rename_i hclean
    split at hclose
    · cases hclose
    · rename_i horder
      simp only [Option.bind_eq_some_iff] at hclose
      obtain ⟨topics, hremoved, hclose⟩ := hclose
      obtain rfl := Option.some.inj hclose
      refine .inr ⟨topics, not_not.mp horder, hremoved, ?_, ?_⟩
      · simp [cleanSession, setSession, record]
      · cases hsession : session.cleanSession
        · right
          simpa [hsession] using hclean
        · exact .inl rfl

theorem startNewSession_cases {malloc k : Nat} {conn : ClientConn}
    {req : ConnectReq π} {clean sessionPresent : Bool}
    (hstart : broker.startNewSession malloc k conn req clean sessionPresent = some next) :
    broker.heap malloc = none ∧
      next = broker.putNewSession malloc k conn req clean sessionPresent := by
  unfold startNewSession at hstart
  split at hstart
  · cases hstart
  · rename_i hfree
    exact ⟨by simpa using hfree, (Option.some.inj hstart).symm⟩

/-- What `start_session` can do. -/
inductive Started (broker : Broker π) (run : Execution) (k : Nat) (req : ConnectReq π)
    (conn : ClientConn) : Broker π → Prop where
  | reject {s : Nat} {session : SessionRecord π}
      (hregistered : broker.sessions (req.clientId conn) = some s)
      (hsession : broker.heap s = some session) (hopened : session.state = .opened) :
      Started broker run k req conn
        (broker.makeConnectRespond k conn (.refused identifierRejected (by decide)))
  | startNew (habsent : broker.sessions (req.clientId conn) = none)
      (hfree : broker.heap run.malloc = none) :
      Started broker run k req conn
        (broker.putNewSession run.malloc k conn req (connectCleanSession req.pkt.flags) false)
  | restart {s : Nat} {session : SessionRecord π} {topics : Topics π}
      (hregistered : broker.sessions (req.clientId conn) = some s)
      (hsession : broker.heap s = some session) (hclosed : session.state = .closed)
      (hclean : connectCleanSession req.pkt.flags = true)
      (horder : run.order.Perm session.subscriptions.keys)
      (hremoved : removeAll session.clientId run.order broker.topicsTree = some topics)
      (hfree : broker.heap run.malloc = none) :
      Started broker run k req conn
        ((broker.cleanSession s session topics).putNewSession run.malloc k conn req true true)
  | resume {s : Nat} {session : SessionRecord π}
      (hregistered : broker.sessions (req.clientId conn) = some s)
      (hsession : broker.heap s = some session) (hclosed : session.state = .closed)
      (hkeep : connectCleanSession req.pkt.flags = false) :
      Started broker run k req conn
        ((broker.tmqSessionResume s session k req).accept k conn req s true)

theorem startSession_eq_some {run : Execution} {k : Nat} {req : ConnectReq π}
    (hstart : broker.startSession run k req = some next) :
    ∃ conn, broker.conns k = some conn ∧ Started broker run k req conn next := by
  simp only [startSession, Option.bind_eq_bind, Option.bind_eq_some_iff] at hstart
  obtain ⟨conn, hconn, hstart⟩ := hstart
  refine ⟨conn, hconn, ?_⟩
  split at hstart
  · rename_i habsent
    obtain ⟨hfree, rfl⟩ := startNewSession_cases hstart
    exact .startNew habsent hfree
  · rename_i s hregistered
    simp only [Option.bind_eq_some_iff] at hstart
    obtain ⟨session, hsession, hstart⟩ := hstart
    split at hstart
    · rename_i hopened
      obtain rfl := Option.some.inj hstart
      exact .reject hregistered hsession hopened
    · rename_i hclosed
      have hclosed : session.state = .closed := by
        cases hstate : session.state with
        | opened => exact (hclosed hstate).elim
        | closed => rfl
      split at hstart
      · cases hstart
      · split at hstart
        · rename_i hclean
          simp only [Option.bind_eq_some_iff] at hstart
          obtain ⟨middle, hclose, hstart⟩ := hstart
          obtain ⟨found, hfound, hcases⟩ := tmqSessionClose_cases hclose
          obtain rfl := Option.some.inj (hsession.symm.trans hfound)
          obtain ⟨hfree, rfl⟩ := startNewSession_cases hstart
          rcases hcases with ⟨-, hforce, -⟩ | ⟨topics, horder, hremoved, rfl, -⟩
          · cases hforce
          · have hother : run.malloc ≠ s := by
              rintro rfl
              simp [cleanSession, setSession, record] at hfree
            have hfree' : broker.heap run.malloc = none := by
              simpa [cleanSession, setSession, record, hother] using hfree
            exact .restart hregistered hsession hclosed hclean horder hremoved hfree'
        · rename_i hkeep
          obtain rfl := Option.some.inj hstart
          exact .resume hregistered hsession hclosed (by simpa using hkeep)

theorem startSession_cases {run : Execution} {k : Nat} {req : ConnectReq π}
    {requests : List (Request π)} (hrequests : broker.requests = .connect k req :: requests)
    (hstart : (broker.dequeue requests).startSession run k req = some next) :
    Change config broker (.execute run) next := by
  obtain ⟨conn, hconn, hstarted⟩ := startSession_eq_some hstart
  cases hstarted with
  | reject hregistered hsession hopened =>
      exact .reject hrequests hconn hregistered hsession hopened
  | startNew habsent hfree => exact .startNew hrequests hconn habsent hfree
  | restart hregistered hsession hclosed hclean horder hremoved hfree =>
      exact .restart hrequests hconn hregistered hsession hclosed hclean horder hremoved hfree
  | resume hregistered hsession hclosed hkeep =>
      exact .resume hrequests hconn hregistered hsession hclosed hkeep

theorem publishWillOf_cases {session : SessionRecord π} {op : SessionReqOp}
    (hwill : broker.publishWillOf config op session = some next) :
    ∃ topics tasks events, PublishesWill config broker session op topics tasks events ∧
      next = broker.queueTasks topics tasks events := by
  have hsilent : op = .sessionDisconnect ∨ session.will = none → next = broker →
      ∃ topics tasks events, PublishesWill config broker session op topics tasks events ∧
        next = broker.queueTasks topics tasks events := by
    rintro hsilent rfl
    exact ⟨_, _, _, .silent hsilent, by simp [queueTasks]⟩
  cases op with
  | sessionDisconnect => exact hsilent (.inl rfl) (Option.some.inj hwill).symm
  | sessionForceClose =>
      unfold publishWillOf at hwill
      cases hsession : session.will with
      | none =>
          rw [hsession] at hwill
          exact hsilent (.inr hsession) (Option.some.inj hwill).symm
      | some will =>
          rw [hsession] at hwill
          obtain ⟨tasks, shares, rfl, hqueues⟩ := topicsPublish_cases hwill
          refine ⟨_, _, _, .publish will _ rfl hsession rfl hqueues, ?_⟩
          simp [queueTasks, record]

theorem closeSession_cases {run : Execution} {op : SessionReqOp} {s : Nat}
    {requests : List (Request π)} (hrequests : broker.requests = .close op (some s) :: requests)
    (hclose : (broker.dequeue requests).closeSession config run op s = some next) :
    Change config broker (.execute run) next := by
  simp only [closeSession, Option.bind_eq_bind, Option.bind_eq_some_iff] at hclose
  obtain ⟨session, hsession, middle, hwill, hclose⟩ := hclose
  obtain ⟨topics, tasks, events, hpublished, rfl⟩ := publishWillOf_cases hwill
  have hpublished : PublishesWill config broker session op topics tasks events := by
    cases hpublished with
    | silent hsilent => exact .silent hsilent
    | publish will req hop hstored hmessage hqueues =>
        exact .publish will req hop hstored hmessage hqueues
  obtain ⟨found, hfound, hcases⟩ := tmqSessionClose_cases hclose
  obtain rfl := Option.some.inj (hsession.symm.trans hfound)
  rcases hcases with ⟨hkeep, -, rfl⟩ | ⟨cleaned, horder, hremoved, rfl, hclean⟩
  · exact .closeKeep hrequests hsession hkeep hpublished
  · exact .closeClean hrequests hsession (by simpa using hclean) hpublished horder hremoved

omit [TmqString π] in
theorem withOpenSession_cases {clientId : Bytes}
    {handle : Nat → SessionRecord π → Option (Broker π)}
    (hopen : broker.withOpenSession clientId handle = some next) :
    (next = broker ∧ ∀ s session, broker.sessions clientId = some s →
      broker.heap s = some session → session.state = .closed) ∨
    ∃ s session, broker.sessions clientId = some s ∧ broker.heap s = some session ∧
      session.state = .opened ∧ handle s session = some next := by
  unfold withOpenSession at hopen
  split at hopen
  · rename_i habsent
    obtain rfl := Option.some.inj hopen
    refine .inl ⟨rfl, ?_⟩
    intro s session hregistered
    rw [habsent] at hregistered
    cases hregistered
  · rename_i s hregistered
    simp only [Option.bind_eq_bind, Option.bind_eq_some_iff] at hopen
    obtain ⟨session, hsession, hopen⟩ := hopen
    split at hopen
    · rename_i hclosed
      obtain rfl := Option.some.inj hopen
      refine .inl ⟨rfl, ?_⟩
      intro s' session' hregistered' hsession'
      obtain rfl := Option.some.inj (hregistered.symm.trans hregistered')
      obtain rfl := Option.some.inj (hsession.symm.trans hsession')
      exact hclosed
    · rename_i hopened
      refine .inr ⟨s, session, hregistered, hsession, ?_, hopen⟩
      cases hstate : session.state with
      | opened => rfl
      | closed => exact (hopened hstate).elim

theorem execute_cases {run : Execution} (hexecute : broker.execute config run = some next) :
    Change config broker (.execute run) next := by
  unfold execute at hexecute
  split at hexecute
  · cases hexecute
  · rename_i request requests hrequests
    cases request with
    | connect k req => exact startSession_cases hrequests hexecute
    | close op session =>
        simp only [handleRequest, Option.bind_eq_bind, Option.bind_eq_some_iff] at hexecute
        obtain ⟨s, rfl, hclose⟩ := hexecute
        exact closeSession_cases hrequests hclose
    | subscribe clientId pkt =>
        rcases withOpenSession_cases hexecute with
          ⟨rfl, hnone⟩ | ⟨s, session, hregistered, hsession, hopened, hhandle⟩
        · exact .dropTopics hrequests (.inl ⟨pkt, rfl⟩) hnone
        · simp only [subscribeTopics, Option.bind_eq_bind, Option.bind_eq_some_iff] at hhandle
          obtain ⟨conn, hconn, hhandle⟩ := hhandle
          obtain rfl := Option.some.inj hhandle
          exact .addTopics hrequests hregistered hsession hopened hconn
    | unsubscribe clientId pkt =>
        rcases withOpenSession_cases hexecute with
          ⟨rfl, hnone⟩ | ⟨s, session, hregistered, hsession, hopened, hhandle⟩
        · exact .dropTopics hrequests (.inr ⟨pkt, rfl⟩) hnone
        · simp only [unsubscribeTopics, Option.bind_eq_bind, Option.bind_eq_some_iff] at hhandle
          obtain ⟨topics, hremoved, hhandle⟩ := hhandle
          obtain rfl := Option.some.inj hhandle
          exact .removeTopics hrequests hregistered hsession hopened hremoved

theorem step_change {label : Label π} (hstep : step config broker label = some next) :
    Change config broker label next := by
  cases label with
  | accept k connId =>
      simp only [step, newTcpConnectionHandler] at hstep
      split at hstep
      · cases hstep
      · rename_i hnew
        obtain rfl := Option.some.inj hstep
        exact .accept _ (by simpa using hnew)
  | connect k req fails => exact mqttConnect_cases hstep
  | disconnect k => exact mqttDisconnect_cases hstep
  | subscribe k pkt => exact subscribe_cases hstep
  | unsubscribe k pkt => exact unsubscribe_cases hstep
  | packet k => exact receivePacket_cases hstep
  | close k => exact connClose_cases hstep (.inl rfl) _
  | writeError k =>
      simp only [step, writeError, Option.bind_eq_bind, Option.bind_eq_some_iff] at hstep
      obtain ⟨conn, hconn, hstep⟩ := hstep
      split at hstep
      · rename_i hin
        refine connClose_cases hstep (.inr ?_) _
        intro found hfound
        obtain rfl := Option.some.inj (hconn.symm.trans hfound)
        exact hin
      · cases hstep
  | validate i valid => exact validatePassword_cases hstep
  | connectComplete ioContext => exact connectComplete_cases hstep
  | execute run => exact execute_cases hstep
  | publish req =>
      obtain ⟨tasks, shares, rfl, hqueues⟩ := topicsPublish_cases hstep
      exact .publish hqueues
  | broadcast ioContext => exact broadcastHandler_cases hstep

end Cases

end Broker

end TinyMqtt
