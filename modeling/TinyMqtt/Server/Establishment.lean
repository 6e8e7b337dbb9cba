import TinyMqtt.Broker.Subscriptions
import TinyMqtt.Server.Server

/-!
How a CONNECT finds its session. The table of sessions decides between a
refusal, the session that was left, and a new one; the answer says whether there
was a session before. A client that asks for a clean session gets a new one, but
where a session was left the answer says that it is still present.
-/

namespace TinyMqtt

variable {π J : Type}

def ConnectResp.connack : ConnectResp → ConnackPkt
  | .accepted _ sessionPresent => ⟨if sessionPresent then 1 else 0, connectionAccepted⟩
  | .refused returnCode _ => ⟨0, returnCode⟩

namespace Broker

/-- `connect_complete_handler` writes the CONNACK of the answer, unless the
connection is gone by then. -/
theorem connectCompleteHandler_writes {broker next : Broker π} {ioContext : Nat} {mail : ConnectMail}
    {rest : List ConnectMail} {conn : ClientConn}
    (htake : Mailbox.take? ConnectMail.ioContext ioContext broker.mqttConnectResponses
      = some (mail, rest))
    (hconn : broker.conns mail.conn = some conn) (hconnected : conn.state = .connected)
    (hpending : conn.connState ≠ .noSession)
    (hcomplete : broker.connectCompleteHandler ioContext = some next) :
    .write mail.conn (.connack mail.resp.connack) ∈ next.log.drop broker.log.length := by
  simp only [connectCompleteHandler, htake, hconn, hconnected, hpending, Option.bind_eq_bind,
    Option.bind_some, and_false, ne_eq, not_true_eq_false, or_self, if_false] at hcomplete
  cases hresp : mail.resp with
  | accepted s sessionPresent =>
      rw [hresp] at hcomplete
      obtain rfl := Option.some.inj hcomplete
      simp [record, setConn, ConnectResp.connack]
  | refused returnCode hcode =>
      rw [hresp] at hcomplete
      obtain rfl := Option.some.inj hcomplete
      simp [record, ConnectResp.connack]

def storedSession (broker : Broker π) (clientId : Bytes) : Option (Nat × SessionRecord π) := do
  let s ← broker.sessions clientId
  let session ← broker.heap s
  some (s, session)

theorem storedSession_of {broker : Broker π} {clientId : Bytes} {s : Nat} {session : SessionRecord π}
    (hregistered : broker.sessions clientId = some s) (hsession : broker.heap s = some session) :
    broker.storedSession clientId = some (s, session) := by
  simp [storedSession, hregistered, hsession]

theorem storedSession_of_none {broker : Broker π} {clientId : Bytes}
    (habsent : broker.sessions clientId = none) : broker.storedSession clientId = none := by
  simp [storedSession, habsent]

/-- A session in the table that is closed is not a clean session: the assertion
of `start_session`. -/
def StoredKept (broker : Broker π) : Prop :=
  ∀ clientId s session, broker.storedSession clientId = some (s, session) →
    session.state = .closed → session.cleanSession = false

/-- A session that was closed and keeps its place is not a clean session. -/
def ClosedKept (heap : Nat → Option (SessionRecord π)) : Prop :=
  ∀ s session, heap s = some session → session.released = false → session.state = .closed →
    session.cleanSession = false

theorem ClosedKept.set {heap : Nat → Option (SessionRecord π)} (h : ClosedKept heap) {s : Nat}
    {changed : SessionRecord π}
    (hchanged : changed.released = false → changed.state = .closed → changed.cleanSession = false) :
    ClosedKept (Function.update heap s (some changed)) := by
  intro s' session hsession
  by_cases hs : s' = s
  · subst hs
    rw [Function.update_self] at hsession
    obtain rfl := Option.some.inj hsession
    exact hchanged
  · rw [Function.update_of_ne hs] at hsession
    exact h s' session hsession

variable [TmqString π] {config : BrokerConfig π J} {broker next : Broker π}

theorem closedKept_change {label : Label π} (h : ClosedKept broker.heap)
    (hchange : Change config broker label next) : ClosedKept next.heap := by
  cases hchange with
  | @subscribe _ s _ _ session _ _ _ hsession | @unsubscribe _ s _ _ session _ _ _ hsession =>
      have hkept := h s session hsession
      exact h.set hkept
  | startNew => exact h.set nofun
  | @restart _ _ s _ _ _ session =>
      have hreleased : ClosedKept (Function.update broker.heap s
          (some { session with state := .closed, released := true })) := h.set nofun
      exact hreleased.set nofun
  | resume => exact h.set nofun
  | closeKeep _ _ hkeep => exact h.set fun _ _ => hkeep
  | closeClean => exact h.set nofun
  | _ => exact h

/-- The assertion of `start_session` holds in every run. -/
theorem storedKept_runs {labels : List (Label π)}
    (hrun : Run.runs (step config) init labels = some broker) : broker.StoredKept := by
  have hinv : broker.Coherent ∧ ClosedKept broker.heap := by
    refine @Run.runs_maintains _ _ (step config)
      (fun state => state.Coherent ∧ ClosedKept state.heap) ?_ _ _ _ ⟨coherent_init, nofun⟩ hrun
    rintro state label next ⟨hcoherent, hkept⟩ hstep
    have hchange := step_change hstep
    exact ⟨coherent_change hcoherent hchange, closedKept_change hkept hchange⟩
  intro clientId s session hstored hclosed
  simp only [storedSession, Option.bind_eq_bind, Option.bind_eq_some_iff] at hstored
  obtain ⟨s', hregistered, session', hsession, hsame⟩ := hstored
  obtain ⟨rfl, rfl⟩ := Prod.mk.inj (Option.some.inj hsame)
  obtain ⟨found, hfound, -, hkeeps⟩ := hinv.1.registered clientId s' hregistered
  obtain rfl := Option.some.inj (hsession.symm.trans hfound)
  exact hinv.2 s' session' hsession hkeeps hclosed

end Broker

namespace Server

variable [TmqString π] {config : BrokerConfig π J} {server next : Server π}

/-! ### The answers to a CONNECT -/

/-- One answer to the connection was queued. -/
def Answers (server next : Server π) (k : Nat) (conn : ClientConn) (address : Option Nat)
    (pkt : ConnackPkt) : Prop :=
  ∃ resp : ConnectResp, next.broker.mqttConnectResponses
      = server.broker.mqttConnectResponses ++ [⟨conn.ioContext, k, resp⟩] ∧
    resp.address = address ∧ resp.connack = pkt

/-- The client identifier is refused, and nothing else happens. -/
structure Rejects (server next : Server π) (k : Nat) (conn : ClientConn) : Prop where
  answer : Answers server next k conn none ⟨0, identifierRejected⟩
  heap : next.broker.heap = server.broker.heap
  sessions : next.broker.sessions = server.broker.sessions
  topicsTree : next.broker.topicsTree = server.broker.topicsTree
  broadcastTasks : next.broker.broadcastTasks = server.broker.broadcastTasks
  flows : next.flows = server.flows
  publishes : next.publishes = server.publishes

/-- The session `s` is open again with the subscriptions and the publish flow it
had: its message store and the QoS 2 packet identifiers. -/
structure Resumes (server next : Server π) (k : Nat) (conn : ClientConn) (s : Nat)
    (session : SessionRecord π) : Prop where
  answer : Answers server next k conn (some s) ⟨1, connectionAccepted⟩
  heap : ∃ after, next.broker.heap s = some after ∧ after.state = .opened ∧ after.conn = k ∧
    after.clientId = session.clientId ∧ after.cleanSession = session.cleanSession ∧
    after.subscriptions = session.subscriptions
  sessions : next.broker.sessions = server.broker.sessions
  topicsTree : next.broker.topicsTree = server.broker.topicsTree
  flows : next.flows = server.flows

/-- A session that did not exist before is in the table. It has no subscriptions,
in its own list or in the tree, and its publish flow is empty. The answer says
whether there was a session, as in `ackFlags`. -/
structure StartsNew (server next : Server π) (k : Nat) (conn : ClientConn) (clientId : Bytes)
    (cleanSession : Bool) (ackFlags : UInt8) : Prop where
  new : ∃ s, server.broker.heap s = none ∧ next.broker.sessions clientId = some s ∧
    Answers server next k conn (some s) ⟨ackFlags, connectionAccepted⟩ ∧
    (∃ session, next.broker.heap s = some session ∧ session.state = .opened ∧ session.conn = k ∧
      session.clientId = clientId ∧ session.cleanSession = cleanSession ∧
      session.subscriptions = ∅) ∧
    ∃ flow nextPacketId windowSize, next.flows s = some flow ∧
      flow = tmqSessionNew false nextPacketId windowSize
  topicsTree : ∀ path, entryAt next.broker.topicsTree.root path clientId = none

/-- A CONNECT is answered by what the table holds for its client identifier. -/
def Establishes (server next : Server π) (k : Nat) (req : ConnectReq π) (conn : ClientConn) :
    Prop :=
  match server.broker.storedSession (req.clientId conn) with
  | some (s, session) =>
      if session.state = .opened then Rejects server next k conn
      else if connectCleanSession req.pkt.flags = false then Resumes server next k conn s session
      else StartsNew server next k conn (req.clientId conn) true 0
  | none =>
      StartsNew server next k conn (req.clientId conn) (connectCleanSession req.pkt.flags) 0

/-- The CONNECT asks for a clean session where a closed session is stored. -/
def ReplacesStored (broker : Broker π) (req : ConnectReq π) (conn : ClientConn) : Prop :=
  connectCleanSession req.pkt.flags = true ∧ ∃ s session,
    broker.storedSession (req.clientId conn) = some (s, session) ∧ session.state = .closed

/-- The handler of a CONNECT, and the publish flow of a new session. -/
theorem execute_connect {k : Nat} {req : ConnectReq π} {requests : List (Request π)}
    (hrequests : server.broker.requests = .connect k req :: requests) {run : Execution}
    {nextPacketId : UInt16}
    (hstep : server.step config (.broker (.execute run) nextPacketId) = some next) :
    ∃ conn, server.broker.conns k = some conn ∧
      Broker.Started (server.broker.dequeue requests) run k req conn next.broker ∧
      ((next.broker.log.drop server.broker.log.length).foldlM (follow config nextPacketId)
        { server with broker := next.broker } = some next) := by
  obtain ⟨broker, hbroker, hfollow⟩ := Option.bind_eq_some_iff.mp (step_handle hstep).1
  have hexecute : server.broker.execute config run = some broker := hbroker
  rw [Broker.execute, hrequests] at hexecute
  obtain ⟨conn, hconn, hstarted⟩ := Broker.startSession_eq_some hexecute
  have hsame : next.broker = broker := follow_broker hfollow
  exact ⟨conn, hconn, by rwa [hsame], by rwa [hsame]⟩

omit [TmqString π] in
theorem answers_respond {k : Nat} {conn : ClientConn} {address : Option Nat} {pkt : ConnackPkt}
    {resp : ConnectResp} (hnext : next.broker.mqttConnectResponses
      = server.broker.mqttConnectResponses ++ [⟨conn.ioContext, k, resp⟩]) :
    Answers server next k conn address pkt ↔ resp.address = address ∧ resp.connack = pkt := by
  constructor
  · rintro ⟨found, hfound, haddress, hpkt⟩
    have hmails := List.append_cancel_left (hnext.symm.trans hfound)
    obtain ⟨hmail, -⟩ := List.cons.inj hmails
    obtain rfl := (ConnectMail.mk.inj hmail).2.2
    exact ⟨haddress, hpkt⟩
  · rintro ⟨haddress, hpkt⟩
    exact ⟨resp, hnext, haddress, hpkt⟩

/-- A session that did not exist has no subscription in the tree once it is
registered. -/
theorem entryAt_of_new {labels labels' : List (Broker.Label π)} {broker next : Broker π}
    (hrun : Run.runs (Broker.step config) Broker.init labels = some broker)
    (hrun' : Run.runs (Broker.step config) Broker.init labels' = some next) {clientId : Bytes}
    {s : Nat} (hnew : broker.heap s = none) (hregistered : next.sessions clientId = some s)
    (htree : ∀ path info, entryAt next.topicsTree.root path clientId = some info →
      entryAt broker.topicsTree.root path clientId = some info) (path : List Bytes) :
    entryAt next.topicsTree.root path clientId = none := by
  cases hentry : entryAt next.topicsTree.root path clientId with
  | none => rfl
  | some info =>
      obtain ⟨subscribers, hsubscribers, hinfo⟩ := Option.bind_eq_some_iff.mp hentry
      obtain ⟨hsame, -⟩ := Broker.entries_registered config labels' hrun' hsubscribers hinfo
      obtain ⟨subscribers, hsubscribers, hinfo⟩ :=
        Option.bind_eq_some_iff.mp (htree path info hentry)
      obtain ⟨-, session, hsession, -⟩ :=
        Broker.entries_registered config labels hrun hsubscribers hinfo
      obtain rfl := Option.some.inj (hregistered.symm.trans hsame)
      rw [hnew] at hsession
      cases hsession

/-! ### The four cases -/

section Cases

variable {k s : Nat} {req : ConnectReq π} {requests : List (Request π)} {conn : ClientConn}
  {nextPacketId : UInt16} {session : SessionRecord π}

/-- The calls of sessions that a handler of the broker has logged are made. -/
def Followed (config : BrokerConfig π J) (nextPacketId : UInt16) (server : Server π)
    (broker : Broker π) (next : Server π) : Prop :=
  (broker.log.drop server.broker.log.length).foldlM (follow config nextPacketId)
    { server with broker := broker } = some next

theorem rejects_of_opened (hfollow : Followed config nextPacketId server
    ((server.broker.dequeue requests).makeConnectRespond k conn
      (.refused identifierRejected (by decide))) next) : Rejects server next k conn := by
  have hnext : some { server with
      broker := (server.broker.dequeue requests).makeConnectRespond k conn
        (.refused identifierRejected (by decide)) } = some next := by
    rw [← hfollow]
    simp [Broker.makeConnectRespond, Broker.dequeue]
  obtain rfl := Option.some.inj hnext
  exact ⟨⟨_, rfl, rfl, rfl⟩, rfl, rfl, rfl, rfl, rfl, rfl⟩

theorem resumes_of_closed (hfollow : Followed config nextPacketId server
    (((server.broker.dequeue requests).tmqSessionResume s session k req).accept k conn req s true)
      next) : Resumes server next k conn s session := by
  have hnext : some { server with
      broker := ((server.broker.dequeue requests).tmqSessionResume s session k req).accept k conn
        req s true } = some next := by
    rw [← hfollow]
    simp [Broker.tmqSessionResume, Broker.accept, Broker.makeConnectRespond, Broker.dequeue,
      Broker.record, Broker.setSession, follow]
  obtain rfl := Option.some.inj hnext
  exact ⟨⟨_, rfl, rfl, rfl⟩, ⟨_, Function.update_self .., rfl, rfl, rfl, rfl, rfl⟩, rfl, rfl, rfl⟩

/-- A new session was put into the table, and the answer says `present`. -/
theorem startsNew_iff {base : Broker π} {clean present : Bool} {windowSize : UInt8}
    (hnext : some { server with
      broker := base.putNewSession s k conn req clean present
      flows := Function.update server.flows s
        (some (tmqSessionNew false nextPacketId windowSize)) } = some next)
    (hmails : base.mqttConnectResponses = server.broker.mqttConnectResponses)
    (hfree : server.broker.heap s = none) (ackFlags : UInt8) :
    StartsNew server next k conn (req.clientId conn) clean ackFlags ↔
      ackFlags = (if present then 1 else 0) ∧
        ∀ path, entryAt next.broker.topicsTree.root path (req.clientId conn) = none := by
  obtain rfl := Option.some.inj hnext
  have hresponses : (base.putNewSession s k conn req clean present).mqttConnectResponses
      = server.broker.mqttConnectResponses ++ [⟨conn.ioContext, k, .accepted s present⟩] := by
    rw [← hmails]
    rfl
  constructor
  · rintro ⟨⟨found, -, hregistered, hanswers, -⟩, htree⟩
    obtain ⟨-, hpkt⟩ := (answers_respond hresponses).mp hanswers
    exact ⟨(ConnackPkt.mk.inj hpkt).1.symm, htree⟩
  · rintro ⟨rfl, htree⟩
    refine ⟨⟨s, hfree, Function.update_self .., ?_, ?_, ?_⟩, htree⟩
    · exact (answers_respond hresponses).mpr ⟨rfl, rfl⟩
    · exact ⟨_, Function.update_self .., rfl, rfl, rfl, rfl, rfl⟩
    · exact ⟨_, nextPacketId, windowSize, Function.update_self .., rfl⟩

theorem follow_startNew {clean : Bool} (hfollow : Followed config nextPacketId server
    ((server.broker.dequeue requests).putNewSession s k conn req clean false) next) :
    some { server with
      broker := (server.broker.dequeue requests).putNewSession s k conn req clean false
      flows := Function.update server.flows s
        (some (tmqSessionNew false nextPacketId config.inflightWindowSize)) } = some next := by
  rw [← hfollow]
  simp [Broker.putNewSession, Broker.tmqSessionNew, Broker.accept, Broker.makeConnectRespond,
    Broker.dequeue, Broker.record, Broker.setSession, follow]

theorem follow_restart {old : Nat} {topics : Topics π} (hfollow : Followed config nextPacketId server
    (((server.broker.dequeue requests).cleanSession old session topics).putNewSession s k conn req
      true true) next) :
    some { server with
      broker := ((server.broker.dequeue requests).cleanSession old session topics).putNewSession s k
        conn req true true
      flows := Function.update server.flows s
        (some (tmqSessionNew false nextPacketId config.inflightWindowSize)) } = some next := by
  rw [← hfollow]
  simp [Broker.putNewSession, Broker.tmqSessionNew, Broker.accept, Broker.makeConnectRespond,
    Broker.dequeue, Broker.record, Broker.setSession, Broker.cleanSession, follow]

end Cases

/-- A clean session in the place of a closed one is as new as any other. Only the
answer says that there was a session. -/
theorem startsNew_of_replaces {labels : List (Label π)}
    (hrun : Run.runs (step config) init labels = some server) {k : Nat} {req : ConnectReq π}
    {requests : List (Request π)} {conn : ClientConn} {run : Execution} {nextPacketId : UInt16}
    (hrequests : server.broker.requests = .connect k req :: requests)
    (hconn : server.broker.conns k = some conn)
    (hstep : server.step config (.broker (.execute run) nextPacketId) = some next)
    (hreplaces : ReplacesStored server.broker req conn) :
    StartsNew server next k conn (req.clientId conn) true 1 := by
  obtain ⟨brokerLabels, hbroker⟩ := runs_broker hrun
  obtain ⟨brokerLabels', hbroker'⟩ := runs_broker (Run.runs_concat hrun hstep)
  obtain ⟨hclean, s, session, hstored, hclosed⟩ := hreplaces
  obtain ⟨found, hfound, hstarted, hfollow⟩ := execute_connect hrequests hstep
  obtain rfl := Option.some.inj (hconn.symm.trans hfound)
  generalize hafter : next.broker = after at hstarted hfollow
  cases hstarted with
  | reject hregistered hsession hopened =>
      obtain ⟨-, rfl⟩ := Prod.mk.inj (Option.some.inj
        (hstored.symm.trans (Broker.storedSession_of hregistered hsession)))
      cases hopened.symm.trans hclosed
  | startNew habsent => cases hstored.symm.trans (Broker.storedSession_of_none habsent)
  | restart hregistered hsession hclosed' hclean' horder hremoved hfree =>
      have hnext := follow_restart hfollow
      refine (startsNew_iff hnext rfl hfree 1).mpr ⟨rfl, ?_⟩
      rw [← Option.some.inj hnext] at hbroker' ⊢
      refine entryAt_of_new hbroker hbroker' hfree (Function.update_self ..) ?_
      intro path info hentry
      have hentry := (entryAt_removeAll hremoved path (req.clientId conn)).symm.trans hentry
      split at hentry
      · cases hentry
      · exact hentry
  | resume _ _ _ hkeep => cases hkeep.symm.trans hclean

/-- In every run the assertion of `start_session` holds, and a CONNECT is
answered by what the table holds just when it does not ask for a clean session
in the place of a closed one. -/
theorem establishes_iff (config : BrokerConfig π J) (labels : List (Label π)) (server : Server π)
    (hrun : Run.runs (step config) init labels = some server) :
    server.broker.StoredKept ∧
      ∀ k req requests conn run nextPacketId next,
        server.broker.requests = .connect k req :: requests → server.broker.conns k = some conn →
        server.step config (.broker (.execute run) nextPacketId) = some next →
        (Establishes server next k req conn ↔ ¬ ReplacesStored server.broker req conn) := by
  obtain ⟨brokerLabels, hbroker⟩ := runs_broker hrun
  refine ⟨Broker.storedKept_runs hbroker, ?_⟩
  intro k req requests conn run nextPacketId next hrequests hconn hstep
  obtain ⟨brokerLabels', hbroker'⟩ := runs_broker (Run.runs_concat hrun hstep)
  obtain ⟨found, hfound, hstarted, hfollow⟩ := execute_connect hrequests hstep
  obtain rfl := Option.some.inj (hconn.symm.trans hfound)
  generalize hafter : next.broker = after at hstarted hfollow
  cases hstarted with
  | reject hregistered hsession hopened =>
      have hstored := Broker.storedSession_of hregistered hsession
      refine iff_of_true ?_ ?_
      · rw [Establishes, show server.broker.storedSession _ = _ from hstored]
        simp only [hopened, if_true]
        exact rejects_of_opened hfollow
      · rintro ⟨-, s', session', hstored', hclosed⟩
        obtain ⟨-, rfl⟩ := Prod.mk.inj (Option.some.inj (hstored.symm.trans hstored'))
        rw [hopened] at hclosed
        cases hclosed
  | startNew habsent hfree =>
      have hstored := Broker.storedSession_of_none habsent
      have hnext := follow_startNew hfollow
      refine iff_of_true ?_ ?_
      · rw [Establishes, show server.broker.storedSession _ = _ from hstored]
        refine (startsNew_iff hnext rfl hfree 0).mpr ⟨rfl, ?_⟩
        rw [← Option.some.inj hnext] at hbroker' ⊢
        exact entryAt_of_new hbroker hbroker' hfree (Function.update_self ..) fun _ _ => id
      · rintro ⟨-, s', session', hstored', -⟩
        cases hstored.symm.trans hstored'
  | restart hregistered hsession hclosed hclean horder hremoved hfree =>
      have hstored := Broker.storedSession_of hregistered hsession
      have hnext := follow_restart hfollow
      refine iff_of_false ?_ ?_
      · rw [Establishes, show server.broker.storedSession _ = _ from hstored]
        simp only [hclosed, reduceCtorEq, if_false, hclean, Bool.true_eq_false]
        intro hstarts
        obtain ⟨hpresent, -⟩ := (startsNew_iff hnext rfl hfree 0).mp hstarts
        cases hpresent
      · exact not_not.mpr ⟨hclean, _, _, hstored, hclosed⟩
  | resume hregistered hsession hclosed hkeep =>
      have hstored := Broker.storedSession_of hregistered hsession
      refine iff_of_true ?_ ?_
      · rw [Establishes, show server.broker.storedSession _ = _ from hstored]
        simp only [hclosed, reduceCtorEq, if_false, hkeep, if_true]
        exact resumes_of_closed hfollow
      · rintro ⟨hclean, -⟩
        rw [hkeep] at hclean
        cases hclean

/-- A client connects, disconnects, and connects again on another connection. -/
def connectAgain (cleanSession : Bool) : List (Label Bytes) :=
  [.broker (.accept 0 []) 0, .broker (.connect 0 (connectFrom [65] false) false) 0,
    .broker (.execute (sampleExecution 7)) 0, .broker (.connectComplete 0) 0,
    .broker (.disconnect 0) 0, .broker (.execute (sampleExecution 0)) 0, .broker (.accept 1 []) 0,
    .broker (.connect 1 (connectFrom [65] cleanSession) false) 0]

theorem establishes_resume :
    ∃ server next conn, Run.runs (step sampleConfig) init (connectAgain false) = some server ∧
      server.step sampleConfig (.broker (.execute (sampleExecution 8)) 0) = some next ∧
      server.broker.conns 1 = some conn ∧
      Establishes server next 1 (connectFrom [65] false) conn := by
  refine ⟨_, _, _, rfl, rfl, rfl, ?_⟩
  refine ((establishes_iff sampleConfig (connectAgain false) _ rfl).2 1 (connectFrom [65] false) []
    _ (sampleExecution 8) 0 _ rfl rfl rfl).mpr ?_
  rintro ⟨hclean, -⟩
  cases hclean

/-- A new session in the place of the one that was left is announced as
present. -/
theorem not_establishes_clean :
    ¬ ∀ server next conn, Run.runs (step sampleConfig) init (connectAgain true) = some server →
      server.step sampleConfig (.broker (.execute (sampleExecution 8)) 0) = some next →
      server.broker.conns 1 = some conn →
      Establishes server next 1 (connectFrom [65] true) conn := by
  intro hall
  have hestablishes := hall _ _ _ rfl rfl rfl
  obtain ⟨⟨s, -, -, ⟨resp, hmails, -, hpkt⟩, -⟩, -⟩ := hestablishes
  have hanswers : [⟨1, connectionAccepted⟩] = [resp.connack] :=
    congrArg (List.map fun mail : ConnectMail => mail.resp.connack) hmails
  rw [hpkt] at hanswers
  revert hanswers
  decide

end Server

end TinyMqtt
