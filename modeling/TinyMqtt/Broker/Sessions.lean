import TinyMqtt.Broker.Coherence

/-!
Safety of the session table over whole runs of the broker: whether an open
session can lose everyone who would close it, whether a close request can name
no session, and whether a session can leave its IO thread. The code keeps none
of the three in all runs, and all of them in the runs that avoid one situation
each.
-/

namespace TinyMqtt

variable {π : Type}

/-! ### Open sessions are held -/

/-- Every open session of the table is held. -/
def Owned (conns : Nat → Option ClientConn) (heap : Nat → Option (SessionRecord π))
    (sessions : Bytes → Option Nat) (responses : List ConnectMail) (requests : List (Request π)) :
    Prop :=
  ∀ clientId s session, sessions clientId = some s → heap s = some session →
    session.state = .opened →
    s ∈ pendingSessions responses requests ∨ ∃ k, Attached conns k s

namespace Owned

variable {conns : Nat → Option ClientConn} {heap : Nat → Option (SessionRecord π)}
  {sessions : Bytes → Option Nat} {responses responses' : List ConnectMail}
  {requests requests' : List (Request π)} {k s : Nat}

theorem mono (h : Owned conns heap sessions responses requests)
    (hsub : ∀ s ∈ pendingSessions responses requests, s ∈ pendingSessions responses' requests') :
    Owned conns heap sessions responses' requests' := by
  intro clientId s session hregistered hsession hopened
  rcases h clientId s session hregistered hsession hopened with hpending | hattached
  · exact .inl (hsub s hpending)
  · exact .inr hattached

theorem attached_of_ne {conn : ClientConn} {k' : Nat} (hattached : Attached conns k' s)
    (hk : k' ≠ k) : Attached (Function.update conns k (some conn)) k' s := by
  obtain ⟨found, hfound, hin, hup⟩ := hattached
  exact ⟨found, by rwa [Function.update_of_ne hk], hin, hup⟩

/-- A connection changes, and what it held is pending. -/
theorem setConn (h : Owned conns heap sessions responses requests) {conn : ClientConn}
    (hsub : ∀ s ∈ pendingSessions responses requests, s ∈ pendingSessions responses' requests')
    (hleft : ∀ s, Attached conns k s → s ∈ pendingSessions responses' requests') :
    Owned (Function.update conns k (some conn)) heap sessions responses' requests' := by
  intro clientId s session hregistered hsession hopened
  rcases h clientId s session hregistered hsession hopened with hpending | ⟨k', hattached⟩
  · exact .inl (hsub s hpending)
  · by_cases hk : k' = k
    · subst hk
      exact .inl (hleft s hattached)
    · exact .inr ⟨k', attached_of_ne hattached hk⟩

theorem setFields (h : Owned conns heap sessions responses requests)
    {session changed : SessionRecord π} (hsession : heap s = some session)
    (hstate : changed.state = .opened → session.state = .opened)
    (hsub : ∀ s ∈ pendingSessions responses requests, s ∈ pendingSessions responses' requests') :
    Owned conns (Function.update heap s (some changed)) sessions responses' requests' := by
  intro clientId s' found hregistered hfound hopened
  have hbefore : ∃ before, heap s' = some before ∧ before.state = .opened := by
    rcases update_cases hfound with ⟨rfl, rfl⟩ | ⟨-, hbefore⟩
    · exact ⟨session, hsession, hstate hopened⟩
    · exact ⟨found, hbefore, hopened⟩
  obtain ⟨before, hbefore, hopened⟩ := hbefore
  rcases h clientId s' before hregistered hbefore hopened with hpending | hattached
  · exact .inl (hsub s' hpending)
  · exact .inr hattached

/-- A session changes, and it is closed or held afterwards. -/
theorem setSession (h : Owned conns heap sessions responses requests) {changed : SessionRecord π}
    {sessions' : Bytes → Option Nat}
    (htable : ∀ clientId s', sessions' clientId = some s' → s' = s ∨ sessions clientId = some s')
    (hsub : ∀ s' ∈ pendingSessions responses requests, s' ≠ s →
      s' ∈ pendingSessions responses' requests')
    (hheld : changed.state = .opened →
      s ∈ pendingSessions responses' requests' ∨ ∃ k, Attached conns k s) :
    Owned conns (Function.update heap s (some changed)) sessions' responses' requests' := by
  intro clientId s' session hregistered hsession hopened
  rcases update_cases hsession with ⟨rfl, rfl⟩ | ⟨hs, hbefore⟩
  · exact hheld hopened
  · have hregistered := (htable clientId s' hregistered).resolve_left hs
    rcases h clientId s' session hregistered hbefore hopened with hpending | hattached
    · exact .inl (hsub s' hpending hs)
    · exact .inr hattached

end Owned

theorem mem_pending_post {responses : List ConnectMail} {requests : List (Request π)}
    {request : Request π} {s : Nat} (hmem : s ∈ pendingSessions responses requests) :
    s ∈ pendingSessions responses (requests ++ [request]) := by
  rw [pendingSessions_post]
  exact List.mem_append_left _ hmem

theorem mem_pending_postClose {responses : List ConnectMail} {requests : List (Request π)}
    (op : SessionReqOp) (s : Nat) :
    s ∈ pendingSessions responses (requests ++ [.close op (some s)]) := by
  rw [pendingSessions_post]
  exact List.mem_append_right _ (List.mem_singleton.mpr rfl)

theorem mem_pending_respond {responses : List ConnectMail} {requests : List (Request π)}
    {mail : ConnectMail} {s : Nat} (hmem : s ∈ pendingSessions responses requests) :
    s ∈ pendingSessions (responses ++ [mail]) requests := by
  rw [(pendingSessions_respond responses requests mail).mem_iff]
  exact List.mem_append_right _ hmem

theorem mem_pending_accepted {responses : List ConnectMail} {requests : List (Request π)}
    (ioContext k s : Nat) (sessionPresent : Bool) :
    s ∈ pendingSessions (responses ++ [⟨ioContext, k, .accepted s sessionPresent⟩]) requests := by
  rw [(pendingSessions_respond responses requests _).mem_iff]
  exact List.mem_append_left _ (List.mem_singleton.mpr rfl)

theorem mem_pending_dequeue {responses : List ConnectMail} {requests : List (Request π)}
    {request : Request π} {s : Nat} (hmem : s ∈ pendingSessions responses (request :: requests)) :
    request.closes = some s ∨ s ∈ pendingSessions responses requests := by
  rw [(pendingSessions_dequeue responses requests request).mem_iff, List.mem_append,
    Option.mem_toList] at hmem
  exact hmem

theorem mem_pending_take {before after : List ConnectMail} {requests : List (Request π)}
    {mail : ConnectMail} {s : Nat}
    (hmem : s ∈ pendingSessions (before ++ mail :: after) requests) :
    mail.resp.address = some s ∨ s ∈ pendingSessions (before ++ after) requests := by
  rw [(pendingSessions_take before after requests mail).mem_iff, List.mem_append,
    Option.mem_toList] at hmem
  exact hmem

theorem update_eq_some {sessions : Bytes → Option Nat} {clientId client : Bytes} {s s' : Nat}
    (htable : Function.update sessions clientId (some s) client = some s') :
    s' = s ∨ sessions client = some s' := by
  rcases update_cases htable with ⟨-, hs⟩ | ⟨-, hbefore⟩
  · exact .inl hs
  · exact .inr hbefore

theorem not_attached_of_idle {conns : Nat → Option ClientConn} {k : Nat} {conn : ClientConn}
    (hconn : conns k = some conn) (hidle : conn.connState ≠ .inSession) (s : Nat) :
    ¬ Attached conns k s := by
  rintro ⟨found, hfound, hin, -⟩
  obtain rfl := Option.some.inj (hconn.symm.trans hfound)
  exact hidle hin

theorem not_attached_of_broker {conns : Nat → Option ClientConn} {k : Nat} {conn : ClientConn}
    (hconn : conns k = some conn) (hup : conn.upstream = .broker) (s : Nat) :
    ¬ Attached conns k s := by
  rintro ⟨found, hfound, -, hup'⟩
  obtain rfl := Option.some.inj (hconn.symm.trans hfound)
  rw [hup] at hup'
  cases hup'

theorem attached_eq {conns : Nat → Option ClientConn} {k s s' : Nat} {conn : ClientConn}
    (hconn : conns k = some conn) (hup : conn.upstream = .session s)
    (hattached : Attached conns k s') : s' = s := by
  obtain ⟨found, hfound, -, hup'⟩ := hattached
  obtain rfl := Option.some.inj (hconn.symm.trans hfound)
  exact Upstream.session.inj (hup'.symm.trans hup)

namespace Owned

variable {conns : Nat → Option ClientConn} {heap : Nat → Option (SessionRecord π)}
  {sessions sessions' : Bytes → Option Nat} {responses before after : List ConnectMail}
  {requests : List (Request π)} {request : Request π} {k s : Nat}

/-- A connection that is in no session changes. -/
theorem setOutside (h : Owned conns heap sessions responses requests)
    (houtside : ∀ s, ¬ Attached conns k s) (conn : ClientConn) :
    Owned (Function.update conns k (some conn)) heap sessions responses requests :=
  h.setConn (fun _ hmem => hmem) fun s hattached => (houtside s hattached).elim

/-- A connection leaves its session, and asks for it to be closed. -/
theorem leave (h : Owned conns heap sessions responses requests) {conn changed : ClientConn}
    (hconn : conns k = some conn) (hup : conn.upstream = .session s) (op : SessionReqOp) :
    Owned (Function.update conns k (some changed)) heap sessions responses
      (requests ++ [.close op (some s)]) := by
  refine h.setConn (fun _ => mem_pending_post) ?_
  intro s' hattached
  rw [attached_eq hconn hup hattached]
  exact mem_pending_postClose op s

/-- A connection in no session takes the session of an answer. -/
theorem enter {ioContext : Nat} {sessionPresent : Bool} {conn changed : ClientConn}
    (h : Owned conns heap sessions (before ++ ⟨ioContext, k, .accepted s sessionPresent⟩ :: after)
      requests)
    (hconn : conns k = some conn) (hidle : conn.connState ≠ .inSession)
    (hin : changed.connState = .inSession) (hup : changed.upstream = .session s) :
    Owned (Function.update conns k (some changed)) heap sessions (before ++ after) requests := by
  intro clientId s' session hregistered hsession hopened
  rcases h clientId s' session hregistered hsession hopened with hmem | ⟨k', hattached⟩
  · rcases mem_pending_take hmem with haddress | hrest
    · obtain rfl := Option.some.inj haddress
      exact .inr ⟨k, changed, Function.update_self .., hin, hup⟩
    · exact .inl hrest
  · refine .inr ⟨k', attached_of_ne hattached ?_⟩
    rintro rfl
    exact not_attached_of_idle hconn hidle s' hattached

/-- An answer without a session is handled. -/
theorem refused {mail : ConnectMail} (h : Owned conns heap sessions (before ++ mail :: after) requests)
    (haddress : mail.resp.address = none) :
    Owned conns heap sessions (before ++ after) requests := by
  refine h.mono fun s hmem => (mem_pending_take hmem).resolve_left ?_
  rw [haddress]
  exact nofun

/-- A request that closes no session is handled. -/
theorem dequeue (h : Owned conns heap sessions responses (request :: requests))
    (hcloses : request.closes = none) : Owned conns heap sessions responses requests := by
  refine h.mono fun s hmem => (mem_pending_dequeue hmem).resolve_left ?_
  rw [hcloses]
  exact nofun

/-- A request that closes this session or none is handled, and the session is
closed. -/
theorem close (h : Owned conns heap sessions responses (request :: requests))
    (hcloses : ∀ s', request.closes = some s' → s' = s) {changed : SessionRecord π}
    (hclosed : changed.state = .closed)
    (htable : ∀ clientId s', sessions' clientId = some s' → sessions clientId = some s') :
    Owned conns (Function.update heap s (some changed)) sessions' responses requests := by
  refine h.setSession (fun clientId s' hregistered => .inr (htable clientId s' hregistered)) ?_ ?_
  · intro s' hmem hother
    exact (mem_pending_dequeue hmem).resolve_left fun hthis => hother (hcloses s' hthis)
  · intro hopened
    cases hclosed.symm.trans hopened

/-- A session is put into the table and into an answer. -/
theorem accept (h : Owned conns heap sessions responses requests) (changed : SessionRecord π)
    (htable : ∀ clientId s', sessions' clientId = some s' → s' = s ∨ sessions clientId = some s')
    (ioContext : Nat) (sessionPresent : Bool) :
    Owned conns (Function.update heap s (some changed)) sessions'
      (responses ++ [⟨ioContext, k, .accepted s sessionPresent⟩]) requests := by
  refine h.setSession htable ?_ ?_
  · intro s' hmem _
    exact mem_pending_respond hmem
  · intro _
    exact .inl (mem_pending_accepted ioContext k s sessionPresent)

end Owned

namespace Broker

variable {J : Type} [TmqString π] {config : BrokerConfig π J} {broker next : Broker π}
  {label : Label π}

def AllHeld (broker : Broker π) : Prop :=
  Owned broker.conns broker.heap broker.sessions broker.mqttConnectResponses broker.requests

/-- An accepted answer is not handled while its connection is already in a
session. -/
def EntersFromOutside (broker : Broker π) : Label π → Prop
  | .connectComplete ioContext => ∀ mail rest conn,
      Mailbox.take? ConnectMail.ioContext ioContext broker.mqttConnectResponses
        = some (mail, rest) →
      broker.conns mail.conn = some conn → mail.resp.address ≠ none → conn.state = .connected →
      conn.connState ≠ .inSession
  | _ => True

omit [TmqString π] in
theorem entersFromOutside_connectComplete (ioContext : Nat) :
    broker.EntersFromOutside (.connectComplete ioContext) ↔
      ∀ taken ∈ Mailbox.take? ConnectMail.ioContext ioContext broker.mqttConnectResponses,
        ∀ conn ∈ broker.conns taken.1.conn, taken.1.resp.address ≠ none → conn.state = .connected →
          conn.connState ≠ .inSession :=
  ⟨fun h taken htake conn => h taken.1 taken.2 conn htake,
    fun h mail rest conn htake => h (mail, rest) htake conn⟩

instance EntersFromOutside.decidable (broker : Broker π) :
    (label : Label π) → Decidable (broker.EntersFromOutside label)
  | .connectComplete ioContext =>
      decidable_of_iff _ (entersFromOutside_connectComplete ioContext).symm
  | .accept _ _ | .connect _ _ _ | .disconnect _ | .subscribe _ _ | .unsubscribe _ _ | .packet _
  | .close _ | .writeError _ | .validate _ _ | .execute _ | .publish _ | .broadcast _ =>
      isTrue trivial

theorem allHeld_change (h : broker.AllHeld) (hallowed : broker.EntersFromOutside label)
    (hchange : Change config broker label next) : next.AllHeld := by
  cases hchange with
  | unchanged => exact h
  | accept n hnew =>
      refine h.setOutside ?_ _
      rintro s ⟨conn, hconn, -⟩
      cases hnew.symm.trans hconn
  | closeIdle label hconn hopen hidle => exact h.setOutside (not_attached_of_idle hconn hidle) _
  | closeAttached label draining hconn hopen hin hup => exact h.leave hconn hup .sessionForceClose
  | stop label hconn hidle hclosed =>
      exact h.setOutside (not_attached_of_idle hconn (by rw [hidle]; decide)) _
  | connectPool hconn hup => exact h.setOutside (not_attached_of_broker hconn hup) _
  | connectPost hconn hup =>
      exact (h.setOutside (not_attached_of_broker hconn hup) _).mono fun _ => mem_pending_post
  | connectRefuse hconn hup => exact h.setOutside (not_attached_of_broker hconn hup) _
  | connectLose hconn hup => exact h.setOutside (not_attached_of_broker hconn hup) _
  | disconnectIdle hconn hreadable hstarting hgate =>
      exact h.setOutside (not_attached_of_idle hconn hstarting) _
  | disconnectAttached hconn hreadable hin hup => exact h.leave hconn hup .sessionDisconnect
  | subscribe hconn hgate hup hsession =>
      refine h.setFields hsession ?_ fun _ => mem_pending_post
      exact id
  | unsubscribe hconn hgate hup hsession =>
      refine h.setFields hsession ?_ fun _ => mem_pending_post
      exact id
  | validate hpool => exact h.mono fun _ => mem_pending_post
  | invalidate hpool hconn => exact h.mono fun _ => mem_pending_respond
  | @answerClose ioContext mail conn before after hmails htake hconn hclose =>
      rw [AllHeld, hmails] at h
      refine h.mono ?_
      intro s hmem
      rcases mem_pending_take hmem with haddress | hrest
      · rw [haddress]
        exact mem_pending_postClose _ s
      · exact mem_pending_post hrest
  | @answerEnter ioContext k s sessionPresent conn before after hmails htake hconn hconnected
      hpending =>
      rw [AllHeld, hmails] at h
      have hidle := hallowed _ _ conn htake hconn (Option.some_ne_none s) hconnected
      exact h.enter hconn hidle rfl rfl
  | answerRefuse hmails hconn hconnected =>
      rw [AllHeld, hmails] at h
      exact h.refused rfl
  | reject hrequests =>
      rw [AllHeld, hrequests] at h
      exact (h.dequeue rfl).mono fun _ => mem_pending_respond
  | startNew hrequests =>
      rw [AllHeld, hrequests] at h
      exact (h.dequeue rfl).accept _ (fun _ _ => update_eq_some) _ _
  | @restart run k s req requests conn session topics hrequests =>
      rw [AllHeld, hrequests] at h
      have hcleaned : Owned broker.conns
          (Function.update broker.heap s
            (some { session with state := .closed, released := true }))
          (Function.update broker.sessions session.clientId none) broker.mqttConnectResponses
          requests :=
        h.close nofun rfl fun _ _ htable => (eq_some_of_update_none htable).2
      exact hcleaned.accept _ (fun _ _ => update_eq_some) _ _
  | resume hrequests =>
      rw [AllHeld, hrequests] at h
      exact (h.dequeue rfl).accept _ (fun _ _ => .inr) _ _
  | closeKeep hrequests hsession =>
      rw [AllHeld, hrequests] at h
      exact h.close (fun _ hthis => (Option.some.inj hthis).symm) rfl fun _ _ => id
  | closeClean hrequests hsession =>
      rw [AllHeld, hrequests] at h
      exact h.close (fun _ hthis => (Option.some.inj hthis).symm) rfl
        fun _ _ htable => (eq_some_of_update_none htable).2
  | dropTopics hrequests htopic =>
      rw [AllHeld, hrequests] at h
      refine h.dequeue ?_
      rcases htopic with ⟨pkt, rfl⟩ | ⟨pkt, rfl⟩ <;> rfl
  | addTopics hrequests =>
      rw [AllHeld, hrequests] at h
      exact h.dequeue rfl
  | removeTopics hrequests =>
      rw [AllHeld, hrequests] at h
      exact h.dequeue rfl
  | publish => exact h
  | broadcast => exact h

/-- Every open session of the table is carried by an answer, named by a close
request, or the session of a connection. -/
def NoOrphan (broker : Broker π) : Prop :=
  ∀ clientId s session, broker.sessions clientId = some s → broker.heap s = some session →
    session.state = .opened →
    (∃ mail ∈ broker.mqttConnectResponses, mail.resp.address = some s) ∨
      (∃ op, .close op (some s) ∈ broker.requests) ∨ ∃ k, Attached broker.conns k s

omit [TmqString π] in
theorem AllHeld.noOrphan (h : broker.AllHeld) : broker.NoOrphan := by
  intro clientId s session hregistered hsession hopened
  rcases h clientId s session hregistered hsession hopened with hpending | hattached
  · rcases List.mem_append.mp hpending with hresponse | hrequest
    · obtain ⟨mail, hmail, haddress⟩ := List.mem_filterMap.mp hresponse
      exact .inl ⟨mail, hmail, haddress⟩
    · obtain ⟨request, hmem, hcloses⟩ := List.mem_filterMap.mp hrequest
      cases request with
      | close op session =>
          obtain rfl := hcloses
          exact .inr (.inl ⟨op, hmem⟩)
      | _ => cases hcloses
  · exact .inr (.inr hattached)

/-- In every run in which accepted answers meet a connection that is not yet
in a session, no open session is ever left without a holder. -/
theorem noOrphan_of_entersFromOutside (config : BrokerConfig π J) (labels : List (Label π))
    (hlabels : Run.Admissible EntersFromOutside (step config) init labels) {broker : Broker π}
    (hrun : Run.runs (step config) init labels = some broker) : broker.NoOrphan := by
  apply AllHeld.noOrphan
  refine Run.runs_preserves ?_ ?_ hlabels hrun
  · intro state label next h hallowed hstep
    exact allHeld_change h hallowed (step_change hstep)
  · intro clientId s session hregistered
    cases hregistered

end Broker

/-! Small runs. -/

def sampleConfig : BrokerConfig Bytes Unit where
  auth := ⟨true, false, fun _ => false⟩
  ioThreads := 2
  inflightWindowSize := 16
  aclDenies := fun _ _ _ => false
  cJsonParse := fun _ => none

def connectFrom (clientId : Bytes) (cleanSession : Bool) : ConnectReq Bytes :=
  ⟨⟨if cleanSession then 2 else 0, 60, some clientId, none, none, none, none⟩, []⟩

/-- An execution that needs memory for a session and nothing else. -/
def sampleExecution (malloc : Nat) : Execution := ⟨malloc, [], 0, fun _ => none⟩

namespace Broker

def oneConnect : List (Label Bytes) :=
  [.accept 0 [], .connect 0 (connectFrom [65] true) false, .execute (sampleExecution 7),
    .connectComplete 0]

/-- Two clients connect. The first one was there before, has left, and finds its
session on another connection. -/
def twoClients : List (Label Bytes) :=
  [.accept 0 [], .connect 0 (connectFrom [65] false) false, .execute (sampleExecution 7),
    .connectComplete 0, .disconnect 0, .execute (sampleExecution 8), .accept 1 [],
    .connect 1 (connectFrom [66] true) false, .execute (sampleExecution 8), .connectComplete 1,
    .accept 2 [], .connect 2 (connectFrom [65] false) false, .execute (sampleExecution 9),
    .connectComplete 0]

theorem noOrphan_twoClients :
    ∃ broker, Run.runs (step sampleConfig) init twoClients = some broker ∧ broker.NoOrphan ∧
      Attached broker.conns 2 7 ∧ Attached broker.conns 1 8 := by
  have hlabels : Run.Admissible EntersFromOutside (step sampleConfig) init twoClients := by
    decide +kernel
  refine ⟨_, rfl, ?_, ⟨_, rfl, rfl, rfl⟩, ⟨_, rfl, rfl, rfl⟩⟩
  exact noOrphan_of_entersFromOutside sampleConfig twoClients hlabels rfl

def twoConnects : List (Label Bytes) :=
  [.accept 0 [], .connect 0 (connectFrom [65] true) false,
    .connect 0 (connectFrom [66] true) false, .execute (sampleExecution 7),
    .execute (sampleExecution 8), .connectComplete 0, .connectComplete 0]

/-- The second session takes the connection, and the first one stays open
with nobody to close it. -/
theorem not_noOrphan_twoConnects :
    ∃ broker, Run.runs (step sampleConfig) init twoConnects = some broker ∧
      ¬ broker.NoOrphan := by
  refine ⟨_, rfl, ?_⟩
  intro h
  have hcoherent := @coherent_runs _ _ _ sampleConfig _ twoConnects rfl
  rcases h [65] 7 _ rfl rfl rfl with ⟨mail, hmail, -⟩ | ⟨op, hop⟩ | ⟨k, hattached⟩
  · cases hmail
  · cases hop
  · -- the session is on connection 0, which points to the other session
    obtain ⟨⟨session, hsession, -, rfl, -⟩, -⟩ := hcoherent.attached k 7 hattached
    obtain rfl := Option.some.inj hsession
    obtain ⟨conn, hconn, -, hup⟩ := hattached
    obtain rfl := Option.some.inj hconn
    cases hup

end Broker

/-! ### Close requests name a session -/

/-- No close request that waits or was ever posted has a null session. -/
structure ClosesNamed (requests : List (Request π)) (log : List (BrokerEvent π)) : Prop where
  waiting : ∀ op session, .close op session ∈ requests → session ≠ none
  posted : ∀ k op session, .closeRequest k op session ∈ log → session ≠ none

namespace ClosesNamed

variable {requests : List (Request π)} {log : List (BrokerEvent π)}

theorem append (h : ClosesNamed requests log) {events : List (BrokerEvent π)}
    (hevents : ∀ event ∈ events, ∀ k op session, event ≠ .closeRequest k op session) :
    ClosesNamed requests (log ++ events) := by
  refine ⟨h.waiting, ?_⟩
  intro k op session hmem
  rcases List.mem_append.mp hmem with hold | hnew
  · exact h.posted k op session hold
  · exact (hevents _ hnew k op session rfl).elim

theorem record (h : ClosesNamed requests log) {event : BrokerEvent π}
    (hevent : ∀ k op session, event ≠ .closeRequest k op session) :
    ClosesNamed requests (log ++ [event]) := by
  apply h.append
  intro other hother
  rw [List.mem_singleton.mp hother]
  exact hevent

theorem post (h : ClosesNamed requests log) {request : Request π}
    (hrequest : ∀ op session, request = .close op session → session ≠ none) :
    ClosesNamed (requests ++ [request]) log := by
  refine ⟨?_, h.posted⟩
  intro op session hmem
  rcases List.mem_append.mp hmem with hold | hnew
  · exact h.waiting op session hold
  · exact hrequest op session (List.mem_singleton.mp hnew).symm

theorem postClose (h : ClosesNamed requests log) (k : Nat) (op : SessionReqOp)
    {session : Option Nat} (hsession : session ≠ none) :
    ClosesNamed (requests ++ [.close op session]) (log ++ [.closeRequest k op session]) := by
  refine ⟨(h.post ?_).waiting, ?_⟩
  · intro op' session' hsame
    obtain ⟨-, rfl⟩ := Request.close.inj hsame
    exact hsession
  · intro k' op' session' hmem
    rcases List.mem_append.mp hmem with hold | hnew
    · exact h.posted k' op' session' hold
    · obtain ⟨-, -, rfl⟩ := BrokerEvent.closeRequest.inj (List.mem_singleton.mp hnew)
      exact hsession

theorem dequeue {request : Request π} (h : ClosesNamed (request :: requests) log) :
    ClosesNamed requests log :=
  ⟨fun op session hmem => h.waiting op session (List.mem_cons_of_mem request hmem), h.posted⟩

end ClosesNamed

namespace Broker

variable {J : Type} [TmqString π] {config : BrokerConfig π J} {broker next : Broker π}
  {label : Label π}

def RefusesConnected (broker : Broker π) : Label π → Prop
  | .connectComplete ioContext => ∀ mail rest conn,
      Mailbox.take? ConnectMail.ioContext ioContext broker.mqttConnectResponses
        = some (mail, rest) →
      broker.conns mail.conn = some conn → mail.resp.address = none → conn.state = .connected
  | _ => True

omit [TmqString π] in
theorem share_ne_closeRequest (shares : List (Nat × Nat)) :
    ∀ event ∈ shares.map (fun shared => (.share shared.1 shared.2 : BrokerEvent π)),
      ∀ k op session, event ≠ .closeRequest k op session := by
  intro event hevent
  obtain ⟨shared, -, rfl⟩ := List.mem_map.mp hevent
  exact nofun

theorem PublishesWill.ne_closeRequest {session : SessionRecord π} {op : SessionReqOp}
    {topics : Topics π} {tasks : List (BroadcastTask π)} {events : List (BrokerEvent π)}
    (hwill : PublishesWill config broker session op topics tasks events) :
    ∀ event ∈ events, ∀ k op session, event ≠ .closeRequest k op session := by
  cases hwill with
  | silent => exact nofun
  | publish will req hop hstored hmessage hqueues =>
      intro event hevent
      rcases List.mem_cons.mp hevent with rfl | hshare
      · exact nofun
      · exact share_ne_closeRequest _ event hshare

theorem closesNamed_change (h : ClosesNamed broker.requests broker.log)
    (hallowed : broker.RefusesConnected label) (hchange : Change config broker label next) :
    ClosesNamed next.requests next.log := by
  cases hchange with
  | unchanged => exact h
  | accept => exact h
  | closeIdle => exact h.record (by nofun)
  | closeAttached => exact (h.record (by nofun)).postClose _ _ (by nofun)
  | stop => exact h
  | connectPool => exact h.record (by nofun)
  | connectPost => exact (h.record (by nofun)).post (by nofun)
  | connectRefuse => exact (h.record (by nofun)).record (by nofun)
  | connectLose => exact ((h.record (by nofun)).record (by nofun)).record (by nofun)
  | disconnectIdle => exact h.record (by nofun)
  | disconnectAttached => exact (h.record (by nofun)).postClose _ _ (by nofun)
  | subscribe => exact h.post (by nofun)
  | unsubscribe => exact h.post (by nofun)
  | validate => exact h.post (by nofun)
  | invalidate => exact h
  | @answerClose ioContext mail conn before after hmails htake hconn hclose =>
      apply h.postClose
      intro hnull
      rcases hclose with ⟨haddress, -⟩ | hclosed
      · exact haddress hnull
      · exact hclosed (hallowed mail _ conn htake hconn hnull)
  | answerEnter => exact (h.record (by nofun)).record (by nofun)
  | answerRefuse => exact h.record (by nofun)
  | reject hrequests =>
      rw [hrequests] at h
      exact h.dequeue
  | startNew hrequests =>
      rw [hrequests] at h
      exact ((h.dequeue.record (by nofun)).record (by nofun)).record (by nofun)
  | restart hrequests =>
      rw [hrequests] at h
      exact (((h.dequeue.record (by nofun)).record (by nofun)).record (by nofun)).record (by nofun)
  | resume hrequests =>
      rw [hrequests] at h
      exact (h.dequeue.record (by nofun)).record (by nofun)
  | closeKeep hrequests hsession hkeep hwill =>
      rw [hrequests] at h
      exact ((h.dequeue.append hwill.ne_closeRequest).record (by nofun)).record (by nofun)
  | closeClean hrequests hsession hclean hwill =>
      rw [hrequests] at h
      exact ((h.dequeue.append hwill.ne_closeRequest).record (by nofun)).record (by nofun)
  | dropTopics hrequests =>
      rw [hrequests] at h
      exact h.dequeue
  | addTopics hrequests =>
      rw [hrequests] at h
      refine (h.dequeue.record ?_).append ?_
      · exact nofun
      · intro event hevent
        obtain ⟨message, -, rfl⟩ := List.mem_map.mp hevent
        exact nofun
  | removeTopics hrequests =>
      rw [hrequests] at h
      exact h.dequeue.record (by nofun)
  | publish => exact h.append (share_ne_closeRequest _)
  | broadcast =>
      apply h.append
      intro event hevent
      obtain ⟨shared, -, rfl⟩ := List.mem_map.mp hevent
      exact nofun

/-- Every close request that was posted names a session, and those that wait
find it in memory. -/
def ClosesName (broker : Broker π) : Prop :=
  (∀ k op session, .closeRequest k op session ∈ broker.log → session ≠ none) ∧
    ∀ op session, .close op session ∈ broker.requests →
      ∃ s, session = some s ∧ broker.heap s ≠ none

/-- In every run in which a refused client is still connected when its answer
is handled, no close request has a null session. -/
theorem closesName_of_refusesConnected (config : BrokerConfig π J) (labels : List (Label π))
    (hlabels : Run.Admissible RefusesConnected (step config) init labels) {broker : Broker π}
    (hrun : Run.runs (step config) init labels = some broker) : broker.ClosesName := by
  have hnamed : ClosesNamed broker.requests broker.log := by
    refine @Run.runs_preserves _ _ _ _ (fun state => ClosesNamed state.requests state.log) ?_ _ _ _
      ?_ hlabels hrun
    · intro state label next h hallowed hstep
      exact closesNamed_change h hallowed (step_change hstep)
    · constructor
      · intro op session hmem
        cases hmem
      · intro k op session hmem
        cases hmem
  refine ⟨hnamed.posted, ?_⟩
  intro op session hmem
  obtain ⟨s, rfl⟩ := Option.ne_none_iff_exists'.mp (hnamed.waiting op session hmem)
  obtain ⟨k, found, hfound, -⟩ := (coherent_runs hrun).closing _ hmem s rfl
  exact ⟨s, rfl, by simp [hfound]⟩

def connectThenClose : List (Label Bytes) := oneConnect ++ [.close 0]

theorem closesName_connectThenClose :
    ∃ broker, Run.runs (step sampleConfig) init connectThenClose = some broker ∧
      broker.ClosesName := by
  refine ⟨_, rfl, ?_⟩
  refine closesName_of_refusesConnected sampleConfig connectThenClose
    ⟨trivial, trivial, trivial, ?_, trivial, trivial⟩ rfl
  intro mail rest conn htake hconn hrefused
  obtain ⟨rfl, rfl⟩ := Prod.mk.inj (Option.some.inj htake)
  cases hrefused

/-- A client asks for an identifier in use and closes its connection before
the answer. -/
def refusedThenClosed : List (Label Bytes) :=
  oneConnect ++ [.accept 1 [], .connect 1 (connectFrom [65] true) false,
    .execute (sampleExecution 8), .close 1, .connectComplete 1]

theorem not_closesName_refusedThenClosed :
    ∃ broker, Run.runs (step sampleConfig) init refusedThenClosed = some broker ∧
      ¬ broker.ClosesName := by
  refine ⟨_, rfl, ?_⟩
  intro h
  obtain ⟨s, hs, -⟩ := h.2 .sessionForceClose none (List.mem_singleton.mpr rfl)
  cases hs

end Broker

/-! ### Sessions stay on their IO thread -/

/-- The IO context of every open session of the table is the one of its
connection. -/
def OnContext (conns : Nat → Option ClientConn) (heap : Nat → Option (SessionRecord π))
    (sessions : Bytes → Option Nat) : Prop :=
  ∀ clientId s session, sessions clientId = some s → heap s = some session →
    session.state = .opened →
    ∃ conn, conns session.conn = some conn ∧ session.ioContextIdx.toNat = conn.ioContext

namespace OnContext

variable {conns : Nat → Option ClientConn} {heap : Nat → Option (SessionRecord π)}
  {sessions : Bytes → Option Nat} {k s : Nat}

/-- A connection never changes its IO context. -/
theorem setConn (h : OnContext conns heap sessions) {conn changed : ClientConn}
    (hconn : conns k = some conn) (hcontext : changed.ioContext = conn.ioContext) :
    OnContext (Function.update conns k (some changed)) heap sessions := by
  intro clientId s session hregistered hsession hopened
  obtain ⟨found, hfound, hindex⟩ := h clientId s session hregistered hsession hopened
  rcases update_forward hconn hfound changed with ⟨rfl, hafter⟩ | hafter
  · exact ⟨changed, hafter, hindex.trans hcontext.symm⟩
  · exact ⟨found, hafter, hindex⟩

theorem newConn (h : OnContext conns heap sessions) (hnew : conns k = none) (conn : ClientConn) :
    OnContext (Function.update conns k (some conn)) heap sessions := by
  intro clientId s session hregistered hsession hopened
  obtain ⟨found, hfound, hindex⟩ := h clientId s session hregistered hsession hopened
  refine ⟨found, ?_, hindex⟩
  exact (update_of_apply_ne (by simp [hfound, hnew]) _).trans hfound

theorem setSession (h : OnContext conns heap sessions) {changed : SessionRecord π}
    {sessions' : Bytes → Option Nat}
    (htable : ∀ clientId s', sessions' clientId = some s' → s' = s ∨ sessions clientId = some s')
    (hcontext : changed.state = .opened →
      ∃ conn, conns changed.conn = some conn ∧ changed.ioContextIdx.toNat = conn.ioContext) :
    OnContext conns (Function.update heap s (some changed)) sessions' := by
  intro clientId s' session hregistered hsession hopened
  rcases update_cases hsession with ⟨rfl, rfl⟩ | ⟨hs, hbefore⟩
  · exact hcontext hopened
  · exact h clientId s' session ((htable clientId s' hregistered).resolve_left hs) hbefore hopened

end OnContext

namespace Broker

variable {J : Type} [TmqString π] {config : BrokerConfig π J} {broker next : Broker π}
  {label : Label π}

/-- A new session gets an IO context with an index of one byte, and a stored
session is resumed on the IO context it was created on. -/
def StartsOnContext (broker : Broker π) : Label π → Prop
  | .execute _ => ∀ k req requests conn, broker.requests = .connect k req :: requests →
      broker.conns k = some conn →
      (broker.sessions (req.clientId conn) = none → conn.ioContext < 256) ∧
      ∀ s session, broker.sessions (req.clientId conn) = some s → broker.heap s = some session →
        session.state = .closed →
        if connectCleanSession req.pkt.flags then conn.ioContext < 256
        else session.ioContextIdx.toNat = conn.ioContext
  | _ => True

omit [TmqString π] in
theorem startsOnContext_connect {k : Nat} {req : ConnectReq π} {requests : List (Request π)}
    (hrequests : broker.requests = .connect k req :: requests) (run : Execution) :
    broker.StartsOnContext (.execute run) ↔ ∀ conn ∈ broker.conns k,
      (broker.sessions (req.clientId conn) = none → conn.ioContext < 256) ∧
      ∀ s ∈ broker.sessions (req.clientId conn), ∀ session ∈ broker.heap s,
        session.state = .closed →
        if connectCleanSession req.pkt.flags then conn.ioContext < 256
        else session.ioContextIdx.toNat = conn.ioContext := by
  constructor
  · intro h conn hconn
    obtain ⟨hnew, hold⟩ := h k req requests conn hrequests hconn
    exact ⟨hnew, fun s hregistered session => hold s session hregistered⟩
  · intro h k' req' requests' conn hrequests' hconn
    obtain ⟨hrequest, -⟩ := List.cons.inj (hrequests.symm.trans hrequests')
    obtain ⟨rfl, rfl⟩ := Request.connect.inj hrequest
    obtain ⟨hnew, hold⟩ := h conn hconn
    exact ⟨hnew, fun s session hregistered => hold s hregistered session⟩

omit [TmqString π] in
theorem startsOnContext_other (hrequests : ∀ k req requests,
    broker.requests ≠ .connect k req :: requests) (run : Execution) :
    broker.StartsOnContext (.execute run) := by
  intro k req requests _ hthis
  exact (hrequests k req requests hthis).elim

instance StartsOnContext.decidable (broker : Broker π) :
    (label : Label π) → Decidable (broker.StartsOnContext label)
  | .execute run =>
      match hrequests : broker.requests with
      | .connect _ _ :: _ => decidable_of_iff _ (startsOnContext_connect hrequests run).symm
      | [] | .close _ _ :: _ | .subscribe _ _ :: _ | .unsubscribe _ _ :: _ =>
          isTrue (startsOnContext_other (by simp [hrequests]) run)
  | .accept _ _ | .connect _ _ _ | .disconnect _ | .subscribe _ _ | .unsubscribe _ _ | .packet _
  | .close _ | .writeError _ | .validate _ _ | .connectComplete _ | .publish _ | .broadcast _ =>
      isTrue trivial

theorem onContext_change (hcoherent : broker.Coherent)
    (h : OnContext broker.conns broker.heap broker.sessions)
    (hallowed : broker.StartsOnContext label) (hchange : Change config broker label next) :
    OnContext next.conns next.heap next.sessions := by
  cases hchange with
  | unchanged => exact h
  | accept n hnew => exact h.newConn hnew _
  | closeIdle label hconn => exact h.setConn hconn rfl
  | closeAttached label draining hconn => exact h.setConn hconn rfl
  | stop label hconn => exact h.setConn hconn rfl
  | connectPool hconn => exact h.setConn hconn rfl
  | connectPost hconn => exact h.setConn hconn rfl
  | connectRefuse hconn => exact h.setConn hconn rfl
  | connectLose hconn => exact h.setConn hconn rfl
  | disconnectIdle hconn => exact h.setConn hconn rfl
  | disconnectAttached hconn => exact h.setConn hconn rfl
  | @subscribe k s pkt conn session hconn hgate hup hsession =>
      obtain ⟨-, found, hfound, hopened, -, hregistered⟩ := hcoherent.live_of_gate hconn hgate hup
      obtain rfl := Option.some.inj (hsession.symm.trans hfound)
      exact h.setSession (fun _ _ => .inr) fun _ => h _ s session hregistered hsession hopened
  | @unsubscribe k s pkt conn session hconn hgate hup hsession =>
      obtain ⟨-, found, hfound, hopened, -, hregistered⟩ := hcoherent.live_of_gate hconn hgate hup
      obtain rfl := Option.some.inj (hsession.symm.trans hfound)
      exact h.setSession (fun _ _ => .inr) fun _ => h _ s session hregistered hsession hopened
  | validate => exact h
  | invalidate => exact h
  | answerClose => exact h
  | answerEnter hmails htake hconn => exact h.setConn hconn rfl
  | answerRefuse => exact h
  | reject => exact h
  | @startNew run k req requests conn hrequests hconn habsent hfree =>
      have hindex := (hallowed k req requests conn hrequests hconn).1 habsent
      refine h.setSession (fun _ _ => update_eq_some) fun _ => ⟨conn, hconn, ?_⟩
      exact UInt8.toNat_ofNat_of_lt' hindex
  | @restart run k s req requests conn session topics hrequests hconn hregistered hsession hclosed
      hclean horder hremoved hfree =>
      have hindex := (hallowed k req requests conn hrequests hconn).2 s session hregistered hsession
        hclosed
      rw [if_pos hclean] at hindex
      have hcleaned : OnContext broker.conns
          (Function.update broker.heap s
            (some { session with state := .closed, released := true }))
          (Function.update broker.sessions session.clientId none) :=
        h.setSession (fun _ _ htable => .inr (eq_some_of_update_none htable).2) nofun
      refine hcleaned.setSession (fun _ _ => update_eq_some) fun _ => ⟨conn, hconn, ?_⟩
      exact UInt8.toNat_ofNat_of_lt' hindex
  | @resume run k s req requests conn session hrequests hconn hregistered hsession hclosed hkeep =>
      have hindex := (hallowed k req requests conn hrequests hconn).2 s session hregistered hsession
        hclosed
      rw [hkeep] at hindex
      exact h.setSession (fun _ _ => .inr) fun _ => ⟨conn, hconn, hindex⟩
  | closeKeep => exact h.setSession (fun _ _ => .inr) nofun
  | closeClean =>
      exact h.setSession (fun _ _ htable => .inr (eq_some_of_update_none htable).2) nofun
  | dropTopics => exact h
  | addTopics => exact h
  | removeTopics => exact h
  | publish => exact h
  | broadcast => exact h

/-- In every run whose sessions start and resume on a fitting IO context, every
open session is on the IO context of its connection. -/
theorem onContext_of_startsOnContext (config : BrokerConfig π J) (labels : List (Label π))
    (hlabels : Run.Admissible StartsOnContext (step config) init labels) {broker : Broker π}
    (hrun : Run.runs (step config) init labels = some broker) :
    OnContext broker.conns broker.heap broker.sessions := by
  have hboth : broker.Coherent ∧ OnContext broker.conns broker.heap broker.sessions := by
    refine @Run.runs_preserves _ _ _ _
      (fun state => state.Coherent ∧ OnContext state.conns state.heap state.sessions) ?_ _ _ _ ?_
      hlabels hrun
    · intro state label next h hallowed hstep
      have hchange := step_change hstep
      exact ⟨coherent_change h.1 hchange, onContext_change h.1 h.2 hallowed hchange⟩
    · refine ⟨coherent_init, ?_⟩
      intro clientId s session hregistered
      cases hregistered
  exact hboth.2

/-- The first session is resumed on the IO context that it was created on. -/
theorem onContext_twoClients :
    ∃ broker, Run.runs (step sampleConfig) init twoClients = some broker ∧
      OnContext broker.conns broker.heap broker.sessions ∧ broker.sessions [65] = some 7 ∧
      broker.sessions [66] = some 8 := by
  have hlabels : Run.Admissible StartsOnContext (step sampleConfig) init twoClients := by
    decide +kernel
  refine ⟨_, rfl, ?_, rfl, rfl⟩
  exact onContext_of_startsOnContext sampleConfig twoClients hlabels rfl

/-- A client keeps its session and comes back on another connection. -/
def comeBack : List (Label Bytes) :=
  [.accept 0 [], .connect 0 (connectFrom [65] false) false, .execute (sampleExecution 7),
    .connectComplete 0, .disconnect 0, .execute (sampleExecution 8), .accept 1 [],
    .connect 1 (connectFrom [65] false) false, .execute (sampleExecution 8)]

/-- The session that was created on the first IO context is resumed on the
second one. -/
theorem not_onContext_comeBack :
    ∃ broker, Run.runs (step sampleConfig) init comeBack = some broker ∧
      ¬ OnContext broker.conns broker.heap broker.sessions := by
  refine ⟨_, rfl, ?_⟩
  intro h
  obtain ⟨conn, hconn, hindex⟩ := h [65] 7 _ rfl rfl rfl
  obtain rfl := Option.some.inj hconn
  revert hindex
  decide

end Broker

end TinyMqtt
