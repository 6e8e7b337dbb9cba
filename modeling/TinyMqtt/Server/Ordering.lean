import TinyMqtt.Lib.InTurn
import TinyMqtt.Server.Streams

/-!
Messages of one publisher reach a session in order. They come into its queue in
the order of their packets whatever happens, and they are first written in that
order as long as nothing overtakes what is counted in flight but was not yet
written: what a session only stores waits for the next start of a connection,
and what is published before that start, or while a connection goes on without
it, is written ahead of it.
-/

namespace TinyMqtt

open LinkedList

variable {π J : Type} [TmqString π]

/-! ### Connections and calls -/

def SessionsOpen (conns : Nat → Option ClientConn) : Prop :=
  ∀ k conn, conns k = some conn → conn.connState = .inSession → conn.state = .connected

namespace Broker

variable {config : BrokerConfig π J} {broker next : Broker π} {label : Label π}

omit [TmqString π] in
theorem sessionsOpen_update {conns : Nat → Option ClientConn} (h : SessionsOpen conns) (k : Nat)
    {conn : ClientConn} (hconn : conn.connState = .inSession → conn.state = .connected) :
    SessionsOpen (Function.update conns k (some conn)) := by
  intro k' found hfound hin
  rcases update_cases hfound with ⟨rfl, rfl⟩ | ⟨-, hbefore⟩
  · exact hconn hin
  · exact h k' found hbefore hin

theorem sessionsOpen_change (h : SessionsOpen broker.conns)
    (hchange : Change config broker label next) : SessionsOpen next.conns := by
  cases hchange with
  | accept => exact sessionsOpen_update h _ (by nofun)
  | closeIdle label hconn hopen hidle => exact sessionsOpen_update h _ fun hin => (hidle hin).elim
  | stop label hconn hidle => exact sessionsOpen_update h _ (by simp [hidle])
  | closeAttached | connectPool | connectPost | connectRefuse | connectLose | disconnectIdle
  | disconnectAttached => exact sessionsOpen_update h _ (by nofun)
  | answerEnter hmails htake hconn hconnected => exact sessionsOpen_update h _ fun _ => hconnected
  | _ => exact h

/-- The calls that a step makes, and what it leaves alone. -/
inductive Calls (broker next : Broker π) : List (BrokerEvent π) → Prop where
  | quiet (hheap : ∀ s, broker.heap s = none → next.heap s = none)
      (hattached : ∀ k s, Attached next.conns k s → Attached broker.conns k s) :
      Calls broker next []
  | new (malloc : Nat) (hfree : broker.heap malloc = none) (hused : (next.heap malloc).isSome)
      (hheap : ∀ s, s ≠ malloc → broker.heap s = none → next.heap s = none)
      (hattached : ∀ k s, Attached next.conns k s → Attached broker.conns k s) :
      Calls broker next [.sessionNew malloc]
  | start (s : Nat) (hheap : next.heap = broker.heap)
      (hattached : ∀ k s', s' ≠ s → Attached next.conns k s' → Attached broker.conns k s')
      (hopen : ∀ session, next.heap s = some session → connected next.conns session.conn = true) :
      Calls broker next [.sessionStart s]

omit [TmqString π] in
theorem calls_quiet {events : List (BrokerEvent π)} (hlog : next.log = broker.log ++ events)
    (hquiet : events.any BrokerEvent.isCall = false)
    (hheap : ∀ s, broker.heap s = none → next.heap s = none)
    (hattached : ∀ k s, Attached next.conns k s → Attached broker.conns k s) :
    Calls broker next (callsOf broker next) := by
  have hnone : events.filter BrokerEvent.isCall = [] := by
    rw [List.filter_eq_nil_iff]
    exact List.any_eq_false.mp hquiet
  rw [callsOf_eq hlog, hnone]
  exact .quiet hheap hattached

omit [TmqString π] in
theorem free_update {heap : Nat → Option (SessionRecord π)} {s : Nat} {session : SessionRecord π}
    (hsession : heap s = some session) (changed : SessionRecord π) {s' : Nat}
    (hfree : heap s' = none) : Function.update heap s (some changed) s' = none :=
  (update_of_apply_ne (by simp [hfree, hsession]) _).trans hfree

theorem calls_change (hcoherent : broker.Coherent) (hchange : Change config broker label next) :
    Calls broker next (callsOf broker next) := by
  have hleft : ∀ {k : Nat} {conn : ClientConn}, conn.connState ≠ .inSession → ∀ k' s,
      Attached (Function.update broker.conns k (some conn)) k' s → Attached broker.conns k' s :=
    fun hidle _ _ hattached => (attached_update_idle hidle hattached).2
  cases hchange with
  | unchanged | validate | invalidate | reject | dropTopics =>
      exact calls_quiet (List.append_nil _).symm rfl (fun _ hfree => hfree) fun _ _ h => h
  | answerClose | answerRefuse | removeTopics =>
      exact calls_quiet rfl rfl (fun _ hfree => hfree) fun _ _ h => h
  | addTopics =>
      exact calls_quiet (List.append_assoc ..) (any_isCall_map (fun _ => rfl) _)
        (fun _ hfree => hfree) fun _ _ h => h
  | publish | broadcast =>
      exact calls_quiet rfl (any_isCall_map (fun _ => rfl) _) (fun _ hfree => hfree) fun _ _ h => h
  | accept =>
      refine calls_quiet (List.append_nil _).symm rfl (fun _ hfree => hfree) (hleft ?_)
      nofun
  | closeIdle label hconn hopen hidle =>
      exact calls_quiet rfl rfl (fun _ hfree => hfree) (hleft hidle)
  | stop label hconn hidle =>
      refine calls_quiet (List.append_nil _).symm rfl (fun _ hfree => hfree) (hleft ?_)
      simp [hidle]
  | connectPool | connectPost | disconnectIdle =>
      refine calls_quiet rfl rfl (fun _ hfree => hfree) (hleft ?_)
      nofun
  | closeAttached | connectRefuse | disconnectAttached =>
      refine calls_quiet (List.append_assoc ..) rfl (fun _ hfree => hfree) (hleft ?_)
      nofun
  | connectLose =>
      refine calls_quiet ((List.append_assoc ..).trans (List.append_assoc ..)) rfl
        (fun _ hfree => hfree) (hleft ?_)
      nofun
  | subscribe hconn hgate hup hsession =>
      exact calls_quiet (List.append_nil _).symm rfl (fun _ => free_update hsession _) fun _ _ h => h
  | unsubscribe hconn hgate hup hsession =>
      exact calls_quiet (List.append_nil _).symm rfl (fun _ => free_update hsession _) fun _ _ h => h
  | resume hrequests hconn hregistered hsession =>
      exact calls_quiet (List.append_assoc ..) rfl (fun _ => free_update hsession _) fun _ _ h => h
  | closeKeep hrequests hsession hkeep hwill =>
      refine calls_quiet ((List.append_assoc ..).trans (List.append_assoc ..)) ?_
        (fun _ => free_update hsession _) fun _ _ h => h
      rw [List.any_append, callsOf_publishesWill hwill]
      rfl
  | closeClean hrequests hsession hclean hwill =>
      refine calls_quiet ((List.append_assoc ..).trans (List.append_assoc ..)) ?_
        (fun _ => free_update hsession _) fun _ _ h => h
      rw [List.any_append, callsOf_publishesWill hwill]
      rfl
  | @startNew run k req requests conn hrequests hconn habsent hfree =>
      have hcalls : callsOf broker ((broker.dequeue requests).putNewSession run.malloc k conn req
          (connectCleanSession req.pkt.flags) false) = [.sessionNew run.malloc] :=
        (callsOf_eq ((List.append_assoc ..).trans (List.append_assoc ..))).trans rfl
      rw [hcalls]
      refine .new run.malloc hfree ?_ ?_ fun _ _ h => h
      · exact Option.isSome_of_eq_some (Function.update_self ..)
      · intro s hs hnone
        exact (Function.update_of_ne hs ..).trans hnone
  | @restart run k s req requests conn session topics hrequests hconn hregistered hsession hclosed
      hclean horder hremoved hfree =>
      have hcalls : callsOf broker (((broker.dequeue requests).cleanSession s session
          topics).putNewSession run.malloc k conn req true true) = [.sessionNew run.malloc] :=
        (callsOf_eq (((List.append_assoc ..).trans (List.append_assoc ..)).trans
          (List.append_assoc ..))).trans rfl
      rw [hcalls]
      refine .new run.malloc hfree ?_ ?_ fun _ _ h => h
      · exact Option.isSome_of_eq_some (Function.update_self ..)
      · intro s' hs' hnone
        exact (Function.update_of_ne hs' ..).trans (free_update hsession _ hnone)
  | @answerEnter ioContext k s sessionPresent conn before after hmails htake hconn hconnected
      hpending =>
      obtain ⟨session, hsession, -, hon, -⟩ := hcoherent.answered
        ⟨ioContext, k, .accepted s sessionPresent⟩ (by simp [hmails]) s rfl
      have hcalls : callsOf broker ((({ broker with mqttConnectResponses := before ++ after }.setConn k
          { conn with upstream := .session s, connState := .inSession }).record
            (.write k (.connack ⟨if sessionPresent then 1 else 0, connectionAccepted⟩))).record
              (.sessionStart s)) = [.sessionStart s] :=
        (callsOf_eq (List.append_assoc ..)).trans rfl
      rw [hcalls]
      refine .start s rfl ?_ ?_
      · intro k' s' hs' hattached
        rcases attached_update hattached with ⟨-, -, hup⟩ | ⟨-, hother⟩
        · exact (hs' (Upstream.session.inj hup).symm).elim
        · exact hother
      · intro found hfound
        obtain rfl := Option.some.inj (hsession.symm.trans hfound)
        rw [connected_iff, hon]
        exact ⟨_, Function.update_self .., hconnected⟩

end Broker

namespace Server

variable {config : BrokerConfig Stamped J} {mine : Nat → Bool} {s : Nat}
  {server middle next : Server Stamped} {entered transmitted : List Nat}

/-! ### What the session writes -/

structure Extends (s : Nat) (server next : Server Stamped) : Prop where
  broker : next.broker = server.broker
  flow : Option.Rel (fun flow after => flow.sent <+: after.sent) (server.flows s) (next.flows s)

theorem Extends.of_flow (hbroker : next.broker = server.broker)
    (hflow : next.flows s = server.flows s) : Extends s server next := by
  refine ⟨hbroker, ?_⟩
  rw [hflow]
  cases server.flows s with
  | none => exact .none
  | some flow => exact .some (List.prefix_refl _)

/-- What is written in two parts. -/
theorem writtenBy_trans (hfirst : Extends s server middle) (hsecond : Extends s middle next) :
    writtenBy s server next = writtenBy s server middle ++ writtenBy s middle next := by
  obtain ⟨hbroker, hflow⟩ := hfirst
  obtain ⟨hbroker', hflow'⟩ := hsecond
  unfold writtenBy
  rw [← hbroker']
  generalize server.flows s = before at *
  generalize middle.flows s = between at *
  generalize next.flows s = after at *
  cases hflow with
  | none =>
      cases hflow'
      cases next.broker.heap s <;> rfl
  | some hlead =>
      cases hflow' with
      | some hlead' =>
          cases next.broker.heap s with
          | none => rfl
          | some session =>
              by_cases hopen : connected next.broker.conns session.conn = true
              · obtain ⟨packets, hpackets⟩ := hlead
                obtain ⟨packets', hpackets'⟩ := hlead'
                simp only [hopen, if_true, ← hpackets', ← hpackets, List.append_assoc,
                  List.drop_left]
                rw [← List.append_assoc, List.drop_left]
              · simp [hopen]

theorem Extends.trans (hfirst : Extends s server middle) (hsecond : Extends s middle next) :
    Extends s server next := by
  obtain ⟨hbroker, hflow⟩ := hfirst
  obtain ⟨hbroker', hflow'⟩ := hsecond
  refine ⟨hbroker'.trans hbroker, ?_⟩
  generalize server.flows s = before at *
  generalize middle.flows s = between at *
  generalize next.flows s = after at *
  cases hflow with
  | none => exact hflow'
  | some hlead =>
      obtain ⟨hlead'⟩ := hflow'
      exact .some (hlead.trans hlead')

/-- Without a run of its functions the session writes nothing. -/
theorem writtenBy_of_flow (hflow : next.flows s = server.flows s) : writtenBy s server next = [] := by
  unfold writtenBy
  rw [hflow]
  cases next.broker.heap s <;> cases server.flows s <;> simp

theorem Extends.of_run {session : SessionRecord Stamped} {flow after : Session Stamped}
    (hrun : FlowRun server next s session flow after) {packets : List (Packet Stamped)}
    (hsent : after.sent = flow.sent ++ packets) : Extends s server next := by
  refine ⟨hrun.broker, ?_⟩
  rw [hrun.current, hrun.flows, Function.update_self]
  exact .some (hsent ▸ List.prefix_append ..)

/-- What the session hands over is written when its connection is open. -/
theorem writtenBy_run {session : SessionRecord Stamped} {flow after : Session Stamped}
    (hrun : FlowRun server next s session flow after) {packets : List (Packet Stamped)}
    (hsent : after.sent = flow.sent ++ packets) :
    writtenBy s server next =
      if connected server.broker.conns session.conn then packets else [] := by
  unfold writtenBy
  rw [hrun.broker, hrun.found, hrun.current, hrun.flows, Function.update_self]
  simp only [hsent, List.drop_left]

/-! ### The messages of a session -/

/-- What was seen of the messages fits the queue of the session, and what is in
flight on a connection in session has been written. -/
structure Fits (mine : Nat → Bool) (conns : Nat → Option ClientConn) (s : Nat)
    (flow : Session Stamped) (window : Nat) (queue : List (QueuedPacket Stamped))
    (entered transmitted : List Nat) : Prop where
  represents : Represents flow window queue
  inTurn : InTurn entered (keys (liveStamp mine) queue) transmitted
  written : ∀ k, Attached conns k s →
    ∀ n ∈ keys (liveStamp mine) (queue.take window), n ∈ transmitted

structure Watched (mine : Nat → Bool) (s : Nat) (server : Server Stamped)
    (entered transmitted : List Nat) : Prop where
  absent : server.broker.heap s = none →
    server.flows s = none ∧ entered = [] ∧ transmitted = []
  present : ∀ session, server.broker.heap s = some session → ∃ flow window queue,
    server.flows s = some flow ∧
      Fits mine server.broker.conns s flow window queue entered transmitted

theorem watched_init : Watched mine s init [] [] :=
  ⟨fun _ => ⟨rfl, rfl, rfl⟩, nofun⟩

/-- Nothing happens to the session, unless connections leave it. -/
theorem Watched.frame (h : Watched mine s server entered transmitted)
    (hflow : next.flows s = server.flows s)
    (hheap : server.broker.heap s = none ↔ next.broker.heap s = none)
    (hattached : ∀ k, Attached next.broker.conns k s → Attached server.broker.conns k s) :
    Watched mine s next entered transmitted := by
  constructor
  · intro hfree
    rw [hflow]
    exact h.absent (hheap.mpr hfree)
  · intro session hsession
    obtain ⟨before, hbefore⟩ : ∃ before, server.broker.heap s = some before := by
      apply Option.ne_none_iff_exists'.mp
      intro hnone
      rw [hheap.mp hnone] at hsession
      cases hsession
    obtain ⟨flow, window, queue, hcurrent, hfits⟩ := h.present before hbefore
    refine ⟨flow, window, queue, hflow.trans hcurrent, hfits.represents, hfits.inTurn, ?_⟩
    intro k hk
    exact hfits.written k (hattached k hk)

/-- What a session that a connection is in session with hands over is next in
turn. -/
theorem Fits.hands {conns : Nat → Option ClientConn} {flow after : Session Stamped} {window : Nat}
    {queue queue' : List (QueuedPacket Stamped)}
    (h : Fits mine conns s flow window queue entered transmitted) {k : Nat}
    (hattached : Attached conns k s) (hqueue' : Represents after window queue')
    {packets : List (Packet Stamped)} (hhands : Hands (liveStamp mine) window queue queue' packets) :
    Fits mine conns s after window queue' entered
      (transmitted ++ packets.filterMap (liveStamp mine)) := by
  have hinflight := h.written k hattached
  have hturn : InTurn entered (keys (liveStamp mine) queue)
      (transmitted ++ packets.filterMap (liveStamp mine)) := by
    rcases hhands.ahead with hnone | hlead
    · rw [hnone, List.append_nil]
      exact h.inTurn
    · exact h.inTurn.hand hlead hinflight
  refine ⟨hqueue', hturn.remove hhands.kept ?_, ?_⟩
  · intro n hn
    rcases hhands.removed n hn with hkept | hleft
    · exact .inl hkept
    · exact .inr (List.mem_append_left _ (hinflight n hleft))
  · intro _ _ n hn
    rcases hhands.sent n hn with hold | hnew
    · exact List.mem_append_left _ (hinflight n hold)
    · exact List.mem_append_right _ hnew

theorem Watched.current (h : Watched mine s server entered transmitted)
    {session : SessionRecord Stamped} {flow after : Session Stamped}
    (hrun : FlowRun server next s session flow after) : ∃ window queue,
      Fits mine server.broker.conns s flow window queue entered transmitted := by
  obtain ⟨found, window, queue, hfound, hfits⟩ := h.present session hrun.found
  obtain rfl := Option.some.inj (hrun.current.symm.trans hfound)
  exact ⟨window, queue, hfits⟩

theorem watched_run {session : SessionRecord Stamped} {flow after : Session Stamped}
    (hrun : FlowRun server next s session flow after) {window : Nat}
    {queue : List (QueuedPacket Stamped)}
    (hfits : Fits mine server.broker.conns s after window queue entered transmitted) :
    Watched mine s next entered transmitted := by
  constructor
  · intro hfree
    rw [hrun.broker, hrun.found] at hfree
    cases hfree
  · intro _ _
    rw [hrun.broker, hrun.flows]
    exact ⟨after, window, queue, Function.update_self .., hfits⟩

/-- Functions of sessions have run, and what was seen of the messages fits
again, with what was written meanwhile. -/
structure Moves (mine : Nat → Bool) (s : Nat) (server next : Server Stamped)
    (entered transmitted : List Nat) : Prop where
  extended : Extends s server next
  watched : Watched mine s next entered
    (transmitted ++ (writtenBy s server next).filterMap (liveStamp mine))

theorem Moves.trans {entered' : List Nat} (hfirst : Moves mine s server middle entered transmitted)
    (hsecond : Moves mine s middle next entered'
      (transmitted ++ (writtenBy s server middle).filterMap (liveStamp mine))) :
    Moves mine s server next entered' transmitted := by
  refine ⟨hfirst.extended.trans hsecond.extended, ?_⟩
  rw [writtenBy_trans hfirst.extended hsecond.extended, List.filterMap_append, ← List.append_assoc]
  exact hsecond.watched

theorem Watched.unmoved (h : Watched mine s server entered transmitted)
    (hbroker : next.broker = server.broker) (hflow : next.flows s = server.flows s) :
    Moves mine s server next entered transmitted := by
  refine ⟨.of_flow hbroker hflow, ?_⟩
  rw [writtenBy_of_flow hflow, List.filterMap_nil, List.append_nil]
  exact h.frame hflow (by rw [hbroker]) (by rw [hbroker]; exact fun _ hk => hk)

theorem Watched.other (h : Watched mine s server entered transmitted) {s' : Nat} (hs : s ≠ s')
    {session : SessionRecord Stamped} {flow after : Session Stamped}
    (hrun : FlowRun server next s' session flow after) :
    Moves mine s server next entered transmitted := by
  refine h.unmoved hrun.broker ?_
  rw [hrun.flows, Function.update_of_ne hs]

/-! ### Packets -/

theorem connected_of_attached (hcoherent : server.broker.Coherent)
    (hopen : SessionsOpen server.broker.conns) {k : Nat} (hattached : Attached server.broker.conns k s)
    {session : SessionRecord Stamped} (hsession : server.broker.heap s = some session) :
    connected server.broker.conns session.conn = true := by
  obtain ⟨⟨found, hfound, -, hon, -⟩, -⟩ := hcoherent.attached k s hattached
  obtain rfl := Option.some.inj (hsession.symm.trans hfound)
  obtain ⟨conn, hconn, hin, -⟩ := hattached
  rw [connected_iff, hon]
  exact ⟨conn, hconn, hopen k conn hconn hin⟩

/-- A packet is handled on behalf of a session that a connection is in session
with. -/
theorem Watched.handleEvent (h : Watched mine s server entered transmitted)
    (hcoherent : server.broker.Coherent) (hopen : SessionsOpen server.broker.conns) {k s' : Nat}
    (hattached : Attached server.broker.conns k s') {malloc : Addr} {event : Event Stamped}
    (hhandle : server.handleEvent config k s' malloc event = some next) :
    Moves mine s server next entered transmitted := by
  rcases handleEvent_eq_some hhandle with
    ⟨pkt, rfl, rfl⟩ | ⟨hsend, session, flow, after, hafter, hfree, hrun⟩
  · obtain ⟨hbroker, hflows, -⟩ := server.write_frame k [pkt]
    exact h.unmoved hbroker (by rw [hflows])
  · by_cases hs : s = s'
    · subst hs
      obtain ⟨window, queue, hfits⟩ := h.current hrun
      obtain ⟨queue', packets, hqueue', hsent, hhands⟩ :=
        handleEvent_hands (liveStamp_cloneForSending mine) (liveStamp_pubrel mine) hfits.represents
          hsend hfree hafter
      refine ⟨.of_run hrun hsent, ?_⟩
      rw [writtenBy_run hrun hsent, if_pos (connected_of_attached hcoherent hopen hattached hrun.found)]
      exact watched_run hrun (hfits.hands hattached hqueue' hhands)
    · exact h.other hs hrun

theorem Watched.handleEvents {k s' : Nat} {malloc : Addr} {events : List (Event Stamped)}
    (h : Watched mine s server entered transmitted) (hcoherent : server.broker.Coherent)
    (hopen : SessionsOpen server.broker.conns) (hattached : Attached server.broker.conns k s')
    (hhandle : events.foldlM (Server.handleEvent config k s' malloc) server = some next) :
    Moves mine s server next entered transmitted := by
  induction events generalizing server transmitted with
  | nil =>
      obtain rfl := Option.some.inj hhandle
      exact h.unmoved rfl rfl
  | cons event events ih =>
      rw [List.foldlM_cons] at hhandle
      obtain ⟨middle, hfirst, hrest⟩ := Option.bind_eq_some_iff.mp hhandle
      have hmoves := h.handleEvent hcoherent hopen hattached hfirst
      have hbroker := hmoves.extended.broker
      rw [← hbroker] at hcoherent hopen hattached
      exact hmoves.trans (ih hmoves.watched hcoherent hopen hattached hrest)

/-! ### Broadcast tasks -/

theorem publishQos_unstored (retain : Bool) : publishQos (if retain then 1 else 0) = 0 := by
  cases retain <;> rfl

/-- A delivery has the stamp that the task brings, whatever its packet
identifier is. -/
theorem liveStamp_delivery (task : BroadcastTask Stamped) {entry : BroadcastEntry}
    (hentry : entry.session = s) (packetId : UInt16) :
    liveStamp mine (.publish (newPublishPkt packetId task.topic task.message.message
      (deliveryQos entry task.message) (if task.retain then 1 else 0)))
      = stampFor mine s task entry := by
  by_cases hqos : 0 < deliveryQos entry task.message
  · rw [liveStamp_newPublishPkt]
    exact (if_pos ⟨hentry, hqos⟩).symm
  · have hnone : stampFor mine s task entry = none := if_neg fun hboth => hqos hboth.2
    rw [hnone]
    simp only [newPublishPkt, hqos, if_false, liveStamp, publishQos_unstored, ne_eq,
      not_true_eq_false, false_and]

/-- The delivery that the entry stands for does not overtake what is in
flight. -/
def Ready (mine : Nat → Bool) (s : Nat) (conns : Nat → Option ClientConn) (k window : Nat)
    (queue : List (QueuedPacket Stamped)) (transmitted : List Nat) (isSessionClosed : Bool) : Prop :=
  queue.length < window →
    if isSessionClosed then ∀ k, ¬ Attached conns k s
    else connected conns k → ∀ n ∈ keys (liveStamp mine) (queue.take window), n ∈ transmitted

theorem Fits.stores {conns : Nat → Option ClientConn} {flow after : Session Stamped} {window : Nat}
    {queue queue' : List (QueuedPacket Stamped)}
    (h : Fits mine conns s flow window queue entered transmitted)
    (hqueue' : Represents after window queue') {packets : List (Packet Stamped)}
    {isSessionClosed : Bool} {stamp : Option Nat}
    (hstores : Stores (liveStamp mine) window isSessionClosed stamp queue queue' packets) {k : Nat}
    (hopen : ∀ k', Attached conns k' s → connected conns k = true)
    (hascending : (entered ++ stamp.toList).Pairwise (· < ·))
    (hready : stamp.isSome → Ready mine s conns k window queue transmitted isSessionClosed) :
    Fits mine conns s after window queue' (entered ++ stamp.toList) (transmitted ++
      (if connected conns k then packets else []).filterMap (liveStamp mine)) := by
  have hturn := h.inTurn.enter hascending
  rw [← hstores.queued] at hturn
  have hkeys := hstores.inflight
  have hsent := hstores.sent
  have hunsent : packets.filterMap (liveStamp mine) = [] ∨ connected conns k = false →
      (if connected conns k then packets else []).filterMap (liveStamp mine) = [] := by
    rintro (hnone | hclosed)
    · split
      · exact hnone
      · rfl
    · rw [hclosed]
      rfl
  cases stamp with
  | none =>
      simp only [Option.toList_none, ite_self, List.append_nil] at hkeys hsent hturn ⊢
      rw [hunsent (.inl hsent), List.append_nil]
      refine ⟨hqueue', hturn, ?_⟩
      rw [hkeys]
      exact h.written
  | some n =>
      by_cases hroom : queue.length < window
      · have hready := hready rfl hroom
        cases isSessionClosed with
        | false =>
            by_cases htakes : connected conns k = true
            · -- the message is written, behind all that is queued
              have hall := hready htakes
              simp only [hroom, htakes, if_true, and_self] at hkeys hsent ⊢
              rw [List.take_of_length_le hroom.le] at hall hkeys
              rw [hsent]
              refine ⟨hqueue', hturn.hand ?_ hall, ?_⟩
              · rw [hstores.queued]
              · intro _ _ m hm
                rw [hkeys] at hm
                exact (List.mem_append.mp hm).elim (fun hold => List.mem_append_left _ (hall m hold))
                  (List.mem_append_right _)
            · rw [hunsent (.inr (Bool.eq_false_of_not_eq_true htakes)), List.append_nil]
              exact ⟨hqueue', hturn, fun k' hattached => (htakes (hopen k' hattached)).elim⟩
        | true =>
            simp only [Bool.true_eq_false, and_false, if_false] at hsent
            rw [hunsent (.inl hsent), List.append_nil]
            exact ⟨hqueue', hturn, fun k' hattached => (hready k' hattached).elim⟩
      · simp only [hroom, false_and, if_false, List.append_nil] at hkeys hsent
        rw [hunsent (.inl hsent), List.append_nil]
        refine ⟨hqueue', hturn, ?_⟩
        rw [hkeys]
        exact h.written

/-- A delivery of a message of the publisher comes in time. -/
def InTime (mine : Nat → Bool) (s : Nat) (server : Server Stamped) (transmitted : List Nat)
    (task : BroadcastTask Stamped) (entry : BroadcastEntry) : Prop :=
  (stampFor mine s task entry).isSome → ∀ session flow window queue,
    server.broker.heap s = some session → server.flows s = some flow →
    Represents flow window queue →
    Ready mine s server.broker.conns session.conn window queue transmitted entry.isSessionClosed

theorem InTime.keep {task : BroadcastTask Stamped} {entry : BroadcastEntry}
    (h : InTime mine s server transmitted task entry) (hbroker : next.broker = server.broker)
    {written : List Nat} (hflow : ∀ after window queue', next.flows s = some after →
      Represents after window queue' → ∃ flow queue, server.flows s = some flow ∧
        Represents flow window queue ∧ queue.length ≤ queue'.length ∧
        keys (liveStamp mine) (queue'.take window) = keys (liveStamp mine) (queue.take window)) :
    InTime mine s next (transmitted ++ written) task entry := by
  intro hstamp session after window queue' hsession hafter hqueue' hroom
  obtain ⟨flow, queue, hcurrent, hqueue, hlength, hkeys⟩ := hflow after window queue' hafter hqueue'
  rw [hbroker] at hsession ⊢
  have hready := h hstamp session flow window queue hsession hcurrent hqueue
    (hlength.trans_lt hroom)
  cases hclosed : entry.isSessionClosed with
  | true =>
      rw [hclosed] at hready
      exact hready
  | false =>
      rw [hclosed] at hready
      intro htakes n hn
      rw [hkeys] at hn
      exact List.mem_append_left _ (hready htakes n hn)

/-- A task is handled for one subscriber. -/
theorem Watched.deliverTo (h : Watched mine s server entered transmitted)
    (hcoherent : server.broker.Coherent) (hopen : SessionsOpen server.broker.conns)
    {task : BroadcastTask Stamped} {mallocs : Nat → Addr} {entry : BroadcastEntry × Nat}
    (hascending : (entered ++ (stampFor mine s task entry.1).toList).Pairwise (· < ·))
    (htime : InTime mine s server transmitted task entry.1)
    (hdeliver : server.deliverTo config task mallocs entry = some next) :
    Moves mine s server next (entered ++ (stampFor mine s task entry.1).toList) transmitted ∧
      (stampFor mine s task entry.1 = none → ∀ other,
        InTime mine s server transmitted task other →
        InTime mine s next
          (transmitted ++ (writtenBy s server next).filterMap (liveStamp mine)) task other) := by
  obtain ⟨session, flow, after, hfree, hafter, hrun⟩ := deliverTo_eq_some hdeliver
  by_cases hs : entry.1.session = s
  · rw [hs] at hrun
    obtain ⟨window, queue, hfits⟩ := h.current hrun
    have hunstored : ¬ 0 < deliveryQos entry.1 task.message → stampFor mine s task entry.1 = none :=
      fun hqos => if_neg fun hboth => hqos hboth.2
    obtain ⟨queue', packets, hqueue', hsent, hstores⟩ :=
      tmqSessionPublish_stores (liveStamp_cloneForSending mine) hfits.represents hfree
        (liveStamp_delivery task hs) hunstored hafter
    constructor
    · refine ⟨.of_run hrun hsent, ?_⟩
      rw [writtenBy_run hrun hsent]
      refine watched_run hrun (hfits.stores hqueue' hstores ?_ hascending ?_)
      · intro k hattached
        exact connected_of_attached hcoherent hopen hattached hrun.found
      · intro hstamp
        exact htime hstamp session flow window queue hrun.found hrun.current hfits.represents
    · intro hnone other hother
      refine hother.keep hrun.broker ?_
      intro found window' found' hfound hfound'
      rw [hrun.flows, Function.update_self] at hfound
      obtain rfl := Option.some.inj hfound
      obtain rfl := segment_unique hfound'.linked hqueue'.linked
      obtain rfl := hfound'.windowSize.symm.trans hqueue'.windowSize
      refine ⟨flow, queue, hrun.current, hfits.represents, hstores.longer, ?_⟩
      rw [hstores.inflight, hnone]
      simp
  · have hnone : stampFor mine s task entry.1 = none := if_neg fun hboth => hs hboth.1
    have hmoves := h.other (Ne.symm hs) hrun
    rw [hnone, Option.toList_none, List.append_nil]
    refine ⟨hmoves, fun _ other hother => hother.keep hrun.broker ?_⟩
    intro found window queue hfound hqueue
    rw [hrun.flows, Function.update_of_ne (Ne.symm hs)] at hfound
    exact ⟨found, queue, hfound, hqueue, le_rfl, rfl⟩

/-- A task brings the session one message at most, so what is in time at the
start is in time when its turn comes. -/
theorem Watched.deliverAll {task : BroadcastTask Stamped} {mallocs : Nat → Addr}
    {entries : List (BroadcastEntry × Nat)} (h : Watched mine s server entered transmitted)
    (hcoherent : server.broker.Coherent) (hopen : SessionsOpen server.broker.conns)
    (hascending : (entered ++ entries.filterMap fun entry =>
      stampFor mine s task entry.1).Pairwise (· < ·))
    (htime : ∀ entry ∈ entries, InTime mine s server transmitted task entry.1)
    (hdeliver : entries.foldlM (Server.deliverTo config task mallocs) server = some next) :
    Moves mine s server next
      (entered ++ entries.filterMap fun entry => stampFor mine s task entry.1) transmitted := by
  induction entries generalizing server entered transmitted with
  | nil =>
      obtain rfl := Option.some.inj hdeliver
      rw [List.filterMap_nil, List.append_nil]
      exact h.unmoved rfl rfl
  | cons entry entries ih =>
      rw [List.foldlM_cons] at hdeliver
      obtain ⟨middle, hfirst, hrest⟩ := Option.bind_eq_some_iff.mp hdeliver
      obtain ⟨hentry, hothers⟩ := List.forall_mem_cons.mp htime
      have hsplit : (entry :: entries).filterMap (fun entry => stampFor mine s task entry.1)
          = (stampFor mine s task entry.1).toList ++
            entries.filterMap fun entry => stampFor mine s task entry.1 := by
        cases hstamp : stampFor mine s task entry.1 <;> simp [hstamp]
      rw [hsplit, ← List.append_assoc] at hascending ⊢
      obtain ⟨hmoves, hkeep⟩ :=
        h.deliverTo hcoherent hopen (List.pairwise_append.mp hascending).1 hentry hfirst
      have hbroker := hmoves.extended.broker
      rw [← hbroker] at hcoherent hopen
      refine hmoves.trans (ih hmoves.watched hcoherent hopen hascending ?_ hrest)
      intro other hother
      cases hstamp : stampFor mine s task entry.1 with
      | none => exact hkeep hstamp other.1 (hothers other hother)
      | some n =>
          intro hsome
          obtain ⟨m, hm⟩ := Option.isSome_iff_exists.mp hsome
          have hlt : n < m := by
            refine (List.pairwise_append.mp hascending).2.2 n (by simp [hstamp]) m ?_
            exact List.mem_filterMap.mpr ⟨other, hother, hm⟩
          obtain ⟨-, -, hn, -⟩ := stampFor_eq_some hstamp
          obtain ⟨-, -, hm, -⟩ := stampFor_eq_some hm
          omega

/-! ### The handlers of the broker -/

/-- Connections may leave the session in a step of the broker. -/
theorem Watched.change (h : Watched mine s server entered transmitted)
    {label : Broker.Label Stamped}
    (hchange : Broker.Change config server.broker label next.broker)
    (hheap : server.broker.heap s = none → next.broker.heap s = none)
    (hattached : ∀ k, Attached next.broker.conns k s → Attached server.broker.conns k s)
    (hflow : next.flows s = server.flows s) :
    Watched mine s next entered
      (transmitted ++ (writtenBy s server next).filterMap (liveStamp mine)) := by
  rw [writtenBy_of_flow hflow, List.filterMap_nil, List.append_nil]
  refine h.frame hflow ⟨hheap, ?_⟩ hattached
  intro hfree
  by_contra hused
  obtain ⟨session, hsession⟩ := Option.ne_none_iff_exists'.mp hused
  obtain ⟨session', hsession', -⟩ := Broker.heap_change hchange hsession
  rw [hfree] at hsession'
  cases hsession'

/-- The start of a connection hands over what is in flight. -/
theorem Fits.start {conns : Nat → Option ClientConn} {flow after : Session Stamped} {window : Nat}
    {queue : List (QueuedPacket Stamped)}
    (h : Fits mine conns s flow window queue entered transmitted)
    (conns' : Nat → Option ClientConn) (hstart : tmqSessionStart flow = some after) :
    ∃ packets, after.sent = flow.sent ++ packets ∧
      Fits mine conns' s after window queue entered
        (transmitted ++ packets.filterMap (liveStamp mine)) := by
  obtain ⟨packets, hqueue', hsent, hkeys⟩ :=
    tmqSessionStart_keys (liveStamp_cloneForSending mine) h.represents hstart
  have hlead : [] ++ packets.filterMap (liveStamp mine) <+: keys (liveStamp mine) queue := by
    rw [List.nil_append, hkeys]
    exact (List.take_prefix _ _).filterMap _
  refine ⟨packets, hsent, hqueue', h.inTurn.hand hlead (by nofun), ?_⟩
  intro _ _ n hn
  rw [hkeys]
  exact List.mem_append_right _ hn

/-- A session is new, and nothing has been seen of it. -/
theorem Watched.new (h : Watched mine s server entered transmitted)
    (hfree : server.broker.heap s = none) (hused : (next.broker.heap s).isSome)
    {nextPacketId : UInt16} {maxInflight : UInt8}
    (hflow : next.flows s = some (tmqSessionNew false nextPacketId maxInflight)) :
    Watched mine s next entered
      (transmitted ++ (writtenBy s server next).filterMap (liveStamp mine)) := by
  obtain ⟨hnone, rfl, rfl⟩ := h.absent hfree
  have hunwritten : writtenBy s server next = [] := by
    unfold writtenBy
    rw [hnone]
    cases next.broker.heap s <;> rfl
  rw [hunwritten]
  constructor
  · intro hgone
    rw [hgone] at hused
    cases hused
  · intro _ _
    refine ⟨_, _, [], hflow, represents_new .., .nil, ?_⟩
    intro k _ n hn
    rw [List.take_nil] at hn
    cases hn

theorem Watched.handle (h : Watched mine s server entered transmitted)
    (hcoherent : server.broker.Coherent) {label : Broker.Label Stamped} {nextPacketId : UInt16}
    (hhandle : server.handle config label nextPacketId = some next) :
    Watched mine s next entered
      (transmitted ++ (writtenBy s server next).filterMap (liveStamp mine)) := by
  obtain ⟨broker, hstep, hfollow⟩ := Option.bind_eq_some_iff.mp hhandle
  have hchange := Broker.step_change hstep
  have hcalls := Broker.calls_change hcoherent hchange
  rw [foldlM_follow] at hfollow
  change (callsOf server.broker broker).foldlM _ _ = _ at hfollow
  generalize callsOf server.broker broker = calls at hcalls hfollow
  cases hcalls with
  | quiet hheap hattached =>
      obtain rfl := Option.some.inj hfollow
      exact h.change hchange (hheap s) (fun k => hattached k s) rfl
  | new malloc hfree hused hheap hattached =>
      obtain rfl := Option.some.inj hfollow
      by_cases hs : s = malloc
      · subst hs
        exact h.new hfree hused (Function.update_self ..)
      · exact h.change hchange (hheap s hs) (fun k => hattached k s) (Function.update_of_ne hs ..)
  | start s' hheap hattached hopen =>
      rw [List.foldlM_cons] at hfollow
      obtain ⟨started, hrunFlow, hrest⟩ := Option.bind_eq_some_iff.mp hfollow
      obtain rfl := Option.some.inj hrest
      obtain ⟨session, flow, after, hafter, hrun⟩ := runFlow_eq_some hrunFlow
      by_cases hs : s = s'
      · subst hs
        obtain ⟨found, window, queue, hfound, hfits⟩ :=
          h.present session (hheap ▸ hrun.found)
        obtain rfl := Option.some.inj (hrun.current.symm.trans hfound)
        obtain ⟨packets, hsent, hfits'⟩ := hfits.start broker.conns hafter
        have hwritten : writtenBy s server started = packets :=
          (writtenBy_run hrun hsent).trans (if_pos (hopen session hrun.found))
        rw [hwritten]
        exact watched_run hrun hfits'
      · have hbroker : started.broker = broker := hrun.broker
        rw [← hbroker] at hchange hattached hheap
        refine h.change hchange (fun hfree => hheap ▸ hfree) (fun k => hattached k s hs) ?_
        rw [hrun.flows, Function.update_of_ne hs]

/-! ### Steps -/

theorem broadcastHandler_frame {broker next : Broker Stamped} {ioContext : Nat}
    {task : BroadcastTask Stamped} {rest : List (BroadcastTask Stamped)}
    (htake : Mailbox.take? BroadcastTask.ioContext ioContext broker.broadcastTasks
      = some (task, rest)) (hbroadcast : broker.broadcastHandler ioContext = some next) :
    next.broadcastTasks = rest ∧ next.conns = broker.conns ∧ next.heap = broker.heap := by
  simp only [Broker.broadcastHandler, htake, Option.bind_eq_bind, Option.bind_some] at hbroadcast
  split at hbroadcast
  · cases hbroadcast
  · obtain rfl := Option.some.inj hbroadcast
    exact ⟨rfl, rfl, rfl⟩

/-- A broadcast task is handled for its subscribers, and then the broker gives
it back. -/
theorem broadcastHandler_eq_some (h : server.Carries fun _ => True) {ioContext : Nat}
    {mallocs : Nat → Addr} (hhandle : server.broadcastHandler config ioContext mallocs = some next) :
    ∃ task rest delivered,
      Mailbox.take? BroadcastTask.ioContext ioContext server.broker.broadcastTasks
        = some (task, rest) ∧
      task.subscribers.zipIdx.foldlM (Server.deliverTo config task mallocs) server
        = some delivered ∧
      delivered.broker = server.broker ∧ next.flows = delivered.flows ∧
      next.publishes = server.publishes ∧ next.broker.broadcastTasks = rest ∧
      next.broker.conns = server.broker.conns ∧ next.broker.heap = server.broker.heap ∧
      Broker.Change config server.broker (.broadcast ioContext) next.broker := by
  simp only [broadcastHandler, Option.bind_eq_bind, Option.bind_eq_some_iff] at hhandle
  obtain ⟨⟨task, rest⟩, htake, delivered, hdeliver, broker, hbroadcast, hnext⟩ := hhandle
  obtain rfl := Option.some.inj hnext
  have hbroker := deliverAll_broker hdeliver
  have hpublishes := deliverAll_publishes h hdeliver
  rw [hbroker] at hbroadcast
  obtain ⟨hrest, hconns, hheap⟩ := broadcastHandler_frame htake hbroadcast
  exact ⟨task, rest, delivered, htake, hdeliver, hbroker, rfl, hpublishes, hrest, hconns, hheap,
    Broker.broadcastHandler_cases hbroadcast⟩

theorem handlePublishReq_change (hhandle : server.handlePublishReq config = some next) :
    ∃ req, Broker.Change config server.broker (.publish req) next.broker ∧
      next.flows = server.flows := by
  unfold handlePublishReq at hhandle
  split at hhandle
  · cases hhandle
  · rename_i req publishes _
    obtain ⟨broker, hpublish, hnext⟩ := Option.bind_eq_some_iff.mp hhandle
    obtain rfl := Option.some.inj hnext
    have hstep : server.broker.step config (.publish req) = some broker := hpublish
    exact ⟨req, Broker.step_change hstep, rfl⟩

theorem step_change {label : Label Stamped} (hstep : server.step config label = some next) :
    ∃ label', Broker.Change config server.broker label' next.broker :=
  (step_broker hstep).imp fun _ => Broker.step_change

theorem stamp_eq_publish {pkt : Packet Bytes} {n : Nat} {publish : PublishPkt Stamped}
    (hstamp : pkt.stamp n = .publish publish) : publish.payload.stamp = n := by
  cases pkt with
  | publish pkt =>
      obtain rfl := Packet.publish.inj hstamp
      rfl
  | _ => cases hstamp

/-- The will of a CONNECT bears the stamp of the CONNECT. -/
theorem willHas_stamp {n : Nat} (req : ConnectReq Bytes) (hother : mine n = false) :
    ConnectReq.WillHas (fun p : Stamped => mine p.stamp = false) ⟨req.pkt, ⟨n, req.willPayload⟩⟩ := by
  intro will hwill
  unfold ConnectReq.will at hwill
  split at hwill
  · obtain ⟨topic, -, rfl⟩ := Option.map_eq_some_iff.mp hwill
    simpa using hother
  · cases hwill

theorem Streams.step {n : Nat} (h : Streams mine s server entered n)
    (hcarries : server.Carries fun _ => True) {label : Label Bytes}
    (hconnect : ∀ k req fails nextPacketId, label = .broker (.connect k req fails) nextPacketId →
      mine n = false)
    (hfound : label = .publish → ∀ req publishes, server.publishes = req :: publishes →
      mine req.message.message.stamp → Observed.FoundOnce config s server req)
    (hstep : server.step config (label.stamp n) = some next) :
    Streams mine s next (entered ++ enteredBy mine s server (label.stamp n)) (n + 1) := by
  cases label with
  | packet k pkt malloc =>
      obtain ⟨more, hmore, hlength, hmessage⟩ := receivePacket_publishes hcarries hstep
      rw [show enteredBy mine s server (Label.stamp n (.packet k pkt malloc)) = [] from rfl,
        List.append_nil]
      refine h.change (receivePacket_change hstep) (by nofun) (by nofun) (by nofun) hmore hlength ?_
      intro req hreq
      obtain ⟨publish, hpublish, hpayload⟩ := hmessage req hreq
      rw [hpayload]
      exact stamp_eq_publish hpublish
  | publish =>
      rw [show enteredBy mine s server (Label.stamp n .publish) = [] from rfl, List.append_nil]
      exact h.publish (hfound rfl) hstep
  | broadcast ioContext mallocs =>
      obtain ⟨task, rest, delivered, htake, -, -, -, hpublishes, hrest, -, -, hchange⟩ :=
        broadcastHandler_eq_some hcarries hstep
      have hentered : enteredBy mine s server (Label.stamp n (.broadcast ioContext mallocs))
          = entering mine s task := by
        simp only [Label.stamp, enteredBy, htake]
      rw [hentered]
      exact h.broadcast htake hrest hchange hpublishes
  | broker label nextPacketId =>
      obtain ⟨hhandle, hpublish, hbroadcast⟩ := step_handle hstep
      obtain ⟨hchange, hpublishes⟩ := handle_change hcarries hhandle
      rw [show enteredBy mine s server (Label.stamp n (.broker label nextPacketId)) = [] from rfl,
        List.append_nil]
      have hsame : next.publishes = server.publishes ++ [] := by
        rw [List.append_nil]
        exact hpublishes
      refine h.change hchange hpublish hbroadcast ?_ hsame (Nat.zero_le _) (by nofun)
      intro k req fails hlabel
      cases label with
      | connect k' req' fails' =>
          obtain ⟨-, rfl, -⟩ := Broker.Label.connect.inj hlabel
          have hother := hconnect k' req' fails' nextPacketId rfl
          exact willHas_stamp req' hother
      | _ => cases hlabel

theorem Watched.receivePacket (h : Watched mine s server entered transmitted)
    (hcoherent : server.broker.Coherent) (hopen : SessionsOpen server.broker.conns) {k : Nat}
    {pkt : Packet Stamped} {malloc : Addr}
    (hreceive : server.receivePacket config k pkt malloc = some next) :
    Watched mine s next entered
      (transmitted ++ (writtenBy s server next).filterMap (liveStamp mine)) := by
  have hchange := receivePacket_change hreceive
  simp only [Server.receivePacket, Option.bind_eq_bind, Option.bind_eq_some_iff] at hreceive
  obtain ⟨broker, hpacket, conn, hconn, hreceive⟩ := hreceive
  split at hreceive
  · obtain rfl := Option.some.inj hreceive
    have hcalls := Broker.calls_change hcoherent hchange
    rw [Broker.callsOf_eq_nil hchange (.inl ⟨k, rfl⟩)] at hcalls
    obtain ⟨hheap, hattached⟩ := hcalls
    exact h.change hchange (hheap s) (fun k' => hattached k' s) rfl
  · rename_i hstarted
    split at hreceive
    · rename_i s' hup
      split at hreceive
      · cases hreceive
      · have hin := (hcoherent.starting k conn s' hconn hup).resolve_right hstarted
        exact (h.handleEvents hcoherent hopen ⟨conn, hconn, hin, hup⟩ hreceive).watched
    · cases hreceive

theorem Watched.handlePublishReq (h : Watched mine s server entered transmitted)
    (hcoherent : server.broker.Coherent) (hhandle : server.handlePublishReq config = some next) :
    Watched mine s next entered
      (transmitted ++ (writtenBy s server next).filterMap (liveStamp mine)) := by
  obtain ⟨req, hchange, hflows⟩ := handlePublishReq_change hhandle
  have hcalls := Broker.calls_change hcoherent hchange
  rw [Broker.callsOf_eq_nil hchange (.inr (.inl ⟨req, rfl⟩))] at hcalls
  obtain ⟨hheap, hattached⟩ := hcalls
  exact h.change hchange (hheap s) (fun k => hattached k s) (by rw [hflows])

theorem Watched.broadcastHandler (h : Watched mine s server entered transmitted)
    (hcoherent : server.broker.Coherent) (hopen : SessionsOpen server.broker.conns)
    (hcarries : server.Carries fun _ => True) {ioContext : Nat} {mallocs : Nat → Addr}
    (hascending : (entered ++
      enteredBy mine s server (.broadcast ioContext mallocs)).Pairwise (· < ·))
    (htime : ∀ task rest,
      Mailbox.take? BroadcastTask.ioContext ioContext server.broker.broadcastTasks
        = some (task, rest) →
      ∀ entry ∈ task.subscribers, InTime mine s server transmitted task entry)
    (hhandle : server.broadcastHandler config ioContext mallocs = some next) :
    Watched mine s next (entered ++ enteredBy mine s server (.broadcast ioContext mallocs))
      (transmitted ++ (writtenBy s server next).filterMap (liveStamp mine)) := by
  obtain ⟨task, rest, delivered, htake, hdeliver, hbroker, hflows, -, -, hconns, hheap, -⟩ :=
    broadcastHandler_eq_some hcarries hhandle
  have hentered : enteredBy mine s server (.broadcast ioContext mallocs)
      = task.subscribers.zipIdx.filterMap fun entry => stampFor mine s task entry.1 := by
    calc enteredBy mine s server (.broadcast ioContext mallocs)
        = task.subscribers.filterMap (stampFor mine s task) := by
          simp only [enteredBy, htake]
          rfl
      _ = (task.subscribers.zipIdx.map Prod.fst).filterMap (stampFor mine s task) := by
          rw [List.zipIdx_map_fst]
      _ = _ := List.filterMap_map
  rw [hentered] at hascending ⊢
  have hmoves := h.deliverAll hcoherent hopen hascending (fun entry hentry =>
    htime task rest htake entry.1 (List.fst_mem_of_mem_zipIdx hentry)) hdeliver
  have hwritten : writtenBy s server next = writtenBy s server delivered := by
    unfold writtenBy
    rw [hconns, hheap, hflows, hbroker]
  rw [hwritten]
  refine hmoves.watched.frame (by rw [hflows]) ?_ ?_
  · rw [hheap, hbroker]
  · rw [hconns, hbroker]
    exact fun _ hk => hk

namespace Observed

variable {seen next : Observed} {n : Nat}

/-- What holds after `n` steps. -/
structure Accounted (mine : Nat → Bool) (s n : Nat) (seen : Observed) : Prop where
  coherent : seen.server.broker.Coherent
  sessionsOpen : SessionsOpen seen.server.broker.conns
  carries : seen.server.Carries fun _ => True
  streams : Streams mine s seen.server seen.entered n
  watched : Watched mine s seen.server seen.entered seen.transmitted

theorem accounted_init : Accounted mine s 0 init :=
  ⟨Broker.coherent_init, nofun, carries_init, streams_init, watched_init⟩

theorem Timely.inTime {ioContext : Nat} {mallocs : Nat → Addr}
    (h : seen.Timely config mine s (.broadcast ioContext mallocs)) {task : BroadcastTask Stamped}
    {rest : List (BroadcastTask Stamped)}
    (htake : Mailbox.take? BroadcastTask.ioContext ioContext seen.server.broker.broadcastTasks
      = some (task, rest)) {entry : BroadcastEntry} (hentry : entry ∈ task.subscribers) :
    InTime mine s seen.server seen.transmitted task entry := by
  intro hstamp session flow window queue hsession hflow hqueue hroom
  have htimely := h task rest htake entry hentry hstamp session flow hsession hflow
    (hqueue.sendNow_iff.mpr hroom)
  cases hclosed : entry.isSessionClosed with
  | true =>
      rw [hclosed] at htimely
      exact htimely
  | false =>
      rw [hclosed] at htimely
      intro htakes n hn
      rw [← hqueue.take_inflight] at hn
      exact htimely htakes flow queue hflow hqueue.linked n hn

theorem accounted_step (h : Accounted mine s n seen) {label : Label Bytes}
    (hconnect : ∀ k req fails nextPacketId, label = .broker (.connect k req fails) nextPacketId →
      mine n = false)
    (htimely : seen.Timely config mine s (label.stamp n))
    (hstep : seen.step config mine s (label.stamp n) = some next) :
    Accounted mine s (n + 1) next := by
  obtain ⟨server, hserver, hnext⟩ := Option.bind_eq_some_iff.mp hstep
  obtain rfl := Option.some.inj hnext
  obtain ⟨label', hchange⟩ := step_change hserver
  have hstreams : Streams mine s server
      (seen.entered ++ enteredBy mine s seen.server (label.stamp n)) (n + 1) := by
    refine h.streams.step h.carries hconnect ?_ hserver
    rintro rfl
    exact htimely
  have hascending := (List.pairwise_append.mp (List.pairwise_append.mp hstreams.ascending).1).1
  refine ⟨Broker.coherent_change h.coherent hchange, Broker.sessionsOpen_change h.sessionsOpen
    hchange, ?_, hstreams, ?_⟩
  · exact carries_step (fun _ _ => trivial) h.carries (label.stamp n).brings_true hserver
  · cases label with
    | packet k pkt malloc =>
        dsimp only
        rw [show enteredBy mine s seen.server (Label.stamp n (.packet k pkt malloc)) = [] from rfl,
          List.append_nil]
        exact h.watched.receivePacket h.coherent h.sessionsOpen hserver
    | publish =>
        dsimp only
        rw [show enteredBy mine s seen.server (Label.stamp n .publish) = [] from rfl,
          List.append_nil]
        exact h.watched.handlePublishReq h.coherent hserver
    | broadcast ioContext mallocs =>
        exact h.watched.broadcastHandler h.coherent h.sessionsOpen h.carries hascending
          (fun task rest htake entry hentry => htimely.inTime htake hentry) hserver
    | broker label nextPacketId =>
        dsimp only
        rw [show enteredBy mine s seen.server (Label.stamp n (.broker label nextPacketId)) = []
          from rfl, List.append_nil]
        exact h.watched.handle h.coherent (step_handle hserver).1

theorem Accounted.inOrder (h : Accounted mine s n seen) : seen.InOrder mine s := by
  cases hsession : seen.server.broker.heap s with
  | none =>
      obtain ⟨hnone, hentered, htransmitted⟩ := h.watched.absent hsession
      refine ⟨by rw [hentered]; exact .nil, by simp [hentered], ?_, ?_⟩
      · intro flow queue hflow
        rw [hnone] at hflow
        cases hflow
      · intro first m rest hsplit
        rw [htransmitted] at hsplit
        simp at hsplit
  | some session =>
      obtain ⟨flow, window, queue, hflow, hfits⟩ := h.watched.present session hsession
      refine ⟨hfits.inTurn.ascending, ?_, ?_, ?_⟩
      · intro m hm
        rcases hfits.inTurn.gone m hm with hqueued | hsent
        · exact .inr ⟨flow, queue, hflow, hfits.represents.linked, hqueued⟩
        · exact .inl hsent
      · intro found queue' hfound hlinked
        obtain rfl := Option.some.inj (hflow.symm.trans hfound)
        obtain rfl := segment_unique hlinked hfits.represents.linked
        exact hfits.inTurn.queued
      · intro first m rest hsplit
        refine ⟨hfits.inTurn.known m (by simp [hsplit]), ?_⟩
        exact hfits.inTurn.inOrder first m rest hsplit

end Observed

theorem getElem?_stamped {labels : List (Label Bytes)} {n : Nat} {label : Label Stamped}
    (hlabel : (stamped labels)[n]? = some label) :
    ∃ original, labels[n]? = some original ∧ label = original.stamp n := by
  simp only [stamped, List.getElem?_map, Option.map_eq_some_iff, List.getElem?_zipIdx] at hlabel
  obtain ⟨-, ⟨original, horiginal, rfl⟩, rfl⟩ := hlabel
  exact ⟨original, horiginal, by simp⟩

/-- In every run whose steps are timely, the messages of a publisher come into
the queue of a session in the order of their packets, and each of them is first
written after all that came before it. -/
theorem inOrder_of_timely (config : BrokerConfig Stamped J) (labels : List (Label Bytes)) (k s : Nat)
    (hlabels : Run.Admissible (Observed.Timely config (publishedOn labels k) s)
      (Observed.step config (publishedOn labels k) s) .init (stamped labels)) {seen : Observed}
    (hrun : Run.runs (Observed.step config (publishedOn labels k) s) .init (stamped labels)
      = some seen) : seen.InOrder (publishedOn labels k) s := by
  refine Observed.Accounted.inOrder (Run.runs_counts ?_ Observed.accounted_init hlabels hrun)
  intro n state label next h hlabel htimely hstep
  obtain ⟨original, horiginal, rfl⟩ := getElem?_stamped hlabel
  refine Observed.accounted_step h ?_ htimely hstep
  rintro k' req fails nextPacketId rfl
  simp [publishedOn, horiginal]

/-! ### Two runs -/

instance (config : BrokerConfig Stamped J) (s : Nat) (server : Server Stamped)
    (req : PublishReq Stamped) : Decidable (Observed.FoundOnce config s server req) :=
  inferInstanceAs (Decidable (_ ≤ 1))

section Timely

variable {seen : Observed} {ioContext : Nat} {mallocs : Nat → Addr}

theorem Observed.timely_publish (hfound : seen.server.publishes.head?.all
      (fun req => decide (FoundOnce config s seen.server req)) = true) :
    seen.Timely config mine s .publish := by
  intro req publishes hpublishes _
  rw [hpublishes] at hfound
  exact of_decide_eq_true hfound

/-- The task was queued for a closed session, which no connection is in session
with. -/
theorem Observed.timely_away
    (hclosed : (Mailbox.take? BroadcastTask.ioContext ioContext
      seen.server.broker.broadcastTasks).all
        (fun taken => taken.1.subscribers.all BroadcastEntry.isSessionClosed) = true)
    (haway : ∀ k, (seen.server.broker.conns k).all (fun conn =>
      decide (conn.connState ≠ .inSession ∨ conn.upstream ≠ .session s)) = true) :
    seen.Timely config mine s (.broadcast ioContext mallocs) := by
  intro task rest htake entry hentry _ session flow _ _ _
  rw [htake] at hclosed
  rw [if_pos (List.all_eq_true.mp hclosed entry hentry)]
  rintro k ⟨conn, hconn, hin, hup⟩
  have hidle := haway k
  rw [hconn] at hidle
  simp [hin, hup] at hidle

/-- The task was queued for an open session, which has written what it
queues. -/
theorem Observed.timely_back {flow : Session Stamped} {queue : List (QueuedPacket Stamped)}
    (hopened : (Mailbox.take? BroadcastTask.ioContext ioContext
      seen.server.broker.broadcastTasks).all
        (fun taken => taken.1.subscribers.all fun entry => !entry.isSessionClosed) = true)
    (hflow : seen.server.flows s = some flow)
    (hqueue : Segment flow.heap flow.messageStore.sendingQueueHead queue none)
    (hsent : (keys (liveStamp mine) queue).all (fun n => seen.transmitted.contains n) = true) :
    seen.Timely config mine s (.broadcast ioContext mallocs) := by
  intro task rest htake entry hentry _ session _ _ _ _
  rw [htake] at hopened
  have hopen := List.all_eq_true.mp hopened entry hentry
  rw [Bool.not_eq_true'] at hopen
  rw [hopen]
  intro _ found queue' hfound hqueue' n hn
  obtain rfl := Option.some.inj (hflow.symm.trans hfound)
  obtain rfl := segment_unique hqueue' hqueue
  have hqueued : n ∈ keys (liveStamp mine) queue' :=
    ((List.take_sublist _ _).filterMap _).subset hn
  simpa using List.all_eq_true.mp hsent n hqueued

end Timely

def subscribeAndLeave : List (Label Bytes) :=
  [.broker (.accept 0 []) 0, .broker (.connect 0 (connectFrom [65] false) false) 0,
    .broker (.execute (sampleExecution 7)) 0, .broker (.connectComplete 0) 0,
    .broker (.subscribe 0 ⟨1, [⟨[116], 1⟩]⟩) 0, .broker (.execute (sampleExecution 0)) 0,
    .broker (.accept 1 []) 0, .broker (.connect 1 (connectFrom [66] true) false) 0,
    .broker (.execute (sampleExecution 8)) 0, .broker (.connectComplete 1) 0,
    .broker (.disconnect 0) 0, .broker (.execute (sampleExecution 0)) 0,
    .packet 1 (.publish ⟨2, [116], 5, [1]⟩) 0, .publish]

def comeBack : List (Label Bytes) :=
  [.broker (.accept 2 []) 0, .broker (.connect 2 (connectFrom [65] false) false) 0,
    .broker (.execute (sampleExecution 0)) 0, .broker (.connectComplete 0) 0]

def handledAway : List (Label Bytes) :=
  subscribeAndLeave ++ [.broadcast 0 fun _ => 0] ++ comeBack ++
    [.packet 1 (.publish ⟨2, [116], 6, [2]⟩) 0, .publish, .broadcast 0 fun _ => 1]

def handledBack : List (Label Bytes) :=
  subscribeAndLeave ++ comeBack ++
    [.broadcast 0 fun _ => 0, .packet 1 (.publish ⟨2, [116], 6, [2]⟩) 0, .publish,
      .broadcast 0 fun _ => 1]

theorem inOrder_handledAway :
    ∃ seen, Run.runs (Observed.step stampedConfig (publishedOn handledAway 1) 7) .init
        (stamped handledAway) = some seen ∧ seen.InOrder (publishedOn handledAway 1) 7 := by
  refine ⟨_, rfl, ?_⟩
  refine inOrder_of_timely stampedConfig handledAway 1 7
    ⟨trivial, trivial, trivial, trivial, trivial, trivial, trivial, trivial, trivial, trivial,
      trivial, trivial, trivial, Observed.timely_publish rfl, ?_, trivial, trivial, trivial,
      trivial, trivial, Observed.timely_publish rfl, ?_, trivial⟩ rfl
  · refine Observed.timely_away rfl ?_
    intro k
    match k with
    | 0 | 1 | _ + 2 => rfl
  · exact @Observed.timely_back _ _ _ _ _ _ _ _ [(0, ⟨0, .publish ⟨2, [116], 0, ⟨12, [1]⟩⟩⟩)] rfl
      rfl ⟨rfl, none, rfl, rfl⟩ rfl

/-- The second message is written and the first, which is only stored, is
not. -/
theorem not_inOrder_handledBack :
    ∃ seen, Run.runs (Observed.step stampedConfig (publishedOn handledBack 1) 7) .init
        (stamped handledBack) = some seen ∧ ¬ seen.InOrder (publishedOn handledBack 1) 7 := by
  refine ⟨_, rfl, ?_⟩
  intro h
  obtain ⟨-, hbefore⟩ := h.transmitted [] 19 [] rfl
  have hfirst := hbefore 12 (show 12 ∈ [12, 19] by simp) (by decide)
  cases hfirst

end Server

end TinyMqtt
