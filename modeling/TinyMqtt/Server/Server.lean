import TinyMqtt.Broker.Change
import TinyMqtt.Session.Session

/-!
The broker together with the publish flows of its sessions. A step runs a
handler of the broker and then the functions of the sessions that the handler
calls; what a session hands to its connection is written there, and the
messages it passes on are published.

The publish requests of priority 0 wait in a queue of their own. Messages from
other members of a cluster and delayed messages are left out.
-/

namespace TinyMqtt

open LinkedList

variable {π J : Type}

structure Server (π : Type) where
  broker : Broker π
  /-- the publish flows of the sessions in memory -/
  flows : Nat → Option (Session π)
  /-- the packets of publish flows that were written to each connection -/
  written : Nat → List (Packet π)
  publishes : List (PublishReq π)

def connected (conns : Nat → Option ClientConn) (k : Nat) : Bool :=
  (conns k).any fun conn => conn.state = .connected

variable [TmqString π]

namespace Server

def init : Server π := ⟨.init, fun _ => none, fun _ => [], []⟩

/-- `tmq_send_any_packet`. A connection that is closed takes nothing. -/
def write (server : Server π) (k : Nat) (packets : List (Packet π)) : Server π :=
  if connected server.broker.conns k then
    { server with written := Function.update server.written k (server.written k ++ packets) }
  else server

/-- `mqtt_publish`, the broker's `on_new_message`. -/
def mqttPublish (config : BrokerConfig π J) (session : SessionRecord π) (server : Server π)
    (passed : Bytes × MqttMessage π × Nat) : Server π :=
  if config.aclDenies session passed.1 .pub then server
  else
    { server with
      publishes := server.publishes ++
        [{ topic := passed.1, message := passed.2.1, retain := passed.2.2 ≠ 0,
           isTunneledPub := false, publisherUsername := tmqStrNew session.username,
           publisherClientId := tmqStrNew session.clientId }] }

def runFlow (config : BrokerConfig π J) (server : Server π) (s : Nat)
    (run : Session π → Option (Session π)) : Option (Server π) := do
  let session ← server.broker.heap s
  let flow ← server.flows s
  let next ← run flow
  let server := { server with flows := Function.update server.flows s (some next) }
  let server := server.write session.conn (next.sent.drop flow.sent.length)
  some ((next.passed.drop flow.passed.length).foldl (mqttPublish config session) server)

/-! ### Packets -/

/-- `malloc` returns memory that is not in use. A PUBREC frees the PUBLISH
that it acknowledges before it needs memory. -/
def mallocFree (malloc : Addr) (flow : Session π) : Event π → Bool
  | .onPubRec _ packetId => (acknowledge flow packetId .publish 2).all fun acked =>
      (acked.heap malloc).isNone
  | _ => true

/-- What the codec does with a packet: it writes acknowledgements itself and
calls the session for the rest. -/
def handleEvent (config : BrokerConfig π J) (k s : Nat) (malloc : Addr) (server : Server π)
    (event : Event π) : Option (Server π) :=
  match event with
  | .send pkt => some (server.write k [pkt])
  | event => server.runFlow config s fun flow =>
      if mallocFree malloc flow event then TinyMqtt.handleEvent malloc flow event else none

/-- A packet of the publish flows arrives. Other packets are steps of the
broker. -/
def receivePacket (config : BrokerConfig π J) (server : Server π) (k : Nat) (pkt : Packet π)
    (malloc : Addr) : Option (Server π) := do
  let broker ← server.broker.receivePacket k
  let conn ← server.broker.conns k
  if conn.connState = .noSession then some { server with broker := broker }
  else
    match conn.upstream with
    | .session s =>
        let events := publishFlowEvents (.session s) pkt
        if events.isEmpty then none else events.foldlM (handleEvent config k s malloc) server
    | _ => none

/-! ### Broadcast tasks -/

def deliveryQos (entry : BroadcastEntry) (message : MqttMessage π) : UInt8 :=
  if entry.qos.toNat < message.qos then entry.qos else UInt8.ofNat message.qos

/-- `broadcast_handler` for one subscriber. -/
def deliverTo (config : BrokerConfig π J) (task : BroadcastTask π) (mallocs : Nat → Addr)
    (server : Server π) (entry : BroadcastEntry × Nat) : Option (Server π) :=
  server.runFlow config entry.1.session fun flow =>
    if (flow.heap (mallocs entry.2)).isSome then none
    else tmqSessionPublish flow (mallocs entry.2) task.topic task.message.message
      (deliveryQos entry.1 task.message) (if task.retain then 1 else 0) entry.1.isSessionClosed

/-- `broadcast_handler`. The sessions are called before the references of the
task are given back. -/
def broadcastHandler (config : BrokerConfig π J) (server : Server π) (ioContext : Nat)
    (mallocs : Nat → Addr) : Option (Server π) := do
  let (task, _) ← Mailbox.take? BroadcastTask.ioContext ioContext server.broker.broadcastTasks
  let server ← task.subscribers.zipIdx.foldlM (deliverTo config task mallocs) server
  let broker ← server.broker.broadcastHandler ioContext
  some { server with broker := broker }

/-! ### The other handlers -/

/-- The calls of `tmq_session_new` and `tmq_session_start` that the broker has
logged. -/
def follow (config : BrokerConfig π J) (nextPacketId : UInt16) (server : Server π) :
    BrokerEvent π → Option (Server π)
  | .sessionNew s => some { server with
      flows := Function.update server.flows s
        (some (tmqSessionNew false nextPacketId config.inflightWindowSize)) }
  | .sessionStart s => server.runFlow config s tmqSessionStart
  | _ => some server

/-- A handler of the broker, and the session's part in it. -/
def handle (config : BrokerConfig π J) (server : Server π) (label : Broker.Label π)
    (nextPacketId : UInt16) : Option (Server π) := do
  let broker ← server.broker.step config label
  (broker.log.drop server.broker.log.length).foldlM (follow config nextPacketId)
    { server with broker := broker }

def handlePublishReq (config : BrokerConfig π J) (server : Server π) : Option (Server π) :=
  match server.publishes with
  | [] => none
  | req :: publishes => do
      let broker ← server.broker.topicsPublish config req
      some { server with broker := broker, publishes := publishes }

/-- One step of the server. A packet of the publish flows, a publish and a
broadcast task have labels of their own. -/
inductive Label (π : Type) where
  | packet (k : Nat) (pkt : Packet π) (malloc : Addr)
  | publish
  | broadcast (ioContext : Nat) (mallocs : Nat → Addr)
  /-- any other step of the broker; the first packet identifier of a new
  session is random -/
  | broker (label : Broker.Label π) (nextPacketId : UInt16)

def step (config : BrokerConfig π J) (server : Server π) : Label π → Option (Server π)
  | .packet k pkt malloc => server.receivePacket config k pkt malloc
  | .publish => server.handlePublishReq config
  | .broadcast ioContext mallocs => server.broadcastHandler config ioContext mallocs
  | .broker (.publish _) _ | .broker (.broadcast _) _ => none
  | .broker label nextPacketId => server.handle config label nextPacketId

/-! ### What a function of a session changes -/

section FlowRun

omit [TmqString π]

theorem write_frame (server : Server π) (k : Nat) (packets : List (Packet π)) :
    (server.write k packets).broker = server.broker ∧
      (server.write k packets).flows = server.flows ∧
      (server.write k packets).publishes = server.publishes := by
  unfold write
  split <;> exact ⟨rfl, rfl, rfl⟩

theorem written_write (server : Server π) (k k' : Nat) (packets : List (Packet π)) :
    (server.write k packets).written k' = server.written k' ++
      if k' = k ∧ connected server.broker.conns k = true then packets else [] := by
  unfold write
  split
  · rename_i hopen
    by_cases hk : k' = k
    · subst hk
      simp [hopen]
    · simp [hk]
  · rename_i hclosed
    simp [hclosed]

/-- A function of the session took its flow to `after`. -/
structure FlowRun (server next : Server π) (s : Nat) (session : SessionRecord π)
    (flow after : Session π) : Prop where
  found : server.broker.heap s = some session
  current : server.flows s = some flow
  broker : next.broker = server.broker
  flows : next.flows = Function.update server.flows s (some after)
  written : next.written = (server.write session.conn (after.sent.drop flow.sent.length)).written
  publishes : ∀ req ∈ next.publishes, req ∈ server.publishes ∨
    ∃ passed ∈ after.passed.drop flow.passed.length, req.message = passed.2.1

theorem mqttPublish_frame (config : BrokerConfig π J) (session : SessionRecord π)
    (server : Server π) (passed : Bytes × MqttMessage π × Nat) :
    (mqttPublish config session server passed).broker = server.broker ∧
      (mqttPublish config session server passed).flows = server.flows ∧
      (mqttPublish config session server passed).written = server.written := by
  unfold mqttPublish
  split <;> exact ⟨rfl, rfl, rfl⟩

theorem foldl_mqttPublish (config : BrokerConfig π J) (session : SessionRecord π)
    (messages : List (Bytes × MqttMessage π × Nat)) (server : Server π) :
    (messages.foldl (mqttPublish config session) server).broker = server.broker ∧
      (messages.foldl (mqttPublish config session) server).flows = server.flows ∧
      (messages.foldl (mqttPublish config session) server).written = server.written := by
  induction messages generalizing server with
  | nil => exact ⟨rfl, rfl, rfl⟩
  | cons passed messages ih =>
      obtain ⟨hbroker, hflows, hwritten⟩ := ih (mqttPublish config session server passed)
      obtain ⟨hbroker', hflows', hwritten'⟩ := mqttPublish_frame config session server passed
      exact ⟨hbroker.trans hbroker', hflows.trans hflows', hwritten.trans hwritten'⟩

/-- The request that `mqtt_publish` posts. -/
def publishReqOf (session : SessionRecord π) (passed : Bytes × MqttMessage π × Nat) :
    PublishReq π :=
  { topic := passed.1, message := passed.2.1, retain := passed.2.2 ≠ 0, isTunneledPub := false,
    publisherUsername := tmqStrNew session.username,
    publisherClientId := tmqStrNew session.clientId }

/-- Of the messages a session passes on, those that are not denied are posted. -/
theorem foldl_mqttPublish_posts (config : BrokerConfig π J) (session : SessionRecord π)
    (messages : List (Bytes × MqttMessage π × Nat)) (server : Server π) :
    (messages.foldl (mqttPublish config session) server).publishes = server.publishes ++
      (messages.filter fun passed => !config.aclDenies session passed.1 .pub).map
        (publishReqOf session) := by
  induction messages generalizing server with
  | nil => exact (List.append_nil _).symm
  | cons passed messages ih =>
      rw [List.foldl_cons, ih]
      by_cases hdenied : config.aclDenies session passed.1 .pub = true
      · simp [mqttPublish, hdenied]
      · simp [mqttPublish, hdenied, publishReqOf]

/-- What the function of a session that runs posts. -/
theorem runFlow_posts {config : BrokerConfig π J} {server next : Server π} {s : Nat}
    {run : Session π → Option (Session π)} (hrun : server.runFlow config s run = some next) :
    ∃ session flow after, run flow = some after ∧ server.broker.heap s = some session ∧
      server.flows s = some flow ∧ next.flows s = some after ∧
      next.publishes = server.publishes ++
        ((after.passed.drop flow.passed.length).filter fun passed =>
          !config.aclDenies session passed.1 .pub).map (publishReqOf session) := by
  simp only [runFlow, Option.bind_eq_bind, Option.bind_eq_some_iff] at hrun
  obtain ⟨session, hsession, flow, hflow, after, hafter, hrun⟩ := hrun
  obtain rfl := Option.some.inj hrun
  refine ⟨session, flow, after, hafter, hsession, hflow, ?_, ?_⟩
  · rw [(foldl_mqttPublish config session _ _).2.1, (write_frame _ _ _).2.1]
    exact Function.update_self ..
  · rw [foldl_mqttPublish_posts, (write_frame _ _ _).2.2]

theorem runFlow_eq_some {config : BrokerConfig π J} {server next : Server π} {s : Nat}
    {run : Session π → Option (Session π)} (hrun : server.runFlow config s run = some next) :
    ∃ session flow after, run flow = some after ∧ FlowRun server next s session flow after := by
  simp only [runFlow, Option.bind_eq_bind, Option.bind_eq_some_iff] at hrun
  obtain ⟨session, hsession, flow, hflow, after, hafter, hrun⟩ := hrun
  obtain rfl := Option.some.inj hrun
  let updated : Server π := { server with flows := Function.update server.flows s (some after) }
  obtain ⟨hbroker, hflows, hpublishes⟩ :=
    updated.write_frame session.conn (after.sent.drop flow.sent.length)
  obtain ⟨hbroker', hflows', hwritten'⟩ := foldl_mqttPublish config session
    (after.passed.drop flow.passed.length)
    (updated.write session.conn (after.sent.drop flow.sent.length))
  refine ⟨session, flow, after, hafter, hsession, hflow, hbroker'.trans hbroker,
    hflows'.trans hflows, hwritten'.trans ?_, ?_⟩
  · funext k
    rw [written_write, written_write]
  · intro req hreq
    rw [foldl_mqttPublish_posts, hpublishes] at hreq
    rcases List.mem_append.mp hreq with hold | hnew
    · exact .inl hold
    · obtain ⟨passed, hpassed, rfl⟩ := List.mem_map.mp hnew
      exact .inr ⟨passed, List.mem_of_mem_filter hpassed, rfl⟩

end FlowRun

variable {config : BrokerConfig π J} {server next : Server π} {s : Nat}

theorem handleEvent_of_ne_send {k : Nat} {malloc : Addr} {event : Event π}
    (hsend : ∀ pkt, event ≠ .send pkt) :
    server.handleEvent config k s malloc event = server.runFlow config s fun flow =>
      if mallocFree malloc flow event then TinyMqtt.handleEvent malloc flow event else none := by
  cases event with
  | send pkt => exact absurd rfl (hsend pkt)
  | _ => rfl

theorem handleEvent_eq_some {k : Nat} {malloc : Addr} {event : Event π}
    (hhandle : server.handleEvent config k s malloc event = some next) :
    (∃ pkt, event = .send pkt ∧ next = server.write k [pkt]) ∨
      (∀ pkt, event ≠ .send pkt) ∧ ∃ session flow after,
        TinyMqtt.handleEvent malloc flow event = some after ∧
        (∀ upstream packetId acked, event = .onPubRec upstream packetId →
          acknowledge flow packetId .publish 2 = some acked → acked.heap malloc = none) ∧
        FlowRun server next s session flow after := by
  by_cases hsend : ∃ pkt, event = .send pkt
  · obtain ⟨pkt, rfl⟩ := hsend
    exact .inl ⟨pkt, rfl, (Option.some.inj hhandle).symm⟩
  · have hsend' : ∀ pkt, event ≠ .send pkt := fun pkt heq => hsend ⟨pkt, heq⟩
    rw [handleEvent_of_ne_send hsend'] at hhandle
    obtain ⟨session, flow, after, hafter, hrun⟩ := runFlow_eq_some hhandle
    split at hafter
    · rename_i hfree
      refine .inr ⟨hsend', session, flow, after, hafter, ?_, hrun⟩
      rintro upstream packetId acked rfl hacked
      simpa [mallocFree, hacked] using hfree
    · cases hafter

theorem deliverTo_eq_some {task : BroadcastTask π} {mallocs : Nat → Addr}
    {entry : BroadcastEntry × Nat}
    (hdeliver : server.deliverTo config task mallocs entry = some next) :
    ∃ session flow after, flow.heap (mallocs entry.2) = none ∧
      tmqSessionPublish flow (mallocs entry.2) task.topic task.message.message
        (deliveryQos entry.1 task.message) (if task.retain then 1 else 0) entry.1.isSessionClosed
          = some after ∧
      FlowRun server next entry.1.session session flow after := by
  obtain ⟨session, flow, after, hafter, hrun⟩ := runFlow_eq_some hdeliver
  split at hafter
  · cases hafter
  · rename_i hfree
    exact ⟨session, flow, after, Option.not_isSome_iff_eq_none.mp hfree, hafter, hrun⟩

/-! ### The steps of the broker -/

theorem handleEvents_broker {k : Nat} {malloc : Addr} {events : List (Event π)}
    (hhandle : events.foldlM (Server.handleEvent config k s malloc) server = some next) :
    next.broker = server.broker := by
  induction events generalizing server with
  | nil =>
      obtain rfl := Option.some.inj hhandle
      rfl
  | cons event events ih =>
      rw [List.foldlM_cons] at hhandle
      obtain ⟨middle, hfirst, hrest⟩ := Option.bind_eq_some_iff.mp hhandle
      rw [ih hrest]
      rcases handleEvent_eq_some hfirst with ⟨pkt, -, rfl⟩ | ⟨-, session, flow, after, -, -, hrun⟩
      · exact (server.write_frame k [pkt]).1
      · exact hrun.broker

theorem follow_broker {nextPacketId : UInt16} {events : List (BrokerEvent π)}
    (hfollow : events.foldlM (Server.follow config nextPacketId) server = some next) :
    next.broker = server.broker := by
  induction events generalizing server with
  | nil =>
      obtain rfl := Option.some.inj hfollow
      rfl
  | cons event events ih =>
      rw [List.foldlM_cons] at hfollow
      obtain ⟨middle, hfirst, hrest⟩ := Option.bind_eq_some_iff.mp hfollow
      rw [ih hrest]
      cases event with
      | sessionStart s =>
          obtain ⟨_, _, _, -, hrun⟩ := runFlow_eq_some hfirst
          exact hrun.broker
      | _ =>
          obtain rfl := Option.some.inj hfirst
          rfl

theorem deliverAll_broker {task : BroadcastTask π} {mallocs : Nat → Addr}
    {entries : List (BroadcastEntry × Nat)}
    (hdeliver : entries.foldlM (Server.deliverTo config task mallocs) server = some next) :
    next.broker = server.broker := by
  induction entries generalizing server with
  | nil =>
      obtain rfl := Option.some.inj hdeliver
      rfl
  | cons entry entries ih =>
      rw [List.foldlM_cons] at hdeliver
      obtain ⟨middle, hfirst, hrest⟩ := Option.bind_eq_some_iff.mp hdeliver
      rw [ih hrest]
      obtain ⟨_, _, _, -, -, hrun⟩ := deliverTo_eq_some hfirst
      exact hrun.broker

theorem step_handle {label : Broker.Label π} {nextPacketId : UInt16}
    (hstep : server.step config (.broker label nextPacketId) = some next) :
    server.handle config label nextPacketId = some next ∧ (∀ req, label ≠ .publish req) ∧
      ∀ ioContext, label ≠ .broadcast ioContext := by
  cases label <;> first
    | exact ⟨hstep, nofun, nofun⟩
    | cases hstep

def brokerLabel (server : Server π) : Label π → Option (Broker.Label π)
  | .packet k _ _ => some (.packet k)
  | .publish => server.publishes.head?.map .publish
  | .broadcast ioContext _ => some (.broadcast ioContext)
  | .broker label _ => some label

theorem step_brokerLabel {label : Label π} (hstep : server.step config label = some next) :
    ∃ label', server.brokerLabel label = some label' ∧
      server.broker.step config label' = some next.broker := by
  cases label with
  | packet k pkt malloc =>
      refine ⟨.packet k, rfl, ?_⟩
      simp only [step, receivePacket, Option.bind_eq_bind, Option.bind_eq_some_iff] at hstep
      obtain ⟨broker, hpacket, conn, hconn, hstep⟩ := hstep
      split at hstep
      · obtain rfl := Option.some.inj hstep
        exact hpacket
      · rename_i hstarted
        split at hstep
        · rename_i s hup
          split at hstep
          · cases hstep
          · rw [handleEvents_broker hstep]
            change server.broker.receivePacket k = _
            simp only [Broker.receivePacket, Broker.gate, Broker.readable, hconn,
              Option.bind_eq_bind, Option.bind_some] at hpacket ⊢
            split at hpacket
            · rename_i hreadable
              simp only [Option.bind_some, hstarted, if_false, hup] at hpacket ⊢
              simp [hreadable, hstarted, hup]
            · cases hpacket
        · cases hstep
  | publish =>
      simp only [step, handlePublishReq] at hstep
      split at hstep
      · cases hstep
      · rename_i req publishes hpublishes
        obtain ⟨broker, hpublish, hnext⟩ := Option.bind_eq_some_iff.mp hstep
        obtain rfl := Option.some.inj hnext
        exact ⟨.publish req, by rw [brokerLabel, hpublishes]; rfl, hpublish⟩
  | broadcast ioContext mallocs =>
      simp only [step, broadcastHandler, Option.bind_eq_bind, Option.bind_eq_some_iff] at hstep
      obtain ⟨⟨task, rest⟩, -, delivered, hdeliver, broker, hbroadcast, hnext⟩ := hstep
      obtain rfl := Option.some.inj hnext
      rw [deliverAll_broker hdeliver] at hbroadcast
      exact ⟨.broadcast ioContext, rfl, hbroadcast⟩
  | broker label nextPacketId =>
      obtain ⟨broker, hbroker, hfollow⟩ := Option.bind_eq_some_iff.mp (step_handle hstep).1
      exact ⟨label, rfl, by rw [follow_broker hfollow]; exact hbroker⟩

/-- Every step of the server is one of the broker. -/
theorem step_broker {label : Label π} (hstep : server.step config label = some next) :
    ∃ label', server.broker.step config label' = some next.broker := by
  obtain ⟨label', -, hbroker⟩ := step_brokerLabel hstep
  exact ⟨label', hbroker⟩

/-- The broker of a server runs as a broker does. -/
theorem runs_broker {labels : List (Label π)}
    (hrun : Run.runs (step config) init labels = some server) :
    ∃ labels', Run.runs (Broker.step config) Broker.init labels' = some server.broker :=
  @Run.runs_project _ _ _ _ (step config) (Broker.step config) Server.broker
    (fun _ _ _ => step_broker) init server labels hrun

end Server

end TinyMqtt
