import TinyMqtt.Cluster.Codec
import TinyMqtt.Cluster.Effects
import TinyMqtt.Codec.Accepted
import TinyMqtt.Server.Messages
import TinyMqtt.Server.PlainTopics

/-!
A server that is a node of a cluster, and the QoS of the messages in it. A
publish comes from a client of the server or, through a tunnel, from another
member; it goes to the subscribers and, through tunnels, to the members that
have routes. The members and their routes may change at any time. What the
server announces about its own filters carries no message and is left out.

A will and the filters of a SUBSCRIBE are checked for their QoS, but the two QoS
bits of a PUBLISH are not.
-/

namespace TinyMqtt

open LinkedList

variable {π J : Type}

/-- A server with its part of `tmq_cluster_t`. -/
structure ClusterServer (π : Type) where
  server : Server π
  members : MemberMap
  messageSendBox : List (ClusterMessage π)

namespace ClusterServer

inductive Label (π : Type) where
  /-- a step of the server; the members that a publish matches are walked in
  the given order -/
  | server (label : Server.Label π) (walk : List Bytes)
  /-- `receive_tunnel_publish_handler` -/
  | tunnelPublish (pkt : PublishPkt π)
  /-- `handle_cluster_member_operation` -/
  | addMember (conn : MemberConn)
  /-- `handle_cluster_route_operation` -/
  | addRoutes (memberAddr topicFilters : Bytes)

variable [TmqString π]

def init : ClusterServer π := ⟨.init, ∅, []⟩

/-- The part of `tmq_topics_publish` that concerns the members. -/
def routeOnMatch (config : BrokerConfig π J) (node : ClusterServer π) (req : PublishReq π)
    (walk : List Bytes) : Option (List (ClusterMessage π)) :=
  match (tmqTopicsPublish config.cJsonParse node.server.broker.topicsTree req).2.2 with
  | none => some []
  | some matchedMembers =>
      if walk.Nodup ∧ walk.toFinset = matchedMembers then
        ClusterNode.mqttTunPublish node.members req.topic req.message walk
      else none

def tunneledBy (config : BrokerConfig π J) (node : ClusterServer π) (label : Server.Label π)
    (walk : List Bytes) : Option (List (ClusterMessage π)) :=
  match node.server.publishedBy label with
  | none => some []
  | some req => node.routeOnMatch config req walk

/-- `mqtt_publish` of a message from a tunnel, which no session is asked for. -/
def receiveTunnelPublishHandler (server : Server π) (pkt : PublishPkt π) : Server π :=
  { server with
    publishes := server.publishes ++
      [{ topic := pkt.topic, message := ⟨pkt.payload, publishQos pkt.flags⟩,
         retain := publishRetain pkt.flags = 1, isTunneledPub := true,
         publisherUsername := tmqStrNew [], publisherClientId := tmqStrNew [] }] }

/-- The routes of a message to the topic tree. The tree gets the string of all
filters each time. -/
def addRoutes (broker : Broker π) (memberAddr topicFilters : Bytes) (filters : List Bytes) :
    Broker π :=
  { broker with
    topicsTree := filters.foldl
      (fun topics _ => tmqTopicsAddRoute topics topicFilters memberAddr) broker.topicsTree }

def step (config : BrokerConfig π J) (node : ClusterServer π) :
    Label π → Option (ClusterServer π)
  | .server label walk => do
      let messages ← node.tunneledBy config label walk
      let server ← node.server.step config label
      some { node with server := server, messageSendBox := node.messageSendBox ++ messages }
  | .tunnelPublish pkt =>
      some { node with server := receiveTunnelPublishHandler node.server pkt }
  | .addMember conn =>
      some { node with members := node.members.insert (cstr (tmqTcpConnId conn)) conn }
  | .addRoutes memberAddr topicFilters => do
      let filters ← routeFilters [] (topicFilters ++ [0])
      some { node with server :=
        { node.server with broker := addRoutes node.server.broker memberAddr topicFilters filters } }

/-! ### Messages -/

variable {config : BrokerConfig π J} {node next : ClusterServer π} {M : MqttMessage π → Prop}

structure HoldsMessages (M : MqttMessage π → Prop) (node : ClusterServer π) : Prop where
  server : node.server.HoldsMessages M
  tunnels : ∀ conn topic message retain,
    .tunPublish conn topic message retain ∈ node.messageSendBox → M message

theorem holdsMessages_init : (init : ClusterServer π).HoldsMessages M :=
  ⟨Server.holdsMessages_init, nofun⟩

end ClusterServer

/-- A request that a step publishes waited for it, or is the will of a session. -/
theorem Server.HoldsMessages.publishedBy {M : MqttMessage π → Prop} [TmqString π]
    {config : BrokerConfig π J} {server next : Server π} (hforward : Forwardable M)
    (h : server.HoldsMessages M) {label : Server.Label π}
    (hstep : server.step config label = some next) {req : PublishReq π}
    (hreq : server.publishedBy label = some req) : M req.message := by
  obtain ⟨label', hlabel, hpublished⟩ := Option.bind_eq_some_iff.mp hreq
  -- a request of its own does not come with the label
  have hwaits : ∀ req, label' = .publish req → req ∈ server.publishes := by
    rintro req rfl
    cases label with
    | publish =>
        obtain ⟨first, hfirst, heq⟩ := Option.map_eq_some_iff.mp hlabel
        obtain rfl := Broker.Label.publish.inj heq
        exact List.mem_of_mem_head? hfirst
    | broker label nextPacketId =>
        obtain rfl := Option.some.inj hlabel
        exact absurd rfl ((step_handle hstep).2.1 req)
    | _ => cases hlabel
  cases label' with
  | publish found =>
      obtain rfl := Option.some.inj hpublished
      exact h.publishes _ (hwaits _ rfl)
  | execute run =>
      simp only [Broker.publishedBy] at hpublished
      split at hpublished
      · obtain ⟨session, hsession, hpublished⟩ := Option.bind_eq_some_iff.mp hpublished
        obtain ⟨will, hwill, hpublished⟩ := Option.bind_eq_some_iff.mp hpublished
        obtain rfl := Option.some.inj hpublished
        exact hforward.copy (h.broker.wills _ session will hsession hwill)
      · cases hpublished
  | _ => cases hpublished

namespace ClusterServer

variable [TmqString π] {config : BrokerConfig π J} {node next : ClusterServer π}
  {M : MqttMessage π → Prop}

/-- The messages in tunnels are copies of the one that is published. -/
theorem HoldsMessages.tunneledBy (hforward : Forwardable M) (h : node.HoldsMessages M)
    {label : Server.Label π} {walk : List Bytes} {server : Server π}
    (hstep : node.server.step config label = some server) {messages : List (ClusterMessage π)}
    (htunneled : node.tunneledBy config label walk = some messages) :
    ∀ conn topic message retain, .tunPublish conn topic message retain ∈ messages → M message := by
  intro conn topic message retain hmem
  unfold ClusterServer.tunneledBy at htunneled
  split at htunneled
  · obtain rfl := Option.some.inj htunneled
    cases hmem
  · rename_i req hreq
    have hmessage : M req.message := h.server.publishedBy hforward hstep hreq
    unfold routeOnMatch at htunneled
    split at htunneled
    · obtain rfl := Option.some.inj htunneled
      cases hmem
    · split at htunneled
      · obtain ⟨conns, -, rfl⟩ := ClusterNode.mqttTunPublish_eq htunneled
        obtain ⟨conn', -, heq⟩ := List.mem_map.mp hmem
        obtain ⟨-, -, rfl, -⟩ := ClusterMessage.tunPublish.inj heq
        exact hforward.copy hmessage
      · cases htunneled

omit [TmqString π] in
theorem retainsMessage_addRoutes {filters : List Bytes} {topics : Topics π}
    (h : topics.root.All (RetainsMessage M)) (memberAddr topicFilters : Bytes) :
    (filters.foldl (fun topics _ => tmqTopicsAddRoute topics topicFilters memberAddr)
      topics).root.All (RetainsMessage M) := by
  induction filters generalizing topics with
  | nil => exact h
  | cons topicFilter filters ih =>
      have hroot : (tmqTopicsAddRoute topics topicFilters memberAddr).root.All
          (RetainsMessage M) := by
        unfold tmqTopicsAddRoute
        dsimp only
        apply (h.grow retainsMessage_new _).modifyValue
        intro data hdata
        exact hdata
      exact ih hroot

/-- What a step of a clustered server keeps, given what the step of the server
keeps. -/
theorem holdsMessages_step (hforward : Forwardable M) (h : node.HoldsMessages M) {label : Label π}
    (hserver : ∀ label' walk server, label = .server label' walk →
      node.server.step config label' = some server → server.HoldsMessages M)
    (htunnel : ∀ pkt, label = .tunnelPublish pkt → M pkt.asMessage)
    (hstep : node.step config label = some next) : next.HoldsMessages M := by
  cases label with
  | server label walk =>
      obtain ⟨messages, htunneled, hstep⟩ := Option.bind_eq_some_iff.mp hstep
      obtain ⟨server, hnext, hstep⟩ := Option.bind_eq_some_iff.mp hstep
      obtain rfl := Option.some.inj hstep
      refine ⟨hserver label walk server rfl hnext, ?_⟩
      intro conn topic message retain hmem
      rcases List.mem_append.mp hmem with hold | hnew
      · exact h.tunnels conn topic message retain hold
      · exact h.tunneledBy hforward hnext htunneled conn topic message retain hnew
  | tunnelPublish pkt =>
      obtain rfl := Option.some.inj hstep
      refine ⟨⟨h.server.broker, h.server.flows, ?_, h.server.written⟩, h.tunnels⟩
      intro req hmem
      rcases List.mem_append.mp hmem with hold | hnew
      · exact h.server.publishes req hold
      · rw [List.mem_singleton.mp hnew]
        exact htunnel pkt rfl
  | addMember conn =>
      obtain rfl := Option.some.inj hstep
      exact ⟨h.server, h.tunnels⟩
  | addRoutes memberAddr topicFilters =>
      obtain ⟨filters, -, hstep⟩ := Option.bind_eq_some_iff.mp hstep
      obtain rfl := Option.some.inj hstep
      have hroot := @retainsMessage_addRoutes π M filters _ h.server.broker.retained memberAddr
        topicFilters
      exact ⟨⟨h.server.broker.setRoot hroot, h.server.flows, h.server.publishes,
        h.server.written⟩, h.tunnels⟩

end ClusterServer

/-! ### The QoS of messages -/

def ValidQos (message : MqttMessage π) : Prop := message.qos ≤ 2

theorem forwardable_validQos [TmqString π] : Forwardable (ValidQos : MqttMessage π → Prop) := by
  rintro message ⟨original, horiginal, -, hqos⟩
  exact hqos.trans horiginal

def Server.Label.packet? : Server.Label Bytes → Option (Packet Bytes)
  | .packet _ pkt _ => some pkt
  | .broker (.connect _ req _) _ => some (.connect req.pkt)
  | .broker (.disconnect _) _ => some .disconnect
  | .broker (.subscribe _ pkt) _ => some (.subscribe pkt)
  | .broker (.unsubscribe _ pkt) _ => some (.unsubscribe pkt)
  | _ => none

namespace Server

variable {config : BrokerConfig Bytes J} {server next : Server Bytes}

/-- A PUBLISH to the topic reaches the topic tree: its connection is in session,
and access control does not deny it. -/
def Admits (config : BrokerConfig Bytes J) (server : Server Bytes) (k : Nat) (topic : Bytes) :
    Prop :=
  ∃ conn s session, server.broker.conns k = some conn ∧ conn.connState ≠ .noSession ∧
    conn.upstream = .session s ∧ server.broker.heap s = some session ∧
    config.aclDenies session topic .pub = false

theorem validQos_will {req : ConnectReq Bytes} (haccepted : Accepted (.connect req.pkt)) :
    req.WillIs ValidQos := by
  have hvalid := connectFlagsValid_of_accepted haccepted
  intro will hwill
  unfold ConnectReq.will at hwill
  split at hwill
  · obtain ⟨topic, -, rfl⟩ := Option.map_eq_some_iff.mp hwill
    have hqos : ¬ connectWillQos req.pkt.flags > 2 := by
      intro hlarge
      simp [connectFlagsValid, hlarge] at hvalid
    exact not_lt.mp hqos
  · cases hwill

/-- What becomes of a PUBLISH that the codec does not acknowledge. -/
theorem receivePacket_unacknowledged {k : Nat} {pkt : PublishPkt Bytes} {malloc : Addr}
    (hack : publishAck pkt = none)
    (hreceive : server.receivePacket config k (.publish pkt) malloc = some next) :
    (∃ broker conn, server.broker.step config (.packet k) = some broker ∧
      server.broker.conns k = some conn ∧ conn.connState = .noSession ∧
      next = { server with broker := broker }) ∨
    ∃ conn s, server.broker.conns k = some conn ∧ conn.connState ≠ .noSession ∧
      conn.upstream = .session s ∧
      server.handleEvent config k s malloc (.onPublish (.session s) pkt) = some next := by
  simp only [receivePacket, Option.bind_eq_bind, Option.bind_eq_some_iff] at hreceive
  obtain ⟨broker, hpacket, conn, hconn, hreceive⟩ := hreceive
  split at hreceive
  · rename_i hidle
    obtain rfl := Option.some.inj hreceive
    exact .inl ⟨broker, conn, hpacket, hconn, hidle, rfl⟩
  · rename_i hstarted
    split at hreceive
    · rename_i s hup
      right
      refine ⟨conn, s, hconn, hstarted, hup, ?_⟩
      simpa [publishFlowEvents, hack] using hreceive
    · cases hreceive

/-- What a PUBLISH above QoS 2 posts. -/
theorem posts_unchecked {k s : Nat} {upstream : Upstream} {pkt : PublishPkt Bytes} {malloc : Addr}
    (hqos : publishQos pkt.flags ≠ 2)
    (hhandle : server.handleEvent config k s malloc (.onPublish upstream pkt) = some next) :
    ∃ session, server.broker.heap s = some session ∧
      next.publishes = server.publishes ++
        if config.aclDenies session pkt.topic .pub then []
        else [publishReqOf session (pkt.topic, pkt.asMessage, publishRetain pkt.flags)] := by
  rw [handleEvent_of_ne_send (by simp)] at hhandle
  obtain ⟨session, flow, after, hafter, hsession, -, -, hposts⟩ := runFlow_posts hhandle
  obtain rfl : tmqSessionHandlePublish flow pkt = after := by
    simpa [mallocFree, TinyMqtt.handleEvent] using hafter
  have hpassed : (tmqSessionHandlePublish flow pkt).passed
      = flow.passed ++ [(pkt.topic, pkt.asMessage, publishRetain pkt.flags)] := by
    simp [tmqSessionHandlePublish, hqos, Session.record, Session.passed, PublishPkt.asMessage]
  rw [hpassed, List.drop_left] at hposts
  refine ⟨session, hsession, hposts.trans ?_⟩
  by_cases hdenied : config.aclDenies session pkt.topic .pub = true
  · simp [hdenied]
  · simp [hdenied]

/-- A PUBLISH above QoS 2 is posted when it is admitted, and otherwise leaves
no message behind. -/
theorem receivePacket_unchecked {k : Nat} {pkt : PublishPkt Bytes} {malloc : Addr}
    (hqos : ¬ ValidQos pkt.asMessage)
    (hreceive : server.receivePacket config k (.publish pkt) malloc = some next) :
    (Admits config server k pkt.topic → ∃ req ∈ next.publishes, req.message = pkt.asMessage) ∧
      (¬ Admits config server k pkt.topic → server.HoldsMessages ValidQos →
        next.HoldsMessages ValidQos) := by
  have hlarge : 2 < publishQos pkt.flags := not_le.mp hqos
  have hack : publishAck pkt = none := by
    rw [publishAck, if_neg (by omega), if_neg (by omega)]
  rcases receivePacket_unacknowledged hack hreceive with
    ⟨broker, conn, hbroker, hconn, hidle, rfl⟩ | ⟨conn, s, hconn, hstarted, hup, hhandle⟩
  · constructor
    · rintro ⟨conn', -, -, hconn', hstarted, -⟩
      obtain rfl := Option.some.inj (hconn.symm.trans hconn')
      exact absurd hidle hstarted
    · intro _ h
      exact ⟨Broker.holdsMessages_step forwardable_validQos hbroker h.broker trivial, h.flows,
        h.publishes, h.written⟩
  · obtain ⟨session, hsession, hposts⟩ := posts_unchecked (by omega) hhandle
    constructor
    · rintro ⟨conn', s', session', hconn', -, hup', hsession', hallowed⟩
      obtain rfl := Option.some.inj (hconn.symm.trans hconn')
      obtain rfl := Upstream.session.inj (hup.symm.trans hup')
      obtain rfl := Option.some.inj (hsession.symm.trans hsession')
      rw [hposts, hallowed]
      exact ⟨_, List.mem_append_right _ (List.mem_singleton_self _), rfl⟩
    · intro hrefused h
      have hdenied : config.aclDenies session pkt.topic .pub = true := by
        by_contra hallowed
        exact hrefused ⟨conn, s, session, hconn, hstarted, hup, hsession, by simpa using hallowed⟩
      refine h.handleEvent_posts (by simp) ?_ hhandle
      intro _ _ _
      right
      rw [hposts, if_pos hdenied, List.append_nil]

/-- A step keeps the QoS of all messages valid, as long as no PUBLISH above QoS
2 is admitted. -/
theorem validQos_step (h : server.HoldsMessages ValidQos) {label : Label Bytes}
    (haccepted : ∀ pkt, label.packet? = some pkt → Accepted pkt)
    (hchecked : ∀ k pkt malloc, label = .packet k (.publish pkt) malloc →
      Admits config server k pkt.topic → ValidQos pkt.asMessage)
    (hstep : server.step config label = some next) : next.HoldsMessages ValidQos := by
  by_cases hbrings : label.BringsMessage ValidQos
  · exact holdsMessages_step forwardable_validQos h hbrings hstep
  · cases label with
    | packet k pkt malloc =>
        obtain ⟨publish, hpublish, hqos⟩ : ∃ publish, pkt = .publish publish ∧
            ¬ ValidQos publish.asMessage := by
          simpa [Label.BringsMessage, Packet.HasMessage] using hbrings
        subst hpublish
        have hrefused : ¬ Admits config server k publish.topic :=
          fun hadmits => hqos (hchecked k publish malloc rfl hadmits)
        exact (receivePacket_unchecked hqos hstep).2 hrefused h
    | broker label nextPacketId =>
        cases label with
        | connect k req fails => exact absurd (validQos_will (haccepted _ rfl)) hbrings
        | _ => exact absurd trivial hbrings
    | _ => exact absurd trivial hbrings

end Server

namespace ClusterServer

variable {config : BrokerConfig Bytes J} {node next : ClusterServer Bytes}

/-- Every message in the server and in its tunnels has QoS 0, 1 or 2. -/
structure QosDomain (node : ClusterServer Bytes) : Prop where
  validations : ∀ entry ∈ node.server.broker.validations, entry.2.WillIs ValidQos
  requests : ∀ k req, .connect k req ∈ node.server.broker.requests → req.WillIs ValidQos
  wills : ∀ s session will, node.server.broker.heap s = some session →
    session.will = some will → ValidQos will.asMessage
  publishes : ∀ req ∈ node.server.publishes, ValidQos req.message
  retained : node.server.broker.topicsTree.root.All (RetainsMessage ValidQos)
  tasks : ∀ task ∈ node.server.broker.broadcastTasks, ValidQos task.message
  stores : ∀ s flow, node.server.flows s = some flow → StoresMessages ValidQos flow
  written : ∀ k, ∀ pkt ∈ node.server.written k, pkt.HasMessage ValidQos
  /-- the frames of a tunnel, too -/
  tunnels : ∀ conn topic message retain,
    .tunPublish conn topic message retain ∈ node.messageSendBox →
      ValidQos message ∧ (tunPublishPkt topic message retain).asMessage = message

/-- The flags of a tunneled PUBLISH hold its QoS. -/
theorem asMessage_tunPublishPkt (topic : Bytes) {message : MqttMessage Bytes}
    (hqos : ValidQos message) (retain : Bool) :
    (tunPublishPkt topic message retain).asMessage = message := by
  obtain ⟨payload, qos⟩ := message
  have hle : qos ≤ 2 := hqos
  have hretain : retain.toNat ≤ 1 := retain.toNat_le
  have hflags : publishQos (UInt8.ofNat (qos * 2 + retain.toNat)) = qos := by
    rw [publishQos, UInt8.toNat_ofNat']
    omega
  exact congrArg (MqttMessage.mk payload) hflags

theorem HoldsMessages.qosDomain (h : node.HoldsMessages ValidQos) : node.QosDomain where
  validations := h.server.broker.validations
  requests := h.server.broker.requests
  wills := h.server.broker.wills
  publishes := h.server.publishes
  retained := h.server.broker.retained
  tasks := h.server.broker.tasks
  stores := h.server.flows
  written k pkt hmem publish hpublish :=
    forwardable_validQos _ (h.server.written k pkt hmem publish hpublish)
  tunnels conn topic message retain hmem :=
    have hqos := h.tunnels conn topic message retain hmem
    ⟨hqos, asMessage_tunPublishPkt topic hqos retain⟩

def Label.packet? : Label Bytes → Option (Packet Bytes)
  | .server label _ => label.packet?
  | .tunnelPublish pkt => some (.publish pkt)
  | _ => none

/-- No PUBLISH above QoS 2 comes out of a tunnel, and none that is admitted from
a client. -/
def QosChecked (config : BrokerConfig Bytes J) (node : ClusterServer Bytes) :
    Label Bytes → Prop
  | .server (.packet k (.publish pkt) _) _ =>
      Server.Admits config node.server k pkt.topic → ValidQos pkt.asMessage
  | .tunnelPublish pkt => ValidQos pkt.asMessage
  | _ => True

theorem validQos_step (h : node.HoldsMessages ValidQos) {label : Label Bytes}
    (haccepted : ∀ pkt, label.packet? = some pkt → Accepted pkt)
    (hchecked : QosChecked config node label) (hstep : node.step config label = some next) :
    next.HoldsMessages ValidQos := by
  refine holdsMessages_step forwardable_validQos h ?_ ?_ hstep
  · rintro label' walk server rfl hserver
    refine Server.validQos_step h.server haccepted ?_ hserver
    rintro k pkt malloc rfl
    exact hchecked
  · rintro pkt rfl
    exact hchecked

/-- A step that is not checked posts a request above QoS 2. -/
theorem not_qosDomain_step {label : Label Bytes} (hstep : node.step config label = some next)
    (hchecked : ¬ QosChecked config node label) : ¬ next.QosDomain := by
  intro hdomain
  have hposted : ∃ req ∈ next.server.publishes, ¬ ValidQos req.message := by
    cases label with
    | server label walk =>
        obtain ⟨messages, -, hstep⟩ := Option.bind_eq_some_iff.mp hstep
        obtain ⟨server, hserver, hstep⟩ := Option.bind_eq_some_iff.mp hstep
        obtain rfl := Option.some.inj hstep
        cases label with
        | packet k pkt malloc =>
            cases pkt with
            | publish pkt =>
                obtain ⟨hadmits, hqos⟩ := Classical.not_imp.mp hchecked
                obtain ⟨req, hmem, hmessage⟩ := (Server.receivePacket_unchecked hqos hserver).1 hadmits
                exact ⟨req, hmem, hmessage ▸ hqos⟩
            | _ => exact absurd trivial hchecked
        | _ => exact absurd trivial hchecked
    | tunnelPublish pkt =>
        obtain rfl := Option.some.inj hstep
        exact ⟨_, List.mem_append_right _ (List.mem_singleton_self _), hchecked⟩
    | _ => exact absurd trivial hchecked
  obtain ⟨req, hmem, hqos⟩ := hposted
  exact hqos (hdomain.publishes req hmem)

/-- Of the runs over packets that a decoder accepts, those in which every PUBLISH
is checked are the ones that keep the QoS of all messages valid throughout. -/
theorem qosDomain_iff_of_runs (config : BrokerConfig Bytes J) (labels : List (Label Bytes))
    (final : ClusterServer Bytes)
    (haccepted : ∀ label ∈ labels, ∀ pkt, label.packet? = some pkt → Accepted pkt)
    (hrun : Run.runs (step config) init labels = some final) :
    (∀ earlier, earlier <+: labels → ∀ node, Run.runs (step config) init earlier = some node →
      node.QosDomain) ↔ Run.Admissible (QosChecked config) (step config) init labels := by
  refine Run.runs_always_iff (fun _ => HoldsMessages.qosDomain) ?_ ?_ haccepted
    holdsMessages_init hrun
  · intro node label next h haccepted hchecked hstep
    exact validQos_step h haccepted hchecked hstep
  · intro node label next hstep hchecked
    exact not_qosDomain_step hstep hchecked

def otherMember : MemberConn := ⟨1, ⟨(10, 0, 0, 2), 1883⟩⟩

/-- A client of a server with one other member publishes to a topic that this
member has a route for. -/
def publishThrough (flags : UInt8) : List (Label Bytes) :=
  [.server (.broker (.accept 0 []) 0) [],
    .server (.broker (.connect 0 (connectFrom [65] true) false) 0) [],
    .server (.broker (.execute (sampleExecution 7)) 0) [],
    .server (.broker (.connectComplete 0) 0) [],
    .addMember otherMember, .addRoutes (tmqTcpConnId otherMember) [116, 0],
    .server (.packet 0 (.publish ⟨flags, [116], 5, [1]⟩) 0) [],
    .server .publish [tmqTcpConnId otherMember]]

/-- The packets of these labels, as a decoder takes them. -/
theorem accepted_publishThrough {flags : UInt8} (hflags : flags = 2 ∨ flags = 6) :
    ∀ label ∈ publishThrough flags, ∀ pkt, label.packet? = some pkt → Accepted pkt := by
  have hconnect : Accepted (.connect (connectFrom [65] true).pkt) :=
    @accepted_of_decoded openAuth { newConn with
      inBuffer := [0x10, 13, 0, 4, 77, 81, 84, 84, 4, 2, 0, 60, 0, 1, 65] } _ rfl (by decide)
  have hpublish : Accepted (.publish ⟨flags, [116], 5, [1]⟩) := by
    rcases hflags with rfl | rfl
    · exact @accepted_of_decoded openAuth { newConn with
        connState := .inSession, inBuffer := [0x32, 6, 0, 1, 116, 0, 5, 1] } _ rfl (by decide)
    · exact @accepted_of_decoded openAuth { newConn with
        connState := .inSession, inBuffer := [0x36, 6, 0, 1, 116, 0, 5, 1] } _ rfl (by decide)
  intro label hmem pkt hpkt
  simp only [publishThrough, List.mem_cons, List.not_mem_nil, or_false] at hmem
  rcases hmem with rfl | rfl | rfl | rfl | rfl | rfl | rfl | rfl <;> cases hpkt
  · exact hconnect
  · exact hpublish

theorem qosDomain_iff_of_runs_sample : ∃ final,
    Run.runs (step sampleConfig) init (publishThrough 2) = some final ∧
      ((∀ earlier, earlier <+: publishThrough 2 → ∀ node,
        Run.runs (step sampleConfig) init earlier = some node → node.QosDomain) ↔
          Run.Admissible (QosChecked sampleConfig) (step sampleConfig) init (publishThrough 2)) :=
  ⟨_, rfl, qosDomain_iff_of_runs sampleConfig (publishThrough 2) _
    (accepted_publishThrough (.inl rfl)) rfl⟩

/-- A PUBLISH with both QoS bits set goes through the tunnel at QoS 3. -/
theorem not_qosDomain_both : ∃ (labels : List (Label Bytes)) (final : ClusterServer Bytes),
    (∀ label ∈ labels, ∀ pkt, label.packet? = some pkt → Accepted pkt) ∧
      Run.runs (step sampleConfig) init labels = some final ∧ ¬ final.QosDomain := by
  refine ⟨publishThrough 6, _, accepted_publishThrough (.inr rfl), rfl, ?_⟩
  intro hdomain
  obtain ⟨hqos, -⟩ := hdomain.tunnels otherMember [116] ⟨[1], 3⟩ false (by
    change _ ∈ [_]
    exact List.mem_singleton_self _)
  have hlarge : 3 ≤ 2 := hqos
  omega

end ClusterServer

end TinyMqtt
