import TinyMqtt.Acl.Acl
import TinyMqtt.Broker.Sessions
import TinyMqtt.Topic.Retained

/-!
What a SUBSCRIBE is answered with: one SUBACK with the return codes, and the
retained messages that its filters find. A filter that is denied is left out of
the return codes, so the codes behind it belong to other filters than the client
takes them for. The loop over the retained messages starts after the filters are
freed: it reads the QoS of a filter behind the last one, and pushes to a vector
that nobody initialised.
-/

namespace TinyMqtt

/-- The test of the broker on its access control list. The session has the
address of its peer from its connection. -/
def Acl.denies {π : Type} (acl : Acl) (peerAddr : Nat → UInt32) (session : SessionRecord π)
    (topicFilter : Bytes) (access : Access) : Bool :=
  tmqAclAuth acl ⟨session.clientId, session.username, peerAddr session.conn⟩ topicFilter
    (match access with | .sub => .sub | .pub => .pub) = .deny

namespace Broker

variable {π J : Type} {config : BrokerConfig π J} {session : SessionRecord π}
  {broker next : Broker π} {run : Execution} {clientId : Bytes} {s : Nat} {pkt : SubscribePkt}

/-! ### The return codes -/

def subackFailure : UInt8 := 0x80

/-- One code for each filter: what was granted, or the failure code. -/
def grantedCodes (config : BrokerConfig π J) (session : SessionRecord π)
    (topics : List TopicFilterQos) : List UInt8 :=
  topics.map fun tf => if config.aclDenies session tf.topicFilter .sub then subackFailure else tf.qos

def subacks (log : List (BrokerEvent π)) : List (Nat × SubackPkt) :=
  log.filterMap fun
    | .queueWrite k (.suback pkt) => some (k, pkt)
    | _ => none

def permitted (config : BrokerConfig π J) (session : SessionRecord π)
    (topics : List TopicFilterQos) : List TopicFilterQos :=
  topics.filter fun tf => !config.aclDenies session tf.topicFilter .sub

theorem returnCodes_addSubscriptions (filters : List TopicFilterQos) (topics : Topics π) :
    (addSubscriptions config session s filters topics).2.2
      = (permitted config session filters).map TopicFilterQos.qos := by
  induction filters generalizing topics with
  | nil => rfl
  | cons tf filters ih =>
      by_cases hdenied : config.aclDenies session tf.topicFilter .sub = true
      · simp [addSubscriptions, permitted, hdenied, ih]
      · simp [addSubscriptions, permitted, hdenied, ih]

/-- The codes are one for each filter only if nothing is denied. -/
theorem permitted_codes_eq_iff (topics : List TopicFilterQos) :
    (permitted config session topics).map TopicFilterQos.qos = grantedCodes config session topics ↔
      ∀ tf ∈ topics, config.aclDenies session tf.topicFilter .sub = false := by
  constructor
  · intro hcodes
    have hlength := congrArg List.length hcodes
    simp only [permitted, grantedCodes, List.length_map, List.length_filter_eq_length_iff,
      Bool.not_eq_true'] at hlength
    exact hlength
  · intro hnone
    have hall : permitted config session topics = topics := by
      simp only [permitted, List.filter_eq_self, Bool.not_eq_true']
      exact hnone
    rw [hall, grantedCodes]
    apply List.map_congr_left
    intro tf htf
    rw [hnone tf htf]
    rfl

variable [TmqString π]

/-- What is executed for a SUBSCRIBE of an open session. -/
theorem handleRequest_subscribe (hregistered : broker.sessions clientId = some s)
    (hsession : broker.heap s = some session) (hopened : session.state = .opened) :
    broker.handleRequest config run (.subscribe clientId pkt)
      = broker.subscribeTopics config run s session pkt := by
  simp [handleRequest, withOpenSession, hregistered, hsession, hopened]

/-- A SUBSCRIBE is answered filter by filter just when no filter is denied. -/
theorem subacks_subscribe_iff (config : BrokerConfig π J) (broker next : Broker π)
    (run : Execution) (clientId : Bytes) (s : Nat) (session : SessionRecord π) (pkt : SubscribePkt)
    (hregistered : broker.sessions clientId = some s) (hsession : broker.heap s = some session)
    (hopened : session.state = .opened)
    (hhandle : broker.handleRequest config run (.subscribe clientId pkt) = some next) :
    subacks next.log = subacks broker.log
        ++ [(session.conn, ⟨pkt.packetId, grantedCodes config session pkt.topics⟩)] ↔
      ∀ tf ∈ pkt.topics, config.aclDenies session tf.topicFilter .sub = false := by
  rw [handleRequest_subscribe hregistered hsession hopened] at hhandle
  simp only [subscribeTopics, Option.bind_eq_bind, Option.bind_eq_some_iff] at hhandle
  obtain ⟨conn, -, hnext⟩ := hhandle
  obtain rfl := Option.some.inj hnext
  rw [← permitted_codes_eq_iff, ← returnCodes_addSubscriptions (s := s) pkt.topics broker.topicsTree]
  simp [subacks, record, List.filterMap_append]

def denySubscribe : Acl :=
  ⟨.node .new (.cons [116] (.leaf ⟨[], [⟨.all, .sub, .deny⟩]⟩) .nil), .allow⟩

def aclConfig : BrokerConfig Bytes Unit :=
  { sampleConfig with aclDenies := denySubscribe.denies fun _ => 0 }

def permittedTopics : List TopicFilterQos := [⟨[117], 1⟩, ⟨[118], 0⟩, ⟨[119], 2⟩]

/-- The client of `oneConnect` subscribes them. -/
theorem subacks_subscribe_permitted :
    ∃ broker next session, Run.runs (step aclConfig) init oneConnect = some broker ∧
      broker.heap 7 = some session ∧
      broker.handleRequest aclConfig (sampleExecution 0) (.subscribe [65] ⟨1, permittedTopics⟩)
        = some next ∧
      subacks next.log = subacks broker.log
        ++ [(session.conn, ⟨1, grantedCodes aclConfig session permittedTopics⟩)] := by
  refine ⟨_, _, _, rfl, rfl, rfl, ?_⟩
  refine (subacks_subscribe_iff aclConfig _ _ (sampleExecution 0) [65] 7 _ ⟨1, permittedTopics⟩ rfl
    rfl rfl rfl).mpr ?_
  decide

/-- It subscribes `t` and `u`. The only return code of the SUBACK is that of
`u`, in the place of `t`. -/
theorem not_subacks_subscribe_denied :
    ¬ ∀ broker next, Run.runs (step aclConfig) init oneConnect = some broker →
      broker.handleRequest aclConfig (sampleExecution 0)
        (.subscribe [65] ⟨1, [⟨[116], 0⟩, ⟨[117], 1⟩]⟩) = some next →
      subacks next.log = subacks broker.log ++ [(0, ⟨1, [0x80, 1]⟩)] := by
  intro hall
  have hcodes := hall _ _ rfl rfl
  revert hcodes
  decide

/-! ### The retained messages -/

/-- What `tmq_topics_add_subscription` finds for a filter. -/
def retainedFor (topics : Topics π) (topicFilter : Bytes) : List (RetainMessage π) :=
  if (cstr topicFilter).length < 1 then []
  else findRetainMessages (tmqTopicSplit topicFilter) topics.root

omit [TmqString π] in
theorem addSubscription_retained (topics : Topics π) (topicFilter clientId : Bytes)
    (info : SubscribeInfo) :
    (tmqTopicsAddSubscription topics topicFilter clientId info).1 = retainedFor topics topicFilter ∧
      ∀ other, retainedFor (tmqTopicsAddSubscription topics topicFilter clientId info).2 other
        = retainedFor topics other := by
  unfold tmqTopicsAddSubscription retainedFor
  by_cases hempty : (cstr topicFilter).length < 1
  · simp [hempty]
  · have hsame := (retained_grow_modifyValue
      (f := TopicData.subscribe clientId info) (fun _ => rfl) (tmqTopicSplit topicFilter)
      topics.root).2
    simp only [hempty, if_false, subscriptionRetain_eq]
    exact ⟨hsame _, fun other => by rw [addTopic, hsame]⟩

omit [TmqString π] in
/-- The filters find what the tree holds before the first of them is added. -/
theorem retained_addSubscriptions (filters : List TopicFilterQos) (topics : Topics π) :
    (addSubscriptions config session s filters topics).2.1
      = (permitted config session filters).flatMap fun tf => retainedFor topics tf.topicFilter := by
  induction filters generalizing topics with
  | nil => rfl
  | cons tf filters ih =>
      by_cases hdenied : config.aclDenies session tf.topicFilter .sub = true
      · simp [addSubscriptions, permitted, hdenied, ih]
      · obtain ⟨hfound, hsame⟩ := addSubscription_retained topics tf.topicFilter session.clientId
          ⟨s, tf.qos⟩
        simp [addSubscriptions, permitted, hdenied, ih, hfound, hsame]

/-- The tasks of the retained messages: each message once for every filter that
finds it, with the QoS of that filter. -/
def retainedTasks (config : BrokerConfig π J) (topics : Topics π) (conn : ClientConn) (s : Nat)
    (session : SessionRecord π) (filters : List TopicFilterQos) : List (BroadcastTask π) :=
  (permitted config session filters).flatMap fun tf =>
    (retainedFor topics tf.topicFilter).map fun message =>
      ⟨conn.ioContext, message.retainTopic, message.retainMsg, true, [⟨s, tf.qos, false⟩]⟩

/-- The tasks that a SUBSCRIBE queues are those of its retained messages,
whatever is in the memory that the source did not write. -/
def QueuesRetained (config : BrokerConfig π J) (broker : Broker π) (clientId : Bytes)
    (conn : ClientConn) (s : Nat) (session : SessionRecord π) (pkt : SubscribePkt) : Prop :=
  ∀ run next, broker.handleRequest config run (.subscribe clientId pkt) = some next →
    next.broadcastTasks = broker.broadcastTasks
      ++ retainedTasks config broker.topicsTree conn s session pkt.topics

/-- Retained messages are queued as they should be only if there are none. -/
theorem queuesRetained_iff (config : BrokerConfig π J) (broker : Broker π) (clientId : Bytes)
    (s : Nat) (session : SessionRecord π) (conn : ClientConn) (pkt : SubscribePkt)
    (hregistered : broker.sessions clientId = some s) (hsession : broker.heap s = some session)
    (hopened : session.state = .opened) (hconn : broker.conns session.conn = some conn) :
    QueuesRetained config broker clientId conn s session pkt ↔
      ∀ tf ∈ pkt.topics, config.aclDenies session tf.topicFilter .sub = false →
        retainedFor broker.topicsTree tf.topicFilter = [] := by
  have hqueued : ∀ run next, broker.handleRequest config run (.subscribe clientId pkt) = some next ↔
      broker.subscribeTopics config run s session pkt = some next := by
    intro run next
    rw [handleRequest_subscribe hregistered hsession hopened]
  have htasks : ∀ run, ∃ next, broker.subscribeTopics config run s session pkt = some next ∧
      next.broadcastTasks = broker.broadcastTasks ++ retainTasks run conn s
        ((permitted config session pkt.topics).flatMap fun tf =>
          retainedFor broker.topicsTree tf.topicFilter) := by
    intro run
    rw [← retained_addSubscriptions (s := s)]
    simp [subscribeTopics, hconn, record]
  have hnone : (∀ tf ∈ pkt.topics, config.aclDenies session tf.topicFilter .sub = false →
        retainedFor broker.topicsTree tf.topicFilter = []) ↔
      ∀ tf ∈ permitted config session pkt.topics,
        retainedFor broker.topicsTree tf.topicFilter = [] := by
    simp [permitted]
  rw [hnone]
  constructor
  · intro hqueues
    -- memory that holds null pointers leaves the tasks without a subscriber
    obtain ⟨next, hsubscribe, hactual⟩ := htasks ⟨0, [], 0, fun _ => none⟩
    have hexpected := hqueues _ next ((hqueued _ next).mpr hsubscribe)
    rw [hactual] at hexpected
    have hlists := List.append_cancel_left hexpected
    intro tf htf
    by_contra hfound
    obtain ⟨message, hmessage⟩ := List.exists_mem_of_ne_nil _ hfound
    have htask : (⟨conn.ioContext, message.retainTopic, message.retainMsg, true,
        [⟨s, tf.qos, false⟩]⟩ : BroadcastTask π)
          ∈ retainedTasks config broker.topicsTree conn s session pkt.topics :=
      List.mem_flatMap.mpr ⟨tf, htf, List.mem_map_of_mem hmessage⟩
    rw [← hlists, retainTasks] at htask
    obtain ⟨retained, -, hsame⟩ := List.mem_map.mp htask
    cases congrArg BroadcastTask.subscribers hsame
  · intro hempty run next hhandle
    obtain ⟨found, hsubscribe, hactual⟩ := htasks run
    obtain rfl := Option.some.inj (hsubscribe.symm.trans ((hqueued run next).mp hhandle))
    have hretained : ((permitted config session pkt.topics).flatMap fun tf =>
        retainedFor broker.topicsTree tf.topicFilter) = [] := List.flatMap_eq_nil_iff.mpr hempty
    have hexpected : retainedTasks config broker.topicsTree conn s session pkt.topics = [] := by
      rw [retainedTasks, List.flatMap_eq_nil_iff]
      intro tf htf
      rw [hempty tf htf]
      rfl
    rw [hactual, hretained, hexpected]
    rfl

theorem queuesRetained_oneConnect :
    ∃ broker session conn, Run.runs (step sampleConfig) init oneConnect = some broker ∧
      broker.heap 7 = some session ∧ broker.conns session.conn = some conn ∧
      QueuesRetained sampleConfig broker [65] conn 7 session ⟨1, [⟨[117], 1⟩]⟩ := by
  refine ⟨_, _, _, rfl, rfl, rfl, ?_⟩
  refine (queuesRetained_iff sampleConfig _ [65] 7 _ _ ⟨1, [⟨[117], 1⟩]⟩ rfl rfl rfl rfl).mpr ?_
  intro tf htf _
  obtain rfl := List.mem_singleton.mp htf
  rfl

/-- A retained message on `t` with QoS 1. -/
def retainedPublish : PublishReq Bytes := ⟨[116], ⟨[49], 1⟩, true, false, [], []⟩

/-- The client of `oneConnect` subscribes `t`, where a message is retained, and
the memory of the subscriber vector is null. -/
theorem not_queuesRetained_published :
    ¬ ∀ broker session conn,
      Run.runs (step sampleConfig) init (oneConnect ++ [.publish retainedPublish]) = some broker →
      broker.heap 7 = some session → broker.conns session.conn = some conn →
      QueuesRetained sampleConfig broker [65] conn 7 session ⟨1, [⟨[116], 1⟩]⟩ := by
  intro hall
  have hqueued := hall _ _ _ rfl rfl rfl (sampleExecution 0) _ rfl
  have hsubscribers := congrArg (List.map BroadcastTask.subscribers) hqueued
  revert hsubscribers
  decide

end Broker

end TinyMqtt
