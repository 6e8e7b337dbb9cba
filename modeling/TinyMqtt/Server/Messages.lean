import TinyMqtt.Broker.Coherence
import TinyMqtt.Broker.Sessions
import TinyMqtt.Server.Server
import TinyMqtt.Session.Progress
import TinyMqtt.Topic.Retained

/-!
Where messages come from. Every message in the server, whether in a request, a
task, a message store, a will or the topic tree, is the message of a packet
that a client sent, or a copy of it at the same or a lower QoS. So a property
that such copies keep holds of all messages when it holds of those that come
in.
-/

namespace TinyMqtt

open LinkedList

variable {π J : Type}

def PublishPkt.asMessage (pkt : PublishPkt π) : MqttMessage π := ⟨pkt.payload, publishQos pkt.flags⟩

def Will.asMessage (will : Will π) : MqttMessage π := ⟨will.message, will.qos⟩

section Forwarding

variable [TmqString π]

def MqttMessage.copy (message : MqttMessage π) : MqttMessage π :=
  ⟨tmqStrNew message.message, message.qos⟩

/-- A copy of a message with the property, at its QoS or a lower one. -/
def Forwarded (M : MqttMessage π → Prop) (message : MqttMessage π) : Prop :=
  ∃ original, M original ∧ message.message = tmqStrNew original.message ∧
    message.qos ≤ original.qos

def Forwardable (M : MqttMessage π → Prop) : Prop := ∀ message, Forwarded M message → M message

theorem Forwardable.copy {M : MqttMessage π → Prop} (hforward : Forwardable M)
    {message : MqttMessage π} (h : M message) : M message.copy :=
  hforward message.copy ⟨message, h, rfl, le_rfl⟩

end Forwarding

/-! ### Retained messages -/

def RetainsMessage (M : MqttMessage π → Prop) (data : TopicData π) : Prop :=
  ∀ message, data.retainMessage = some message → M message.retainMsg

section Retained

variable {M : MqttMessage π → Prop}

theorem retainsMessage_new : RetainsMessage M (TopicData.new : TopicData π) := nofun

mutual

theorem retainsMessage_getAllRetain {node : TopicNode π} (h : node.All (RetainsMessage M)) :
    ∀ message ∈ getAllRetain node, M message.retainMsg := by
  match node with
  | .node data children =>
      intro message hmem
      rcases List.mem_append.mp hmem with hown | hbelow
      · exact h.1 message (Option.mem_toList.mp hown)
      · exact retainsMessage_getAllRetainOf h.2 message hbelow

theorem retainsMessage_getAllRetainOf {children : Forest Bytes (TopicData π)}
    (h : children.All (RetainsMessage M)) :
    ∀ message ∈ getAllRetainOf children, M message.retainMsg := by
  match children with
  | .nil => nofun
  | .cons nextLevel next rest =>
      intro message hmem
      rcases List.mem_append.mp hmem with hfirst | hlater
      · split at hfirst
        · cases hfirst
        · exact retainsMessage_getAllRetain h.1 message hfirst
      · exact retainsMessage_getAllRetainOf h.2 message hlater

end

theorem retainsMessage_findRetainMessages {levels : List Bytes} {node : TopicNode π}
    (h : node.All (RetainsMessage M)) :
    ∀ message ∈ findRetainMessages levels node, M message.retainMsg := by
  induction levels generalizing node with
  | nil =>
      intro message hmem
      exact ((Trie.all_iff node).mp h).1 message (Option.mem_toList.mp hmem)
  | cons level levels ih =>
      intro message hmem
      have hchildren := ((Trie.all_iff node).mp h).2
      rw [findRetainMessages] at hmem
      split at hmem
      · obtain ⟨nextLevel, next, hnext, hfound⟩ := hchildren.mem_collect hmem
        split at hfound
        · cases hfound
        · exact ih hnext message hfound
      · split at hmem
        · exact retainsMessage_getAllRetain h message hmem
        · split at hmem
          · cases hmem
          · rename_i next hfind
            exact ih (hchildren.of_find? hfind) message hmem

theorem retainsMessage_addSubscription {topics : Topics π} (h : topics.root.All (RetainsMessage M))
    (topicFilter clientId : Bytes) (info : SubscribeInfo) :
    (∀ message ∈ (tmqTopicsAddSubscription topics topicFilter clientId info).1,
      M message.retainMsg) ∧
      (tmqTopicsAddSubscription topics topicFilter clientId info).2.root.All
        (RetainsMessage M) := by
  unfold tmqTopicsAddSubscription
  split
  · exact ⟨nofun, h⟩
  · have hroot : ((addTopic topics.root topicFilter).modifyValue (TopicData.subscribe clientId info)
        (tmqTopicSplit topicFilter)).All (RetainsMessage M) := by
      apply (h.grow retainsMessage_new _).modifyValue
      intro data hdata
      exact hdata
    refine ⟨?_, hroot⟩
    dsimp only
    rw [subscriptionRetain_eq]
    exact retainsMessage_findRetainMessages hroot

theorem retainsMessage_tryRemoveTopic {root : TopicNode π} (h : root.All (RetainsMessage M))
    (reversed : List Bytes) : (tryRemoveTopic root reversed).All (RetainsMessage M) := by
  induction reversed generalizing root with
  | nil => exact h
  | cons level parent ih =>
      unfold tryRemoveTopic
      split
      · exact h
      · split
        · exact ih (h.eraseChild parent.reverse level)
        · exact h

theorem retainsMessage_removeSubscription {topics next : Topics π}
    (h : topics.root.All (RetainsMessage M)) {topicFilter clientId : Bytes}
    (hremove : tmqTopicsRemoveSubscription topics topicFilter clientId = some next) :
    next.root.All (RetainsMessage M) := by
  rcases removeSubscription_cases hremove with rfl | ⟨subscribers, -, rfl⟩
  · exact h
  · apply retainsMessage_tryRemoveTopic
    apply h.modifyValue
    intro data hdata
    exact hdata

theorem retainsMessage_removeAll {clientId : Bytes} {filters : List Bytes} {topics next : Topics π}
    (h : topics.root.All (RetainsMessage M))
    (hremove : Broker.removeAll clientId filters topics = some next) :
    next.root.All (RetainsMessage M) := by
  induction filters generalizing topics with
  | nil =>
      obtain rfl := Option.some.inj hremove
      exact h
  | cons topicFilter filters ih =>
      rw [Broker.removeAll, List.foldlM_cons] at hremove
      obtain ⟨middle, hfirst, hrest⟩ := Option.bind_eq_some_iff.mp hremove
      exact ih (retainsMessage_removeSubscription h hfirst) hrest

variable [TmqString π]

theorem retainsMessage_matchNode (cJsonParse : π → Option J) {req : PublishReq π}
    (hreq : M req.message.copy) (path levels : List Bytes) {node : TopicNode π}
    (h : node.All (RetainsMessage M)) (retain : Bool) :
    (matchNode cJsonParse req path levels node false retain).1.All (RetainsMessage M) := by
  induction levels generalizing path node with
  | nil =>
      have hparts := (Trie.all_iff node).mp h
      refine ⟨?_, hparts.2⟩
      dsimp only
      split
      · intro message hmessage
        obtain rfl := Option.some.inj hmessage
        exact hreq
      · exact hparts.1
  | cons level levels ih =>
      have hparts := (Trie.all_iff node).mp h
      rw [matchNode_cons_tree]
      unfold descend
      cases hnext : nextOrNew node.children level retain with
      | none => exact hparts
      | some next =>
          have hchild := h.childOr retainsMessage_new level
          rw [← nextOrNew_getD _ _ retain, hnext] at hchild
          exact ⟨hparts.1, hparts.2.put level (ih _ hchild)⟩

theorem retainsMessage_publish (cJsonParse : π → Option J) {topics : Topics π}
    (h : topics.root.All (RetainsMessage M)) {req : PublishReq π}
    (hreq : M req.message.copy) :
    (tmqTopicsPublish cJsonParse topics req).1.root.All (RetainsMessage M) :=
  retainsMessage_matchNode cJsonParse hreq [] _ h req.retain

end Retained

/-! ### The broker -/

variable [TmqString π]

def ConnectReq.WillIs (M : MqttMessage π → Prop) (req : ConnectReq π) : Prop :=
  ∀ will, req.will = some will → M will.asMessage

/-- Every message in the broker has the property. -/
structure HoldsMessages (M : MqttMessage π → Prop) (validations : List (Nat × ConnectReq π))
    (requests : List (Request π)) (heap : Nat → Option (SessionRecord π)) (root : TopicNode π)
    (tasks : List (BroadcastTask π)) : Prop where
  validations : ∀ entry ∈ validations, entry.2.WillIs M
  requests : ∀ k req, .connect k req ∈ requests → req.WillIs M
  wills : ∀ s session will, heap s = some session → session.will = some will → M will.asMessage
  retained : root.All (RetainsMessage M)
  tasks : ∀ task ∈ tasks, M task.message

namespace HoldsMessages

variable {M : MqttMessage π → Prop} {validations : List (Nat × ConnectReq π)}
  {requests : List (Request π)} {heap : Nat → Option (SessionRecord π)} {root : TopicNode π}
  {tasks : List (BroadcastTask π)}

theorem post (h : HoldsMessages M validations requests heap root tasks) {request : Request π}
    (hrequest : ∀ k req, request = .connect k req → req.WillIs M) :
    HoldsMessages M validations (requests ++ [request]) heap root tasks := by
  refine ⟨h.validations, ?_, h.wills, h.retained, h.tasks⟩
  intro k req hmem
  rcases List.mem_append.mp hmem with hold | hnew
  · exact h.requests k req hold
  · exact hrequest k req (List.mem_singleton.mp hnew).symm

theorem dequeue {request : Request π}
    (h : HoldsMessages M validations (request :: requests) heap root tasks) :
    HoldsMessages M validations requests heap root tasks := by
  refine ⟨h.validations, ?_, h.wills, h.retained, h.tasks⟩
  intro k req hmem
  exact h.requests k req (List.mem_cons_of_mem _ hmem)

theorem setSession (h : HoldsMessages M validations requests heap root tasks) {s : Nat}
    {session : SessionRecord π} (hwill : ∀ will, session.will = some will → M will.asMessage) :
    HoldsMessages M validations requests (Function.update heap s (some session)) root tasks := by
  refine ⟨h.validations, h.requests, ?_, h.retained, h.tasks⟩
  intro s' found will hfound hfoundWill
  rcases update_cases hfound with ⟨rfl, rfl⟩ | ⟨-, hbefore⟩
  · exact hwill will hfoundWill
  · exact h.wills s' found will hbefore hfoundWill

theorem setFields (h : HoldsMessages M validations requests heap root tasks) {s : Nat}
    {session changed : SessionRecord π} (hsession : heap s = some session)
    (hwill : changed.will = session.will) :
    HoldsMessages M validations requests (Function.update heap s (some changed)) root tasks := by
  apply h.setSession
  rw [hwill]
  exact fun will => h.wills s session will hsession

theorem setRoot (h : HoldsMessages M validations requests heap root tasks) {root' : TopicNode π}
    (hroot : root'.All (RetainsMessage M)) :
    HoldsMessages M validations requests heap root' tasks :=
  ⟨h.validations, h.requests, h.wills, hroot, h.tasks⟩

theorem queue (h : HoldsMessages M validations requests heap root tasks)
    {queued : List (BroadcastTask π)} (hqueued : ∀ task ∈ queued, M task.message) :
    HoldsMessages M validations requests heap root (tasks ++ queued) := by
  refine ⟨h.validations, h.requests, h.wills, h.retained, ?_⟩
  intro task hmem
  rcases List.mem_append.mp hmem with hold | hnew
  · exact h.tasks task hold
  · exact hqueued task hnew

end HoldsMessages

namespace Broker

variable {config : BrokerConfig π J} {broker next : Broker π} {label : Label π}
  {M : MqttMessage π → Prop}

def HoldsMessages (M : MqttMessage π → Prop) (broker : Broker π) : Prop :=
  TinyMqtt.HoldsMessages M broker.validations broker.requests broker.heap broker.topicsTree.root
    broker.broadcastTasks

def Label.BringsMessage (M : MqttMessage π → Prop) : Label π → Prop
  | .connect _ req _ => req.WillIs M
  | .publish req => M req.message
  | _ => True

theorem Queues.messages {heap : Nat → Option (SessionRecord π)} {message : MqttMessage π}
    {tasks : List (BroadcastTask π)} {shares : List (Nat × Nat)}
    (h : Queues heap message tasks shares) (hmessage : M message.copy) :
    ∀ task ∈ tasks, M task.message := by
  intro task htask
  rw [(h.message task htask).1]
  exact hmessage

/-- A will that is published leaves copies of itself behind. -/
theorem HoldsMessages.publishWill (hforward : Forwardable M) (h : broker.HoldsMessages M) {s : Nat}
    {session : SessionRecord π} (hsession : broker.heap s = some session) {op : SessionReqOp}
    {topics : Topics π} {tasks : List (BroadcastTask π)} {events : List (BrokerEvent π)}
    (hwill : PublishesWill config broker session op topics tasks events) :
    TinyMqtt.HoldsMessages M broker.validations broker.requests broker.heap topics.root
      (broker.broadcastTasks ++ tasks) := by
  cases hwill with
  | silent =>
      rw [List.append_nil]
      exact h
  | publish will req hop hfound hmessage hqueues =>
      have hcopied : M req.message.copy := by
        rw [hmessage]
        exact hforward.copy (hforward.copy (h.wills s session will hsession hfound))
      exact (h.setRoot (retainsMessage_publish config.cJsonParse h.retained hcopied)).queue
        (hqueues.messages hcopied)

omit [TmqString π] in
theorem holdsMessages_addSubscriptions (config : BrokerConfig π J) (session : SessionRecord π)
    (s : Nat) (filters : List TopicFilterQos) {topics : Topics π}
    (h : topics.root.All (RetainsMessage M)) :
    (∀ message ∈ (addSubscriptions config session s filters topics).2.1,
      M message.retainMsg) ∧
      (addSubscriptions config session s filters topics).1.root.All (RetainsMessage M) := by
  induction filters generalizing topics with
  | nil => exact ⟨nofun, h⟩
  | cons tf rest ih =>
      rw [addSubscriptions]
      split
      · exact ih h
      · obtain ⟨hfound, hroot⟩ :=
          retainsMessage_addSubscription h tf.topicFilter session.clientId ⟨s, tf.qos⟩
        obtain ⟨hothers, hroot'⟩ := ih hroot
        refine ⟨?_, hroot'⟩
        intro message hmem
        rcases List.mem_append.mp hmem with hfirst | hlater
        · exact hfound message hfirst
        · exact hothers message hlater

theorem holdsMessages_retainTasks (hforward : Forwardable M) (run : Execution)
    (conn : ClientConn) (s : Nat) {retained : List (RetainMessage π)}
    (h : ∀ message ∈ retained, M message.retainMsg) :
    ∀ task ∈ retainTasks run conn s retained, M task.message := by
  intro task htask
  obtain ⟨message, hmem, rfl⟩ := List.mem_map.mp htask
  exact hforward.copy (h message.1 (List.fst_mem_of_mem_zipIdx hmem))

/-- A step hands wills on, from a CONNECT to a request and from there to a
session. -/
theorem holdsMessages_wills {root : TopicNode π} {tasks : List (BroadcastTask π)}
    (h : TinyMqtt.HoldsMessages M broker.validations broker.requests broker.heap root tasks)
    (hlabel : ∀ k req fails, label = .connect k req fails → req.WillIs M)
    (hchange : Change config broker label next) :
    TinyMqtt.HoldsMessages M next.validations next.requests next.heap root tasks := by
  cases hchange with
  | unchanged | accept | closeIdle | stop | connectRefuse | connectLose | disconnectIdle
  | answerEnter | answerRefuse | publish | broadcast => exact h
  | closeAttached | disconnectAttached | answerClose => exact h.post (by nofun)
  | connectPool =>
      refine ⟨?_, h.requests, h.wills, h.retained, h.tasks⟩
      intro entry hmem
      rcases List.mem_append.mp hmem with hold | hnew
      · exact h.validations entry hold
      · rw [List.mem_singleton.mp hnew]
        exact hlabel _ _ _ rfl
  | connectPost =>
      refine h.post ?_
      intro k req hreq
      obtain ⟨rfl, rfl⟩ := Request.connect.inj hreq
      exact hlabel _ _ _ rfl
  | subscribe hconn hgate hup hsession =>
      refine (h.setFields hsession ?_).post ?_
      · rfl
      · nofun
  | unsubscribe hconn hgate hup hsession =>
      refine (h.setFields hsession ?_).post ?_
      · rfl
      · nofun
  | @validate i k req hpool =>
      have hreq : req.WillIs M := h.validations (k, req) (List.mem_of_getElem? hpool)
      have hrest : ∀ entry ∈ broker.validations.eraseIdx i, entry.2.WillIs M :=
        fun entry hmem => h.validations entry (List.mem_of_mem_eraseIdx hmem)
      refine HoldsMessages.post ⟨hrest, h.requests, h.wills, h.retained, h.tasks⟩ ?_
      intro k' req' hsame
      obtain ⟨rfl, rfl⟩ := Request.connect.inj hsame
      exact hreq
  | invalidate =>
      refine ⟨?_, h.requests, h.wills, h.retained, h.tasks⟩
      intro entry hmem
      exact h.validations entry (List.mem_of_mem_eraseIdx hmem)
  | reject hrequests | dropTopics hrequests | addTopics hrequests | removeTopics hrequests =>
      rw [hrequests] at h
      exact h.dequeue
  | startNew hrequests | resume hrequests =>
      rw [hrequests] at h
      exact h.dequeue.setSession (h.requests _ _ List.mem_cons_self)
  | restart hrequests hconn hregistered hsession =>
      rw [hrequests] at h
      refine (h.dequeue.setFields hsession ?_).setSession ?_
      · rfl
      · exact h.requests _ _ List.mem_cons_self
  | closeKeep hrequests hsession | closeClean hrequests hsession =>
      rw [hrequests] at h
      exact h.dequeue.setFields hsession rfl

theorem holdsMessages_change (hforward : Forwardable M) (h : broker.HoldsMessages M)
    (hlabel : label.BringsMessage M) (hchange : Change config broker label next) :
    next.HoldsMessages M := by
  have hwills := holdsMessages_wills h (by rintro k req fails rfl; exact hlabel) hchange
  suffices hrest : next.topicsTree.root.All (RetainsMessage M) ∧
      ∀ task ∈ next.broadcastTasks, M task.message from
    ⟨hwills.validations, hwills.requests, hwills.wills, hrest.1, hrest.2⟩
  cases hchange with
  | restart hrequests hconn hregistered hsession hclosed hclean horder hremoved =>
      exact ⟨retainsMessage_removeAll h.retained hremoved, h.tasks⟩
  | closeKeep hrequests hsession hkeep hwill =>
      have hpublished := h.publishWill hforward hsession hwill
      exact ⟨hpublished.retained, hpublished.tasks⟩
  | closeClean hrequests hsession hclean hwill horder hremoved =>
      have hpublished := h.publishWill hforward hsession hwill
      exact ⟨retainsMessage_removeAll hpublished.retained hremoved, hpublished.tasks⟩
  | @addTopics run s clientId pkt requests session conn hrequests =>
      obtain ⟨hfound, hroot⟩ :=
        holdsMessages_addSubscriptions config session s pkt.topics h.retained
      exact ⟨hroot, (h.queue (holdsMessages_retainTasks hforward run conn s hfound)).tasks⟩
  | removeTopics hrequests hregistered hsession hopened hremoved =>
      exact ⟨retainsMessage_removeAll h.retained hremoved, h.tasks⟩
  | publish hqueues =>
      exact ⟨retainsMessage_publish config.cJsonParse h.retained (hforward.copy hlabel),
        (h.queue (hqueues.messages (hforward.copy hlabel))).tasks⟩
  | broadcast htasks =>
      refine ⟨h.retained, ?_⟩
      intro task hmem
      apply h.tasks task
      rw [htasks]
      rcases List.mem_append.mp hmem with hbefore | hafter
      · exact List.mem_append_left _ hbefore
      · exact List.mem_append_right _ (List.mem_cons_of_mem _ hafter)
  | _ => exact ⟨h.retained, h.tasks⟩

theorem holdsMessages_step (hforward : Forwardable M) (hstep : broker.step config label = some next)
    (h : broker.HoldsMessages M) (hlabel : label.BringsMessage M) : next.HoldsMessages M :=
  holdsMessages_change hforward h hlabel (step_change hstep)

end Broker

/-! ### The flows -/

def Packet.HasMessage (M : MqttMessage π → Prop) (pkt : Packet π) : Prop :=
  ∀ publish, pkt = .publish publish → M publish.asMessage

def StoresMessages (M : MqttMessage π → Prop) (flow : Session π) : Prop :=
  ∃ queue, Represents flow flow.inflightWindowSize.toNat queue ∧
    ∀ queued ∈ queue, queued.2.packet.HasMessage M

section Flows

variable {M : MqttMessage π → Prop} {flow : Session π} {window : Nat}
  {queue : List (QueuedPacket π)}

omit [TmqString π] in
theorem Represents.stores (h : Represents flow window queue)
    (hqueue : ∀ queued ∈ queue, queued.2.packet.HasMessage M) : StoresMessages M flow :=
  ⟨queue, by rw [h.windowSize]; exact h, hqueue⟩

theorem hasMessage_cloneForSending {pkt : Packet π} (h : pkt.HasMessage M) :
    (cloneForSending pkt).HasMessage (Forwarded M) := by
  intro publish hpublish
  cases pkt with
  | publish original =>
      obtain rfl := Packet.publish.inj hpublish
      exact ⟨original.asMessage, h original rfl, rfl, le_rfl⟩
  | _ => cases hpublish

theorem Progress.messages {fresh after : List (QueuedPacket π)} {packets : List (Packet π)}
    (h : Progress window queue fresh after packets)
    (hqueue : ∀ queued ∈ queue, queued.2.packet.HasMessage M)
    (hfresh : ∀ queued ∈ fresh, queued.2.packet.HasMessage M) :
    (∀ queued ∈ after, queued.2.packet.HasMessage M) ∧
      ∀ pkt ∈ packets, pkt.HasMessage (Forwarded M) := by
  have hall : ∀ queued ∈ queue ++ fresh, queued.2.packet.HasMessage M := by
    intro queued hmem
    rcases List.mem_append.mp hmem with hold | hnew
    · exact hqueue queued hold
    · exact hfresh queued hnew
  constructor
  · intro queued hmem
    exact hall queued (h.members queued hmem)
  · intro pkt hmem
    obtain ⟨queued, hqueued, rfl⟩ := List.mem_map.mp (h.copied pkt hmem)
    exact hasMessage_cloneForSending (hall queued hqueued)

end Flows

/-! ### Packets -/

omit [TmqString π] in
/-- The message that a PUBLISH passes on is its own. -/
theorem passed_handlePublish {flow : Session π} {pkt : PublishPkt π}
    {passed : Bytes × MqttMessage π × Nat}
    (hmem : passed ∈ (tmqSessionHandlePublish flow pkt).passed.drop flow.passed.length) :
    passed.2.1 = pkt.asMessage := by
  have hrecord : ∀ flow' next : Session π, flow'.passed = flow.passed →
      next = flow'.record (.onNewMessage pkt.topic pkt.asMessage (publishRetain pkt.flags)) →
      passed ∈ next.passed.drop flow.passed.length → passed.2.1 = pkt.asMessage := by
    rintro flow' next hsame rfl hnew
    have hpassed : (flow'.record (.onNewMessage pkt.topic pkt.asMessage
        (publishRetain pkt.flags))).passed
          = flow.passed ++ [(pkt.topic, pkt.asMessage, publishRetain pkt.flags)] := by
      rw [← hsame]
      simp [Session.record, Session.passed]
    rw [hpassed, List.drop_left] at hnew
    rw [List.mem_singleton.mp hnew]
  unfold tmqSessionHandlePublish at hmem
  split at hmem
  · split at hmem
    · simp at hmem
    · exact hrecord _ _ rfl rfl hmem
  · exact hrecord _ _ rfl rfl hmem

theorem newPublishPkt_payload (packetId : UInt16) (topic : Bytes) (payload : π)
    (qos retain : UInt8) :
    (newPublishPkt packetId topic payload qos retain).payload = tmqStrNew payload := by
  unfold newPublishPkt
  split <;> rfl

/-- The QoS bits hold two bits of the QoS that is shifted there. -/
theorem publishQos_shift {retain : UInt8} (hretain : retain ≤ 1) (qos : UInt8) :
    publishQos (retain ||| qos <<< 1) = qos.toNat % 4 := by
  have hle : retain.toNat ≤ 1 := UInt8.le_iff_toNat_le.mp hretain
  have hretainBits : retain.toNat >>> 1 = 0 := by
    rw [Nat.shiftRight_eq_div_pow]
    omega
  have hqosBits : (qos.toNat <<< 1 % 256) >>> 1 = qos.toNat % 128 := by
    rw [Nat.shiftLeft_eq, Nat.shiftRight_eq_div_pow]
    omega
  have hbits : (retain ||| qos <<< 1).toNat >>> 1 = qos.toNat % 128 := by
    rw [UInt8.toNat_or, Nat.shiftRight_or_distrib, hretainBits, Nat.zero_or, UInt8.toNat_shiftLeft]
    exact hqosBits
  rw [Nat.shiftRight_eq_div_pow] at hbits
  unfold publishQos
  omega

theorem publishQos_newPublishPkt_le (packetId : UInt16) (topic : Bytes) (payload : π)
    (qos : UInt8) {retain : UInt8} (hretain : retain ≤ 1) :
    publishQos (newPublishPkt packetId topic payload qos retain).flags ≤ qos.toNat := by
  unfold newPublishPkt
  split
  · rw [publishQos_shift hretain]
    exact Nat.mod_le ..
  · -- a retain bit alone is no QoS bit
    have hle : retain.toNat ≤ 1 := UInt8.le_iff_toNat_le.mp hretain
    simp only [publishQos]
    omega

omit [TmqString π] in
/-- A message is delivered at its QoS or a lower one. -/
theorem Server.deliveryQos_le (entry : BroadcastEntry) (message : MqttMessage π) :
    (Server.deliveryQos entry message).toNat ≤ message.qos := by
  unfold Server.deliveryQos
  split
  · omega
  · rw [UInt8.toNat_ofNat']
    exact Nat.mod_le ..

theorem qos_delivered (packetId : UInt16) (topic : Bytes) (payload : π) (entry : BroadcastEntry)
    (message : MqttMessage π) (retain : Bool) :
    publishQos (newPublishPkt packetId topic payload (Server.deliveryQos entry message)
      (if retain then 1 else 0)).flags ≤ message.qos := by
  refine (publishQos_newPublishPkt_le _ _ _ _ ?_).trans (Server.deliveryQos_le entry message)
  cases retain <;> decide

namespace Server

variable {config : BrokerConfig π J} {server next : Server π} {s : Nat} {M : MqttMessage π → Prop}

structure HoldsMessages (M : MqttMessage π → Prop) (server : Server π) : Prop where
  broker : server.broker.HoldsMessages M
  flows : ∀ s flow, server.flows s = some flow → StoresMessages M flow
  publishes : ∀ req ∈ server.publishes, M req.message
  written : ∀ k, ∀ pkt ∈ server.written k, pkt.HasMessage (Forwarded M)

theorem HoldsMessages.written_write (h : server.HoldsMessages M) {k : Nat}
    {packets : List (Packet π)} (hpackets : ∀ pkt ∈ packets, pkt.HasMessage (Forwarded M)) :
    ∀ k', ∀ pkt ∈ (server.write k packets).written k', pkt.HasMessage (Forwarded M) := by
  intro k' pkt hmem
  rw [Server.written_write] at hmem
  rcases List.mem_append.mp hmem with hold | hnew
  · exact h.written k' pkt hold
  · split at hnew
    · exact hpackets pkt hnew
    · cases hnew

theorem HoldsMessages.run (h : server.HoldsMessages M) {session : SessionRecord π}
    {flow after : Session π} (hrun : FlowRun server next s session flow after)
    {packets : List (Packet π)}
    (hsent : after.sent = flow.sent ++ packets) (hholds : StoresMessages M after)
    (hpackets : ∀ pkt ∈ packets, pkt.HasMessage (Forwarded M))
    (hpassed : ∀ passed ∈ after.passed.drop flow.passed.length,
      M passed.2.1 ∨ next.publishes = server.publishes) :
    next.HoldsMessages M := by
  have hdrop : after.sent.drop flow.sent.length = packets := by
    rw [hsent, List.drop_left]
  constructor
  · rw [hrun.broker]
    exact h.broker
  · intro s' found hfound
    rw [hrun.flows] at hfound
    rcases update_cases hfound with ⟨rfl, rfl⟩ | ⟨-, hbefore⟩
    · exact hholds
    · exact h.flows s' found hbefore
  · intro req hreq
    rcases hrun.publishes req hreq with hold | ⟨passed, hmem, hmessage⟩
    · exact h.publishes req hold
    · rcases hpassed passed hmem with hbrings | hsame
      · rw [hmessage]
        exact hbrings
      · exact h.publishes req (hsame ▸ hreq)
  · rw [hrun.written, hdrop]
    exact h.written_write hpackets

def EventBringsMessage (M : MqttMessage π → Prop) : Event π → Prop
  | .send pkt => pkt.HasMessage (Forwarded M)
  | .onPublish _ pkt => M pkt.asMessage
  | _ => True

theorem eventBringsMessage_publishFlowEvents {upstream : Upstream} {pkt : Packet π}
    (hpkt : pkt.HasMessage M) :
    ∀ event ∈ publishFlowEvents upstream pkt, EventBringsMessage M event := by
  intro event hevent
  cases pkt with
  | publish publish =>
      rcases List.mem_append.mp hevent with hmapped | hcall
      · obtain ⟨ack, hack, rfl⟩ := List.mem_map.mp hmapped
        rw [Option.mem_toList, publishAck] at hack
        split at hack
        · obtain rfl := Option.some.inj hack
          nofun
        · split at hack
          · obtain rfl := Option.some.inj hack
            nofun
          · cases hack
      · rw [List.mem_singleton.mp hcall]
        exact hpkt publish rfl
  | puback | pubrec | pubcomp =>
      rw [List.mem_singleton.mp hevent]
      trivial
  | pubrel =>
      rcases List.mem_cons.mp hevent with rfl | hcall
      · nofun
      · rw [List.mem_singleton.mp hcall]
        trivial
  | _ => cases hevent

/-- The message of a PUBLISH does not matter when nothing is posted. -/
theorem HoldsMessages.handleEvent_posts (h : server.HoldsMessages M) {k : Nat} {malloc : Addr}
    {event : Event π} (hwrites : ∀ pkt, event = .send pkt → pkt.HasMessage (Forwarded M))
    (hposts : ∀ upstream pkt, event = .onPublish upstream pkt →
      M pkt.asMessage ∨ next.publishes = server.publishes)
    (hhandle : server.handleEvent config k s malloc event = some next) : next.HoldsMessages M := by
  rcases handleEvent_eq_some hhandle with
    ⟨pkt, rfl, rfl⟩ | ⟨hsend, session, flow, after, hafter, hfree, hrun⟩
  · obtain ⟨hbroker, hflows, hpublishes⟩ := server.write_frame k [pkt]
    refine ⟨?_, ?_, ?_, h.written_write ?_⟩
    · rw [hbroker]
      exact h.broker
    · rw [hflows]
      exact h.flows
    · rw [hpublishes]
      exact h.publishes
    · intro sent hsent
      rw [List.mem_singleton.mp hsent]
      exact hwrites pkt rfl
  · obtain ⟨queue, hqueue, hmessages⟩ := h.flows s flow hrun.current
    obtain ⟨fresh, queue', packets, hqueue', hsent, hprogress, hfresh, hpassed⟩ :=
      handleEvent_progress hqueue hsend hfree hafter
    obtain ⟨hmessages', hpackets⟩ := hprogress.messages hmessages (by
      intro queued hmem publish hpublish
      obtain ⟨packetId, hpubrel⟩ := hfresh queued hmem
      rw [hpubrel] at hpublish
      cases hpublish)
    refine h.run hrun hsent (hqueue'.stores hmessages') hpackets ?_
    intro passed hmem
    obtain ⟨upstream, pkt, rfl, -⟩ := hpassed passed hmem
    obtain rfl := Option.some.inj hafter
    rw [passed_handlePublish hmem]
    exact hposts upstream pkt rfl

theorem HoldsMessages.handleEvent (h : server.HoldsMessages M) {k : Nat} {malloc : Addr}
    {event : Event π} (hevent : EventBringsMessage M event)
    (hhandle : server.handleEvent config k s malloc event = some next) : next.HoldsMessages M := by
  refine h.handleEvent_posts ?_ ?_ hhandle
  · rintro pkt rfl
    exact hevent
  · rintro upstream pkt rfl
    exact .inl hevent

theorem HoldsMessages.handleEvents {k : Nat} {malloc : Addr} {events : List (Event π)}
    (h : server.HoldsMessages M) (hevents : ∀ event ∈ events, EventBringsMessage M event)
    (hhandle : events.foldlM (Server.handleEvent config k s malloc) server = some next) :
    next.HoldsMessages M := by
  induction events generalizing server with
  | nil =>
      obtain rfl := Option.some.inj hhandle
      exact h
  | cons event events ih =>
      rw [List.foldlM_cons] at hhandle
      obtain ⟨middle, hfirst, hrest⟩ := Option.bind_eq_some_iff.mp hhandle
      obtain ⟨hevent, hothers⟩ := List.forall_mem_cons.mp hevents
      exact ih (h.handleEvent hevent hfirst) hothers hrest

theorem HoldsMessages.deliverTo (hforward : Forwardable M) (h : server.HoldsMessages M)
    {task : BroadcastTask π} (htask : M task.message) {mallocs : Nat → Addr}
    {entry : BroadcastEntry × Nat}
    (hdeliver : server.deliverTo config task mallocs entry = some next) : next.HoldsMessages M := by
  obtain ⟨session, flow, after, hfree, hafter, hrun⟩ := deliverTo_eq_some hdeliver
  obtain ⟨queue, hqueue, hmessages⟩ := h.flows _ flow hrun.current
  obtain ⟨pkt, hpkt⟩ : ∃ pkt, newPublishPkt flow.nextPacketId task.topic task.message.message
      (deliveryQos entry.1 task.message) (if task.retain then 1 else 0) = pkt := ⟨_, rfl⟩
  have hforwarded : Forwarded M pkt.asMessage := by
    rw [← hpkt]
    exact ⟨task.message, htask, newPublishPkt_payload .., qos_delivered ..⟩
  by_cases hqos : 0 < deliveryQos entry.1 task.message
  · obtain ⟨found, hfound, hqueue', hsent, -, hframe⟩ := tmqSessionPublish_stored hqueue hfree
      task.topic task.message.message hqos (if task.retain then 1 else 0) entry.1.isSessionClosed
      hpkt
    obtain rfl := Option.some.inj (hafter.symm.trans hfound)
    refine h.run hrun hsent (hqueue'.stores ?_) ?_ (by simp [hframe.passed])
    · intro queued hmem
      rcases List.mem_append.mp hmem with hold | hnew
      · exact hmessages queued hold
      · rw [List.mem_singleton.mp hnew]
        intro publish hpublish
        obtain rfl := Packet.publish.inj hpublish
        exact hforward.copy (hforward _ hforwarded)
    · intro sent hmem publish hpublish
      split at hmem
      · rw [List.mem_singleton.mp hmem] at hpublish
        obtain rfl := Packet.publish.inj hpublish
        exact hforwarded
      · cases hmem
  · obtain ⟨found, hfound, hqueue', hsent, hframe⟩ := tmqSessionPublish_unstored hqueue
      (mallocs entry.2) task.topic task.message.message hqos (if task.retain then 1 else 0)
      entry.1.isSessionClosed
    obtain rfl := Option.some.inj (hafter.symm.trans hfound)
    refine h.run hrun hsent (hqueue'.stores hmessages) ?_ (by simp [hframe.passed])
    intro sent hmem publish hpublish
    split at hmem
    · cases hmem
    · rw [List.mem_singleton.mp hmem, hpkt] at hpublish
      obtain rfl := Packet.publish.inj hpublish
      exact hforwarded

theorem HoldsMessages.deliverAll (hforward : Forwardable M) {task : BroadcastTask π}
    (htask : M task.message) {mallocs : Nat → Addr}
    {entries : List (BroadcastEntry × Nat)} (h : server.HoldsMessages M)
    (hdeliver : entries.foldlM (Server.deliverTo config task mallocs) server = some next) :
    next.HoldsMessages M := by
  induction entries generalizing server with
  | nil =>
      obtain rfl := Option.some.inj hdeliver
      exact h
  | cons entry entries ih =>
      rw [List.foldlM_cons] at hdeliver
      obtain ⟨middle, hfirst, hrest⟩ := Option.bind_eq_some_iff.mp hdeliver
      exact ih (h.deliverTo hforward htask hfirst) hrest

theorem HoldsMessages.follow {nextPacketId : UInt16} {events : List (BrokerEvent π)}
    (h : server.HoldsMessages M)
    (hfollow : events.foldlM (Server.follow config nextPacketId) server = some next) :
    next.HoldsMessages M := by
  induction events generalizing server with
  | nil =>
      obtain rfl := Option.some.inj hfollow
      exact h
  | cons event events ih =>
      rw [List.foldlM_cons] at hfollow
      obtain ⟨middle, hfirst, hrest⟩ := Option.bind_eq_some_iff.mp hfollow
      refine ih ?_ hrest
      cases event with
      | sessionNew s =>
          obtain rfl := Option.some.inj hfirst
          refine ⟨h.broker, ?_, h.publishes, h.written⟩
          intro s' found hfound
          rcases update_cases hfound with ⟨rfl, rfl⟩ | ⟨-, hbefore⟩
          · exact (represents_new ..).stores nofun
          · exact h.flows s' found hbefore
      | sessionStart s =>
          obtain ⟨session, flow, after, hafter, hrun⟩ := runFlow_eq_some hfirst
          obtain ⟨queue, hqueue, hmessages⟩ := h.flows s flow hrun.current
          obtain ⟨packets, hqueue', hsent, hprogress, -, hframe⟩ :=
            tmqSessionStart_progress hqueue hafter
          obtain ⟨-, hpackets⟩ := hprogress.messages hmessages nofun
          exact h.run hrun hsent (hqueue'.stores hmessages) hpackets (by simp [hframe.passed])
      | _ =>
          obtain rfl := Option.some.inj hfirst
          exact h

def Label.BringsMessage (M : MqttMessage π → Prop) : Label π → Prop
  | .packet _ pkt _ => pkt.HasMessage M
  | .broker (.connect _ req _) _ => req.WillIs M
  | _ => True

theorem holdsMessages_init : (init : Server π).HoldsMessages M := by
  refine ⟨⟨nofun, nofun, nofun, Trie.all_leaf retainsMessage_new, nofun⟩, nofun, nofun, nofun⟩

theorem holdsMessages_step (hforward : Forwardable M) (h : server.HoldsMessages M) {label : Label π}
    (hlabel : label.BringsMessage M) (hstep : server.step config label = some next) :
    next.HoldsMessages M := by
  cases label with
  | packet k pkt malloc =>
      simp only [step, receivePacket, Option.bind_eq_bind, Option.bind_eq_some_iff] at hstep
      obtain ⟨broker, hpacket, conn, hconn, hstep⟩ := hstep
      have hbroker : server.broker.step config (.packet k) = some broker := hpacket
      split at hstep
      · obtain rfl := Option.some.inj hstep
        exact ⟨Broker.holdsMessages_step hforward hbroker h.broker trivial, h.flows, h.publishes,
          h.written⟩
      · split at hstep
        · split at hstep
          · cases hstep
          · exact h.handleEvents (eventBringsMessage_publishFlowEvents hlabel) hstep
        · cases hstep
  | publish =>
      simp only [step, handlePublishReq] at hstep
      split at hstep
      · cases hstep
      · rename_i req publishes hpublishes
        obtain ⟨broker, hpublish, hnext⟩ := Option.bind_eq_some_iff.mp hstep
        obtain rfl := Option.some.inj hnext
        have hbroker : server.broker.step config (.publish req) = some broker := hpublish
        have hall := h.publishes
        rw [hpublishes, List.forall_mem_cons] at hall
        exact ⟨Broker.holdsMessages_step hforward hbroker h.broker hall.1, h.flows, hall.2,
          h.written⟩
  | broadcast ioContext mallocs =>
      simp only [step, broadcastHandler, Option.bind_eq_bind, Option.bind_eq_some_iff] at hstep
      obtain ⟨⟨task, rest⟩, htake, delivered, hdeliver, broker, hbroker, hnext⟩ := hstep
      obtain rfl := Option.some.inj hnext
      obtain ⟨before, after, htasks, -⟩ := Mailbox.take?_eq_some htake
      have htask : M task.message := h.broker.tasks task (by simp [htasks])
      have hdelivered := h.deliverAll hforward htask hdeliver
      have hstep : delivered.broker.step config (.broadcast ioContext) = some broker := hbroker
      exact ⟨Broker.holdsMessages_step hforward hstep hdelivered.broker trivial, hdelivered.flows,
        hdelivered.publishes, hdelivered.written⟩
  | broker label nextPacketId =>
      have hbrings : label.BringsMessage M := by
        cases label <;> first | exact hlabel | trivial
      obtain ⟨broker, hbroker, hfollow⟩ := Option.bind_eq_some_iff.mp (step_handle hstep).1
      have hchanged : (⟨broker, server.flows, server.written, server.publishes⟩ :
          Server π).HoldsMessages M :=
        ⟨Broker.holdsMessages_step hforward hbroker h.broker hbrings, h.flows, h.publishes,
          h.written⟩
      exact hchanged.follow hfollow

end Server

end TinyMqtt
