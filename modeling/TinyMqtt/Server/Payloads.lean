import TinyMqtt.Server.Messages

/-!
Where payloads come from. Every payload in the server, whether in a request, a
task, a message store, a will or the topic tree, is the payload of a packet
that a client sent, or a copy of it made by `tmq_str_new`; and what the server
writes in a PUBLISH is always such a copy.

The packets of a run are stamped with their positions, so that a payload tells
which packet it came in.
-/

namespace TinyMqtt

open LinkedList

variable {π J : Type}

/-! ### Properties of payloads -/

def Retains (P : π → Prop) (data : TopicData π) : Prop :=
  ∀ message, data.retainMessage = some message → P message.retainMsg.message

theorem retains_new {P : π → Prop} : Retains P (TopicData.new : TopicData π) := nofun

variable [TmqString π]

def ConnectReq.WillHas (P : π → Prop) (req : ConnectReq π) : Prop :=
  ∀ will, req.will = some will → P will.message

/-- Every payload in the broker has the property. -/
structure Carries (P : π → Prop) (validations : List (Nat × ConnectReq π))
    (requests : List (Request π)) (heap : Nat → Option (SessionRecord π)) (root : TopicNode π)
    (tasks : List (BroadcastTask π)) : Prop where
  validations : ∀ entry ∈ validations, entry.2.WillHas P
  requests : ∀ k req, .connect k req ∈ requests → req.WillHas P
  wills : ∀ s session will, heap s = some session → session.will = some will → P will.message
  retained : root.All (Retains P)
  tasks : ∀ task ∈ tasks, P task.message.message

namespace Broker

def Carries (P : π → Prop) (broker : Broker π) : Prop :=
  TinyMqtt.Carries P broker.validations broker.requests broker.heap broker.topicsTree.root
    broker.broadcastTasks

def Label.Brings (P : π → Prop) : Label π → Prop
  | .connect _ req _ => req.WillHas P
  | .publish req => P req.message.message
  | _ => True

/-- Nothing is asked of the payloads. -/
theorem Label.brings_true (label : Label π) : label.Brings fun _ => True := by
  unfold Label.Brings
  split <;> first | trivial | exact fun _ _ => trivial

end Broker

def Packet.PayloadHas (P : π → Prop) (pkt : Packet π) : Prop :=
  ∀ publish, pkt = .publish publish → P publish.payload

def Copied (P : π → Prop) (p : π) : Prop := ∃ original, P original ∧ p = tmqStrNew original

def Holds (P : π → Prop) (flow : Session π) : Prop :=
  ∃ queue, Represents flow flow.inflightWindowSize.toNat queue ∧
    ∀ queued ∈ queue, queued.2.packet.PayloadHas P

namespace Server

structure Carries (P : π → Prop) (server : Server π) : Prop where
  broker : server.broker.Carries P
  flows : ∀ s flow, server.flows s = some flow → Holds P flow
  publishes : ∀ req ∈ server.publishes, P req.message.message
  written : ∀ k, ∀ pkt ∈ server.written k, pkt.PayloadHas (Copied P)

def EventBrings (P : π → Prop) : Event π → Prop
  | .send pkt => pkt.PayloadHas (Copied P)
  | .onPublish _ pkt => P pkt.payload
  | _ => True

def Label.Brings (P : π → Prop) : Label π → Prop
  | .packet _ pkt _ => pkt.PayloadHas P
  | .broker (.connect _ req _) _ => req.WillHas P
  | _ => True

theorem Label.brings_true (label : Label π) : label.Brings fun _ => True := by
  unfold Label.Brings
  split <;> first | trivial | exact fun _ _ => trivial

end Server

/-! ### Payloads are those of messages -/

def PayloadIs (P : π → Prop) (message : MqttMessage π) : Prop := P message.message

variable {P : π → Prop}

theorem forwardable_payloadIs (hcopy : ∀ p, P p → P (tmqStrNew p)) :
    Forwardable (PayloadIs P) := by
  rintro message ⟨original, horiginal, hpayload, -⟩
  unfold PayloadIs
  rw [hpayload]
  exact hcopy _ horiginal

theorem payloadHas_copied_iff {pkt : Packet π} :
    pkt.PayloadHas (Copied P) ↔ pkt.HasMessage (Forwarded (PayloadIs P)) := by
  constructor
  · intro h publish hpublish
    obtain ⟨original, horiginal, hpayload⟩ := h publish hpublish
    exact ⟨⟨original, publishQos publish.flags⟩, horiginal, hpayload, le_rfl⟩
  · intro h publish hpublish
    obtain ⟨original, horiginal, hpayload, -⟩ := h publish hpublish
    exact ⟨original.message, horiginal, hpayload⟩

theorem carries_iff {validations : List (Nat × ConnectReq π)} {requests : List (Request π)}
    {heap : Nat → Option (SessionRecord π)} {root : TopicNode π} {tasks : List (BroadcastTask π)} :
    Carries P validations requests heap root tasks ↔
      HoldsMessages (PayloadIs P) validations requests heap root tasks :=
  ⟨fun h => ⟨h.validations, h.requests, h.wills, h.retained, h.tasks⟩,
    fun h => ⟨h.validations, h.requests, h.wills, h.retained, h.tasks⟩⟩

namespace Broker

variable {config : BrokerConfig π J} {broker next : Broker π} {label : Label π}

/-- A step hands wills on, from a CONNECT to a request and from there to a
session. -/
theorem carries_wills {root : TopicNode π} {tasks : List (BroadcastTask π)}
    (h : TinyMqtt.Carries P broker.validations broker.requests broker.heap root tasks)
    (hlabel : ∀ k req fails, label = .connect k req fails → req.WillHas P)
    (hchange : Change config broker label next) :
    TinyMqtt.Carries P next.validations next.requests next.heap root tasks :=
  carries_iff.mpr (holdsMessages_wills (carries_iff.mp h) hlabel hchange)

theorem carries_step (hcopy : ∀ p, P p → P (tmqStrNew p))
    (hstep : broker.step config label = some next) (h : broker.Carries P)
    (hlabel : label.Brings P) : next.Carries P := by
  have hbrings : label.BringsMessage (PayloadIs P) := by
    cases label <;> exact hlabel
  exact carries_iff.mpr
    (holdsMessages_step (forwardable_payloadIs hcopy) hstep (carries_iff.mp h) hbrings)

end Broker

namespace Server

variable {config : BrokerConfig π J} {server next : Server π} {s : Nat}

theorem carries_iff : server.Carries P ↔ server.HoldsMessages (PayloadIs P) := by
  constructor
  · intro h
    exact ⟨TinyMqtt.carries_iff.mp h.broker, h.flows, h.publishes,
      fun k pkt hmem => payloadHas_copied_iff.mp (h.written k pkt hmem)⟩
  · intro h
    exact ⟨TinyMqtt.carries_iff.mpr h.broker, h.flows, h.publishes,
      fun k pkt hmem => payloadHas_copied_iff.mpr (h.written k pkt hmem)⟩

theorem eventBrings_iff {event : Event π} :
    EventBrings P event ↔ EventBringsMessage (PayloadIs P) event := by
  cases event with
  | send pkt => exact payloadHas_copied_iff
  | _ => exact Iff.rfl

theorem eventBrings_publishFlowEvents {upstream : Upstream} {pkt : Packet π}
    (hpkt : pkt.PayloadHas P) : ∀ event ∈ publishFlowEvents upstream pkt, EventBrings P event := by
  have hmessage : pkt.HasMessage (PayloadIs P) := hpkt
  intro event hevent
  exact eventBrings_iff.mpr (eventBringsMessage_publishFlowEvents hmessage event hevent)

theorem Carries.handleEvent (h : server.Carries P) {k : Nat} {malloc : Addr} {event : Event π}
    (hevent : EventBrings P event)
    (hhandle : server.handleEvent config k s malloc event = some next) : next.Carries P :=
  carries_iff.mpr ((carries_iff.mp h).handleEvent (eventBrings_iff.mp hevent) hhandle)

theorem Carries.deliverTo (hcopy : ∀ p, P p → P (tmqStrNew p)) (h : server.Carries P)
    {task : BroadcastTask π} (htask : P task.message.message) {mallocs : Nat → Addr}
    {entry : BroadcastEntry × Nat}
    (hdeliver : server.deliverTo config task mallocs entry = some next) : next.Carries P :=
  carries_iff.mpr ((carries_iff.mp h).deliverTo (forwardable_payloadIs hcopy) htask hdeliver)

theorem Carries.follow {nextPacketId : UInt16} {events : List (BrokerEvent π)}
    (h : server.Carries P)
    (hfollow : events.foldlM (Server.follow config nextPacketId) server = some next) :
    next.Carries P :=
  carries_iff.mpr ((carries_iff.mp h).follow hfollow)

theorem carries_init : (init : Server π).Carries P := carries_iff.mpr holdsMessages_init

theorem carries_step (hcopy : ∀ p, P p → P (tmqStrNew p)) (h : server.Carries P)
    {label : Label π} (hlabel : label.Brings P) (hstep : server.step config label = some next) :
    next.Carries P := by
  have hbrings : label.BringsMessage (PayloadIs P) := by
    cases label with
    | broker label nextPacketId => cases label <;> exact hlabel
    | _ => exact hlabel
  exact carries_iff.mpr
    (holdsMessages_step (forwardable_payloadIs hcopy) (carries_iff.mp h) hbrings hstep)

end Server

/-! ### Stamped runs -/

/-- A packet whose payload bears a stamp. -/
def Packet.stamp (n : Nat) : Packet Bytes → Packet Stamped
  | .publish pkt => .publish ⟨pkt.flags, pkt.topic, pkt.packetId, ⟨n, pkt.payload⟩⟩
  | .connect pkt => .connect pkt
  | .connack pkt => .connack pkt
  | .puback packetId => .puback packetId
  | .pubrec packetId => .pubrec packetId
  | .pubrel packetId => .pubrel packetId
  | .pubcomp packetId => .pubcomp packetId
  | .subscribe pkt => .subscribe pkt
  | .suback pkt => .suback pkt
  | .unsubscribe pkt => .unsubscribe pkt
  | .unsuback packetId => .unsuback packetId
  | .pingreq => .pingreq
  | .pingresp => .pingresp
  | .disconnect => .disconnect

def ConnectReq.willPayload (req : ConnectReq Bytes) : Bytes := req.pkt.willMessage.getD []

def Broker.Label.stamp (n : Nat) : Broker.Label Bytes → Broker.Label Stamped
  | .accept k connId => .accept k connId
  | .connect k req fails => .connect k ⟨req.pkt, ⟨n, req.willPayload⟩⟩ fails
  | .disconnect k => .disconnect k
  | .subscribe k pkt => .subscribe k pkt
  | .unsubscribe k pkt => .unsubscribe k pkt
  | .packet k => .packet k
  | .close k => .close k
  | .writeError k => .writeError k
  | .validate i valid => .validate i valid
  | .connectComplete ioContext => .connectComplete ioContext
  | .execute run => .execute run
  | .publish req => .publish ⟨req.topic, ⟨⟨n, req.message.message⟩, req.message.qos⟩, req.retain,
      req.isTunneledPub, req.publisherUsername, req.publisherClientId⟩
  | .broadcast ioContext => .broadcast ioContext

namespace Server

def Label.stamp (n : Nat) : Label Bytes → Label Stamped
  | .packet k pkt malloc => .packet k (pkt.stamp n) malloc
  | .publish => .publish
  | .broadcast ioContext mallocs => .broadcast ioContext mallocs
  | .broker label nextPacketId => .broker (label.stamp n) nextPacketId

/-- Every payload is stamped with the position of its step. -/
def stamped (labels : List (Label Bytes)) : List (Label Stamped) :=
  labels.zipIdx.map fun label => label.1.stamp label.2

/-- The payload of an application message that a step brings in: that of a
PUBLISH, or the will message of a CONNECT. -/
def Label.received : Label Bytes → Option Bytes
  | .packet _ (.publish pkt) _ => some pkt.payload
  | .broker (.connect _ req _) _ => some req.willPayload
  | _ => none

def receivedAt (labels : List (Label Bytes)) (n : Nat) : Option Bytes :=
  labels[n]?.bind Label.received

def Received (labels : List (Label Bytes)) (p : Stamped) : Prop :=
  ∃ payload, receivedAt labels p.stamp = some payload ∧ (p.bytes = payload ∨ p.bytes = cstr payload)

theorem received_copy {labels : List (Label Bytes)} {p : Stamped} (h : Received labels p) :
    Received labels (tmqStrNew p) := by
  obtain ⟨payload, hreceived, hbytes⟩ := h
  refine ⟨payload, hreceived, .inr ?_⟩
  rcases hbytes with hsame | hcopy
  · simp [hsame]
  · simp [hcopy]

theorem brings_stamped (labels : List (Label Bytes)) :
    ∀ label ∈ stamped labels, label.Brings (Received labels) := by
  intro label hmem
  obtain ⟨⟨original, n⟩, hlabel, rfl⟩ := List.mem_map.mp hmem
  have hat : labels[n]? = some original := List.mem_zipIdx_iff_getElem?.mp hlabel
  cases original with
  | packet k pkt malloc =>
      intro publish hpublish
      cases pkt with
      | publish pkt =>
          obtain rfl := Packet.publish.inj hpublish
          exact ⟨pkt.payload, by simp [receivedAt, hat, Label.received], .inl rfl⟩
      | _ => cases hpublish
  | broker label nextPacketId =>
      cases label with
      | connect k req fails =>
          intro will hwill
          have hpayload : Received labels ⟨n, req.willPayload⟩ :=
            ⟨req.willPayload, by simp [receivedAt, hat, Label.received], .inl rfl⟩
          unfold ConnectReq.will at hwill
          split at hwill
          · obtain ⟨topic, -, rfl⟩ := Option.map_eq_some_iff.mp hwill
            exact received_copy hpayload
          · cases hwill
      | _ => trivial
  | _ => trivial

/-- A PUBLISH that the server writes carries the payload that came in just when
that payload has no zero byte. -/
theorem written_payload_eq_iff (config : BrokerConfig Stamped J) (labels : List (Label Bytes))
    {server : Server Stamped} (hrun : Run.runs (step config) init (stamped labels) = some server)
    {k : Nat} {pkt : PublishPkt Stamped} (hwritten : .publish pkt ∈ server.written k) :
    ∃ payload, receivedAt labels pkt.payload.stamp = some payload ∧
      (pkt.payload.bytes = payload ↔ 0 ∉ payload) := by
  have hcarries : server.Carries (Received labels) := by
    refine @Run.runs_relates _ Unit _ (fun label => label.Brings (Received labels)) _
      (fun _ _ => ()) (fun state _ => state.Carries (Received labels)) ?_ _
      (brings_stamped labels) _ _ () carries_init hrun
    intro state _ label next h hlabel hstep
    exact carries_step (fun p => received_copy) h hlabel hstep
  obtain ⟨p, ⟨payload, hreceived, hbytes⟩, hcopy⟩ := hcarries.written k _ hwritten pkt rfl
  have hstamp : pkt.payload.stamp = p.stamp := by simp [hcopy]
  have hpayload : pkt.payload.bytes = cstr payload := by
    rcases hbytes with hsame | hcopied
    · simp [hcopy, hsame]
    · simp [hcopy, hcopied]
  refine ⟨payload, by rw [hstamp]; exact hreceived, ?_⟩
  rw [hpayload]
  exact cstr_eq_self_iff payload

def publishToSelf (payload : Bytes) : List (Label Bytes) :=
  [.broker (.accept 0 []) 0, .broker (.connect 0 (connectFrom [65] true) false) 0,
    .broker (.execute (sampleExecution 7)) 0, .broker (.connectComplete 0) 0,
    .broker (.subscribe 0 ⟨1, [⟨[116], 1⟩]⟩) 0, .broker (.execute (sampleExecution 0)) 0,
    .packet 0 (.publish ⟨2, [116], 5, payload⟩) 0, .publish, .broadcast 0 fun _ => 0]

def stampedConfig : BrokerConfig Stamped Unit where
  auth := sampleConfig.auth
  ioThreads := sampleConfig.ioThreads
  inflightWindowSize := sampleConfig.inflightWindowSize
  aclDenies := fun _ _ _ => false
  cJsonParse := fun _ => none

theorem written_payload_eq_iff_publishToSelf :
    ∃ server pkt, Run.runs (step stampedConfig) init (stamped (publishToSelf [1, 2])) = some server ∧
      .publish pkt ∈ server.written 0 ∧
      ∃ payload, receivedAt (publishToSelf [1, 2]) pkt.payload.stamp = some payload ∧
        (pkt.payload.bytes = payload ↔ 0 ∉ payload) := by
  refine ⟨_, ⟨2, [116], 0, ⟨6, [1, 2]⟩⟩, rfl, ?_⟩
  have hwritten : ∀ server : Server Stamped,
      Run.runs (step stampedConfig) init (stamped (publishToSelf [1, 2])) = some server →
      .publish ⟨2, [116], 0, ⟨6, [1, 2]⟩⟩ ∈ server.written 0 := by
    intro server hrun
    obtain rfl := Option.some.inj hrun
    change _ ∈ [.puback 5, (.publish ⟨2, [116], 0, ⟨6, [1, 2]⟩⟩ : Packet Stamped)]
    simp
  exact ⟨hwritten _ rfl,
    written_payload_eq_iff stampedConfig (publishToSelf [1, 2]) rfl (hwritten _ rfl)⟩

/-- The PUBLISH that answers ends before the zero byte. -/
theorem written_payload_ne_publishToSelf :
    ∃ server, Run.runs (step stampedConfig) init (stamped (publishToSelf [1, 0, 2])) = some server ∧
      ∃ pkt payload, .publish pkt ∈ server.written 0 ∧
        receivedAt (publishToSelf [1, 0, 2]) pkt.payload.stamp = some payload ∧
        pkt.payload.bytes ≠ payload := by
  refine ⟨_, rfl, ⟨2, [116], 0, ⟨6, [1]⟩⟩, [1, 0, 2], ?_, rfl, by decide⟩
  change _ ∈ [.puback 5, (.publish ⟨2, [116], 0, ⟨6, [1]⟩⟩ : Packet Stamped)]
  simp

end Server

end TinyMqtt
