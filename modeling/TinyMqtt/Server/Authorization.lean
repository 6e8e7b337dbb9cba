import TinyMqtt.Broker.Subscribing
import TinyMqtt.Server.Streams

/-!
Access control over whole runs. `mqtt_publish` asks `tmq_acl_auth` and posts
the message, and the logic thread later gives it to `tmq_topics_publish`. The
will of a session that is closed by force is given to `tmq_topics_publish` as
it is. A run is audited: which checks were made, and which messages entered
the topic tree after which checks.
-/

namespace TinyMqtt

open LinkedList

variable {J : Type}

/-- A call of `tmq_acl_auth(session, topic, PUB)`, with whether the answer was
`DENY`. -/
structure AclCheck where
  session : Nat
  topic : Bytes
  denied : Bool
  deriving DecidableEq, Repr

/-- A message given to `tmq_topics_publish` on behalf of a session, with the
checks made before. -/
structure Entry where
  session : Option Nat
  topic : Bytes
  before : List AclCheck
  deriving DecidableEq, Repr

/-- One of the checks before was about this session and this topic, and did
not deny. -/
def Entry.Authorised (entry : Entry) : Prop :=
  ∃ check ∈ entry.before, some check.session = entry.session ∧ check.topic = entry.topic ∧
    check.denied = false

instance (entry : Entry) : Decidable entry.Authorised :=
  inferInstanceAs (Decidable (∃ check ∈ entry.before, _))

/-! ### Publish requests -/

section Requests

variable {π : Type} {config : BrokerConfig π J} {server next : Server π}

/-- A packet makes the codec write some packets, and then call one function of
the session. -/
theorem publishFlowEvents_eq (upstream : Upstream) (pkt : Packet π)
    (hevents : publishFlowEvents upstream pkt ≠ []) :
    ∃ (sends : List (Packet π)) (event : Event π),
      publishFlowEvents upstream pkt = sends.map .send ++ [event] ∧
        ∀ sent, event ≠ .send sent := by
  cases pkt with
  | publish pkt => exact ⟨(publishAck pkt).toList, _, rfl, nofun⟩
  | puback packetId => exact ⟨[], _, rfl, nofun⟩
  | pubrec packetId => exact ⟨[], _, rfl, nofun⟩
  | pubrel packetId => exact ⟨[.pubcomp packetId], _, rfl, nofun⟩
  | pubcomp packetId => exact ⟨[], _, rfl, nofun⟩
  | _ => exact absurd rfl hevents

theorem handleEvents_send [TmqString π] {k s : Nat} {malloc : Addr} {sends : List (Packet π)}
    (hhandle : (sends.map Event.send).foldlM (Server.handleEvent config k s malloc) server
      = some next) :
    next.broker = server.broker ∧ next.flows = server.flows ∧
      next.publishes = server.publishes := by
  induction sends generalizing server with
  | nil =>
      obtain rfl := Option.some.inj hhandle
      exact ⟨rfl, rfl, rfl⟩
  | cons pkt sends ih =>
      obtain ⟨hbroker, hflows, hpublishes⟩ := server.write_frame k [pkt]
      obtain ⟨hbroker', hflows', hpublishes'⟩ := @ih (server.write k [pkt]) hhandle
      exact ⟨hbroker'.trans hbroker, hflows'.trans hflows, hpublishes'.trans hpublishes⟩

end Requests

namespace Server

variable (config : BrokerConfig Bytes J)

/-- The checks made in a step. Only a packet makes a session pass messages to
`mqtt_publish`. -/
def checksBy (server next : Server Bytes) : Label Bytes → List AclCheck
  | .packet k _ _ =>
      match (server.broker.conns k).map ClientConn.upstream with
      | some (.session s) =>
          match server.broker.heap s, server.flows s, next.flows s with
          | some session, some flow, some after =>
              (after.passed.drop flow.passed.length).map fun passed =>
                ⟨s, passed.1, config.aclDenies session passed.1 .pub⟩
          | _, _, _ => []
      | _ => []
  | _ => []

/-- The step executes a `SESSION_FORCE_CLOSE` for a session that has a will. -/
def willClosed (server : Server Bytes) : Label Bytes → Option (Nat × Will Bytes)
  | .broker (.execute _) _ =>
      match server.broker.requests with
      | .close .sessionForceClose (some s) :: _ => do
          let session ← server.broker.heap s
          let will ← session.will
          some (s, will)
      | _ => none
  | _ => none

/-- A server with the checks made so far, the sessions for which publish
requests wait, and what was given to `tmq_topics_publish`. -/
structure Audit where
  server : Server Bytes
  checks : List AclCheck
  pending : List Nat
  entered : List Entry

namespace Audit

def init : Audit := ⟨Server.init, [], [], []⟩

/-- What a step gives to `tmq_topics_publish`: the first request that waits,
or a will. -/
def entering (audit : Audit) (label : Label Bytes) : List Entry :=
  match label, audit.server.publishes with
  | .publish, req :: _ => [⟨audit.pending.head?, req.topic, audit.checks⟩]
  | label, _ => (willClosed audit.server label).toList.map fun closed =>
      ⟨some closed.1, closed.2.topic, audit.checks⟩

def step (audit : Audit) (label : Label Bytes) : Option Audit := do
  let next ← audit.server.step config label
  let checks := checksBy config audit.server next label
  let waiting := match label with
    | .publish => audit.pending.tail
    | _ => audit.pending
  some
    { server := next
      checks := audit.checks ++ checks
      pending := waiting ++ (checks.filter fun check => !check.denied).map AclCheck.session
      entered := audit.entered ++ audit.entering label }

end Audit

variable {config} {server next : Server Bytes}

/-- A check of the session on the topic of the request did not deny. -/
def Permits (checks : List AclCheck) (s : Nat) (req : PublishReq Bytes) : Prop :=
  ∃ check ∈ checks, check.session = s ∧ check.topic = req.topic ∧ check.denied = false

theorem Permits.mono {checks checks' : List AclCheck} (hsubset : checks ⊆ checks') {s : Nat}
    {req : PublishReq Bytes} (h : Permits checks s req) : Permits checks' s req := by
  obtain ⟨check, hmem, hcheck⟩ := h
  exact ⟨check, hsubset hmem, hcheck⟩

/-- The checks of some messages, and the requests that are posted for them. -/
theorem permits_posted (config : BrokerConfig Bytes J) (s : Nat) (session : SessionRecord Bytes)
    (messages : List (Bytes × MqttMessage Bytes × Nat)) :
    List.Forall₂
      (Permits (messages.map fun passed =>
        ⟨s, passed.1, config.aclDenies session passed.1 .pub⟩))
      (((messages.map fun passed =>
        (⟨s, passed.1, config.aclDenies session passed.1 .pub⟩ : AclCheck)).filter
          fun check => !check.denied).map AclCheck.session)
      ((messages.filter fun passed => !config.aclDenies session passed.1 .pub).map
        (publishReqOf session)) := by
  rw [List.filter_map, List.map_map, List.forall₂_map_left_iff, List.forall₂_map_right_iff]
  refine List.forall₂_same.mpr ?_
  intro passed hmem
  obtain ⟨hmem, hpermitted⟩ := List.mem_filter.mp hmem
  exact ⟨_, List.mem_map_of_mem hmem, rfl, rfl, by simpa using hpermitted⟩

/-- A step in which no session runs makes no check. -/
theorem checksBy_of_flows (hflows : next.flows = server.flows) (label : Label Bytes) :
    checksBy config server next label = [] := by
  cases label with
  | packet k pkt malloc =>
      simp only [checksBy, hflows]
      cases (server.broker.conns k).map ClientConn.upstream with
      | none => rfl
      | some upstream =>
          cases upstream with
          | session s =>
              cases hheap : server.broker.heap s with
              | none => simp [hheap]
              | some session =>
                  cases hflow : server.flows s <;> simp [hheap, hflow]
          | _ => rfl
  | _ => rfl

/-- What a packet posts was checked. -/
theorem receivePacket_posts {k : Nat} {pkt : Packet Bytes} {malloc : Addr}
    (hreceive : server.receivePacket config k pkt malloc = some next) :
    ∃ more, next.publishes = server.publishes ++ more ∧
      List.Forall₂ (Permits (checksBy config server next (.packet k pkt malloc)))
        (((checksBy config server next (.packet k pkt malloc)).filter
          fun check => !check.denied).map AclCheck.session) more := by
  simp only [receivePacket, Option.bind_eq_bind, Option.bind_eq_some_iff] at hreceive
  obtain ⟨broker, -, conn, hconn, hreceive⟩ := hreceive
  split at hreceive
  · obtain rfl := Option.some.inj hreceive
    rw [@checksBy_of_flows _ config server { server with broker := broker } rfl]
    exact ⟨[], (List.append_nil _).symm, .nil⟩
  · split at hreceive
    · rename_i s hupstream
      split at hreceive
      · cases hreceive
      · rename_i hevents
        obtain ⟨sends, event, heq, hsend⟩ :=
          publishFlowEvents_eq (.session s) pkt (by simpa using hevents)
        rw [heq, List.foldlM_append] at hreceive
        obtain ⟨middle, hwritten, hcalled⟩ := Option.bind_eq_some_iff.mp hreceive
        obtain ⟨hbroker, hflows, hpublishes⟩ := handleEvents_send hwritten
        rw [List.foldlM_cons] at hcalled
        obtain ⟨after, hhandle, hafter⟩ := Option.bind_eq_some_iff.mp hcalled
        obtain rfl := Option.some.inj hafter
        rw [handleEvent_of_ne_send hsend] at hhandle
        obtain ⟨session, flow, after', -, hsession, hflow, hafter, hposts⟩ := runFlow_posts hhandle
        rw [hbroker] at hsession
        rw [hflows] at hflow
        have hchecks : checksBy config server after (.packet k pkt malloc)
            = (after'.passed.drop flow.passed.length).map fun passed =>
                ⟨s, passed.1, config.aclDenies session passed.1 .pub⟩ := by
          simp only [checksBy, hconn, Option.map_some, hupstream, hsession, hflow, hafter]
        rw [hchecks, hposts, hpublishes]
        exact ⟨_, rfl, permits_posted config s session _⟩
    · cases hreceive

/-- What waits was checked, and what entered was. -/
structure Audit.Valid (audit : Audit) : Prop where
  carries : audit.server.Carries fun _ => True
  pending : List.Forall₂ (Permits audit.checks) audit.pending audit.server.publishes
  entered : ∀ entry ∈ audit.entered, entry.Authorised

theorem Audit.valid_init : Audit.init.Valid :=
  ⟨carries_init, .nil, by simp [Audit.init]⟩

/-- A step other than a packet makes no check, and leaves the requests that
wait but for the one it publishes. -/
theorem step_publishes {label : Label Bytes} (h : server.Carries fun _ => True)
    (hpacket : ∀ k pkt malloc, label ≠ .packet k pkt malloc)
    (hstep : server.step config label = some next) :
    next.publishes = match label with
      | .publish => server.publishes.tail
      | _ => server.publishes := by
  cases label with
  | packet k pkt malloc => exact absurd rfl (hpacket k pkt malloc)
  | publish =>
      simp only [step, handlePublishReq] at hstep
      split at hstep
      · cases hstep
      · rename_i req publishes hpublishes
        obtain ⟨broker, -, hnext⟩ := Option.bind_eq_some_iff.mp hstep
        obtain rfl := Option.some.inj hnext
        simp [hpublishes]
  | broadcast ioContext mallocs =>
      simp only [step, broadcastHandler, Option.bind_eq_bind, Option.bind_eq_some_iff] at hstep
      obtain ⟨⟨task, rest⟩, -, delivered, hdeliver, broker, -, hnext⟩ := hstep
      obtain rfl := Option.some.inj hnext
      have hpublishes := deliverAll_publishes h hdeliver
      exact hpublishes
  | broker label nextPacketId => exact (handle_change h (step_handle hstep).1).2

/-- A step that publishes no will keeps the audit valid. -/
theorem Audit.valid_step {audit after : Audit} {label : Label Bytes} (h : audit.Valid)
    (hwill : willClosed audit.server label = none) (hstep : audit.step config label = some after) :
    after.Valid := by
  obtain ⟨next, hnext, hafter⟩ := Option.bind_eq_some_iff.mp hstep
  obtain rfl := Option.some.inj hafter
  have hcarries : next.Carries fun _ => True :=
    carries_step (fun _ _ => trivial) h.carries label.brings_true hnext
  cases label with
  | packet k pkt malloc =>
      obtain ⟨more, hmore, hposted⟩ := receivePacket_posts hnext
      refine ⟨hcarries, ?_, ?_⟩
      · rw [hmore]
        exact List.rel_append (h.pending.imp fun _ _ => Permits.mono (List.subset_append_left ..))
          (hposted.imp fun _ _ => Permits.mono (List.subset_append_right ..))
      · simpa [Audit.entering, willClosed] using h.entered
  | publish =>
      have hpublishes := step_publishes h.carries (by simp) hnext
      cases hwaiting : audit.server.publishes with
      | nil => simp [Server.step, handlePublishReq, hwaiting] at hnext
      | cons req publishes =>
          rw [hwaiting] at hpublishes
          have hpending := h.pending
          rw [hwaiting] at hpending
          obtain ⟨s, waiting, ⟨check, hcheck, hsession, htopic, hdenied⟩, hothers, heq⟩ :=
            List.forall₂_cons_right_iff.mp hpending
          refine ⟨hcarries, ?_, ?_⟩
          · simpa [checksBy, hpublishes, heq] using hothers
          · intro entry hentry
            rcases List.mem_append.mp hentry with hentry | hentry
            · exact h.entered entry hentry
            · -- the request that waited longest, with the check it was posted after
              obtain rfl : entry = ⟨some s, req.topic, audit.checks⟩ := by
                simpa [Audit.entering, hwaiting, heq] using hentry
              exact ⟨check, hcheck, congrArg some hsession, htopic, hdenied⟩
  | broadcast ioContext mallocs =>
      have hpublishes := step_publishes h.carries (by simp) hnext
      refine ⟨hcarries, ?_, ?_⟩
      · simpa [checksBy, hpublishes] using h.pending
      · simpa [Audit.entering, willClosed] using h.entered
  | broker label nextPacketId =>
      have hpublishes := step_publishes h.carries (by simp) hnext
      refine ⟨hcarries, ?_, ?_⟩
      · simpa [checksBy, hpublishes] using h.pending
      · simpa [Audit.entering, hwill] using h.entered

/-- In a run in which no session that has a will is closed by force, every
message that enters the topic tree on behalf of a session was checked before,
and not denied. -/
theorem entered_authorised (config : BrokerConfig Bytes J) {labels : List (Label Bytes)}
    {final : Audit}
    (hlabels : Run.Admissible (fun audit label => willClosed audit.server label = none)
      (Audit.step config) Audit.init labels)
    (hrun : Run.runs (Audit.step config) Audit.init labels = some final) :
    ∀ entry ∈ final.entered, entry.Authorised := by
  have hvalid : final.Valid := by
    refine Run.runs_preserves ?_ Audit.valid_init hlabels hrun
    intro audit label next h hwill hstep
    exact Audit.valid_step h hwill hstep
  exact hvalid.entered

/-- Nobody may publish to `t`, and everything else is allowed. -/
def denyPublish : Acl :=
  ⟨.node .new (.cons [116] (.leaf ⟨[], [⟨.all, .pub, .deny⟩]⟩) .nil), .allow⟩

def denyPublishConfig : BrokerConfig Bytes Unit :=
  { sampleConfig with aclDenies := denyPublish.denies fun _ => 0 }

def connectAndPublish (topic : Bytes) : List (Label Bytes) :=
  [.broker (.accept 0 []) 0, .broker (.connect 0 (connectFrom [65] true) false) 0,
    .broker (.execute (sampleExecution 7)) 0, .broker (.connectComplete 0) 0,
    .packet 0 (.publish ⟨2, topic, 5, [1]⟩) 0, .publish]

theorem entered_authorised_publish : ∃ final : Audit,
    Run.runs (Audit.step denyPublishConfig) Audit.init (connectAndPublish [117]) = some final ∧
      final.entered.map Entry.topic = [[117]] ∧ ∀ entry ∈ final.entered, entry.Authorised := by
  refine ⟨_, rfl, rfl, ?_⟩
  exact @entered_authorised Unit denyPublishConfig (connectAndPublish [117]) _ (by decide) rfl

def connectWithWill : ConnectReq Bytes :=
  ⟨⟨6, 60, some [65], some [116], some [98], none, none⟩, [98]⟩

/-- The connection of a client is lost, whose will is on a topic to which it
may not publish. -/
theorem not_authorised_will : ∃ (labels : List (Label Bytes)) (final : Audit),
    Run.runs (Audit.step denyPublishConfig) Audit.init labels = some final ∧
      (∀ session, denyPublishConfig.aclDenies session [116] .pub = true) ∧
      ∃ entry ∈ final.entered, entry.session = some 7 ∧ entry.topic = [116] ∧
        ¬ entry.Authorised := by
  refine ⟨[.broker (.accept 0 []) 0, .broker (.connect 0 connectWithWill false) 0,
    .broker (.execute (sampleExecution 7)) 0, .broker (.connectComplete 0) 0,
    .broker (.close 0) 0, .broker (.execute (sampleExecution 0)) 0], _, rfl, ?_,
    ⟨some 7, [116], []⟩, ?_, rfl, rfl, by decide⟩
  · intro session
    rfl
  · change _ ∈ [(⟨some 7, [116], []⟩ : Entry)]
    exact List.mem_singleton_self _

end Server

end TinyMqtt
