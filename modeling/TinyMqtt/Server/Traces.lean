import TinyMqtt.Server.InFlight
import TinyMqtt.Server.Payloads
import TinyMqtt.Session.Handing

/-!
The messages of one publisher on their way to one session. A run of stamped
packets is watched: which messages of the publisher come into the sending queue
of the session, and which the session writes to its connection.

A message counts when it reaches the session above QoS 0, and as a subscriber
gets it, without the retain flag. What a SUBSCRIBE brings of retained messages
has the flag.
-/

namespace TinyMqtt

open LinkedList

variable {J : Type}

/-- The stamp of a PUBLISH that counts, where `mine` says which stamps are those
of the publisher. -/
def liveStamp (mine : Nat → Bool) : Packet Stamped → Option Nat
  | .publish pkt =>
      if publishQos pkt.flags ≠ 0 ∧ publishRetain pkt.flags = 0 ∧ mine pkt.payload.stamp then
        some pkt.payload.stamp
      else none
  | _ => none

namespace Server

/-- The packets with these stamps are the PUBLISH packets on a connection. -/
def publishedOn (labels : List (Label Bytes)) (k n : Nat) : Bool :=
  match labels[n]? with
  | some (.packet k' (.publish _) _) => k' = k
  | _ => false

variable (config : BrokerConfig Stamped J) (mine : Nat → Bool) (s : Nat)

/-- The message that `tmq_session_publish` stores for a subscriber of a task. -/
def stampFor (task : BroadcastTask Stamped) (entry : BroadcastEntry) : Option Nat :=
  if entry.session = s ∧ 0 < deliveryQos entry task.message then
    liveStamp mine (.publish (newPublishPkt 0 task.topic task.message.message
      (deliveryQos entry task.message) (if task.retain then 1 else 0)))
  else none

def entering (task : BroadcastTask Stamped) : List Nat :=
  task.subscribers.filterMap (stampFor mine s task)

def enteredBy (server : Server Stamped) : Label Stamped → List Nat
  | .broadcast ioContext _ =>
      match Mailbox.take? BroadcastTask.ioContext ioContext server.broker.broadcastTasks with
      | none => []
      | some (task, _) => entering mine s task
  | _ => []

/-- The packets that the session wrote in a step. What it hands to a connection
that is closed is lost. -/
def writtenBy (server next : Server Stamped) : List (Packet Stamped) :=
  match next.broker.heap s, server.flows s, next.flows s with
  | some session, some flow, some after =>
      if connected next.broker.conns session.conn then after.sent.drop flow.sent.length else []
  | _, _, _ => []

/-- A server and what was seen of the messages: the stamps of those that came
into the queue, and of those that were written, each in order. -/
structure Observed where
  server : Server Stamped
  entered : List Nat
  transmitted : List Nat

namespace Observed

def init : Observed := ⟨Server.init, [], []⟩

def step (seen : Observed) (label : Label Stamped) : Option Observed := do
  let next ← seen.server.step config label
  some
    { server := next
      entered := seen.entered ++ enteredBy mine s seen.server label
      transmitted :=
        seen.transmitted ++ (writtenBy s seen.server next).filterMap (liveStamp mine) }

/-- The messages came into the queue in the order of their packets and none
twice, each of them is in the queue or was written, the queue holds them in this
order, and when one is written every earlier one has been written before. -/
structure InOrder (seen : Observed) : Prop where
  entered : seen.entered.Pairwise (· < ·)
  gone : ∀ n ∈ seen.entered, n ∈ seen.transmitted ∨
    ∃ flow queue, seen.server.flows s = some flow ∧
      Segment flow.heap flow.messageStore.sendingQueueHead queue none ∧
      n ∈ keys (liveStamp mine) queue
  queued : ∀ flow queue, seen.server.flows s = some flow →
    Segment flow.heap flow.messageStore.sendingQueueHead queue none →
    (keys (liveStamp mine) queue).Sublist seen.entered
  transmitted : ∀ first n rest, seen.transmitted = first ++ n :: rest →
    n ∈ seen.entered ∧ ∀ m ∈ seen.entered, m < n → m ∈ first

/-- Every message in flight has been written. -/
def NoneUnsent (seen : Observed) : Prop :=
  ∀ flow queue, seen.server.flows s = some flow →
    Segment flow.heap flow.messageStore.sendingQueueHead queue none →
    ∀ n ∈ keys (liveStamp mine) (queue.take flow.inflightPackets.toNat), n ∈ seen.transmitted

/-- The session is found at most once by a publish: its subscriptions do not
overlap, and the topic has no wildcard that leads to the same filter again. -/
def FoundOnce (server : Server Stamped) (req : PublishReq Stamped) : Prop :=
  ((Broker.matchedTables (tmqTopicsPublish config.cJsonParse server.broker.topicsTree req).2.1).flatMap
    fun subscribers => subscribers.entries.filter fun entry => entry.2.session = s).length ≤ 1

/-- A message of the publisher finds the session once. A task that brings it one
there is room for is handled in time: if it records the session as closed, no connection
is in session with it, and if it records it as open and its connection is open,
then what is in flight has been written. -/
def Timely (seen : Observed) : Label Stamped → Prop
  | .publish => ∀ req publishes, seen.server.publishes = req :: publishes →
      mine req.message.message.stamp → FoundOnce config s seen.server req
  | .broadcast ioContext _ => ∀ task rest,
      Mailbox.take? BroadcastTask.ioContext ioContext seen.server.broker.broadcastTasks
        = some (task, rest) →
      ∀ entry ∈ task.subscribers, (stampFor mine s task entry).isSome →
      ∀ session flow, seen.server.broker.heap s = some session →
        seen.server.flows s = some flow → flow.inflightPackets < flow.inflightWindowSize →
        if entry.isSessionClosed then ∀ k, ¬ Attached seen.server.broker.conns k s
        else connected seen.server.broker.conns session.conn → seen.NoneUnsent mine s
  | _ => True

end Observed

/-! ### Stamps -/

variable {mine} {s}

theorem publishRetain_retained (qos : UInt8) : publishRetain ((1 : UInt8) ||| qos <<< 1) = 1 := by
  unfold publishRetain
  rw [UInt8.toNat_or, Nat.or_mod_two_eq_one]
  exact .inl rfl

/-- The stamp does not depend on the packet identifier. -/
theorem liveStamp_newPublishPkt (mine : Nat → Bool) (packetId : UInt16) (topic : Bytes)
    (payload : Stamped) (qos retain : UInt8) :
    liveStamp mine (.publish (newPublishPkt packetId topic payload qos retain))
      = liveStamp mine (.publish (newPublishPkt 0 topic payload qos retain)) := by
  unfold newPublishPkt
  split <;> rfl

theorem liveStamp_cloneForSending (mine : Nat → Bool) (pkt : Packet Stamped) :
    liveStamp mine (cloneForSending pkt) = liveStamp mine pkt := by
  cases pkt <;> rfl

theorem liveStamp_pubrel (mine : Nat → Bool) (packetId : UInt16) :
    liveStamp mine (.pubrel packetId) = none := rfl

theorem stampFor_eq_some {task : BroadcastTask Stamped} {entry : BroadcastEntry} {n : Nat}
    (hstamp : stampFor mine s task entry = some n) :
    entry.session = s ∧ 0 < deliveryQos entry task.message ∧ n = task.message.message.stamp ∧
      mine n = true ∧ task.retain = false := by
  unfold stampFor at hstamp
  by_cases hentry : entry.session = s ∧ 0 < deliveryQos entry task.message
  · simp only [hentry, and_self, newPublishPkt, if_true, liveStamp, tmqStrNew_stamped,
      Option.ite_none_right_eq_some, Option.some.injEq] at hstamp
    obtain ⟨⟨-, hlive, hmine⟩, rfl⟩ := hstamp
    refine ⟨hentry.1, hentry.2, rfl, hmine, ?_⟩
    by_contra hretain
    rw [Bool.not_eq_false] at hretain
    rw [hretain, if_pos rfl, publishRetain_retained] at hlive
    cases hlive
  · rw [if_neg hentry] at hstamp
    cases hstamp

theorem mem_entering {task : BroadcastTask Stamped} {n : Nat} (hmem : n ∈ entering mine s task) :
    n = task.message.message.stamp ∧ mine n = true ∧ task.retain = false := by
  obtain ⟨entry, -, hstamp⟩ := List.mem_filterMap.mp hmem
  obtain ⟨-, -, hn, hmine, hlive⟩ := stampFor_eq_some hstamp
  exact ⟨hn, hmine, hlive⟩

end Server

end TinyMqtt
