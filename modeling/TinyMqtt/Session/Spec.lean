import TinyMqtt.Session.Session
import TinyMqtt.Store.Refinement

/-!
What the session's functions do to the queue of unacknowledged packets, to
the packets sent and to the set of QoS 2 identifiers, without the pointers of
the message store.
-/

namespace TinyMqtt

open LinkedList

variable {π : Type}

structure SenderFrame (before after : Session π) : Prop where
  onPublishFinish : after.onPublishFinish = before.onPublishFinish
  qos2PacketIds : after.qos2PacketIds = before.qos2PacketIds
  delivered : after.delivered = before.delivered

theorem StoreFrame.sender {before after : Session π} (h : StoreFrame before after) :
    SenderFrame before after :=
  ⟨h.onPublishFinish, h.qos2PacketIds, h.delivered⟩

section Record

variable {session : Session π} {window : Nat} {queue : List (QueuedPacket π)}

theorem Represents.record (h : Represents session window queue) (event : SessionEvent π) :
    Represents (session.record event) window queue :=
  ⟨h.linked, h.nodup, h.tail, h.windowSize, h.inflight, h.pending, h.totalSize⟩

@[simp] theorem sent_tmqSessionSendPacket (session : Session π) (pkt : Packet π) :
    (tmqSessionSendPacket session pkt).sent = session.sent ++ [pkt] := by
  simp [tmqSessionSendPacket, Session.record, Session.sent]

@[simp] theorem delivered_tmqSessionSendPacket (session : Session π) (pkt : Packet π) :
    (tmqSessionSendPacket session pkt).delivered = session.delivered := by
  simp [tmqSessionSendPacket, Session.record, Session.delivered]

theorem SenderFrame.send {before after : Session π} (h : SenderFrame before after)
    (pkt : Packet π) : SenderFrame before (tmqSessionSendPacket after pkt) :=
  ⟨h.onPublishFinish, h.qos2PacketIds, (delivered_tmqSessionSendPacket after pkt).trans h.delivered⟩

end Record

variable [TmqString π] {session : Session π} {window : Nat} {queue : List (QueuedPacket π)}
  {packetId : UInt16} {type : PacketType} {qos : Int}

/-- The copies of queued packets that are handed to the connection. -/
def copies (packets : List (QueuedPacket π)) : List (Packet π) :=
  packets.map fun queued => cloneForSending queued.2.packet

theorem acknowledge_invalid (h : Represents session window queue)
    (hnone : ∀ queued ∈ queue.take window, queued.2.acknowledgedBy packetId type qos = false) :
    acknowledge session packetId type qos = some session := by
  simp [acknowledge, memoryStoreAcknowledge_invalid h hnone]

/-- A valid acknowledgement removes its packet from the queue and sends the
packet that comes into the window. -/
theorem acknowledge_valid {before after : List (QueuedPacket π)} {queued : QueuedPacket π}
    (h : Represents session window (before ++ queued :: after)) (hreach : before.length < window)
    (hbefore : ∀ other ∈ before, other.2.acknowledgedBy packetId type qos = false)
    (hqueued : queued.2.acknowledgedBy packetId type qos = true) :
    ∃ next, acknowledge session packetId type qos = some next ∧
      Represents next window (before ++ after) ∧
      next.sent = session.sent ++ copies ((before ++ queued :: after)[window]?).toList ∧
      next.nextPacketId = session.nextPacketId ∧ SenderFrame session next := by
  obtain ⟨stored, hack, hstored, hframe, -⟩ :=
    memoryStoreAcknowledge_valid h hreach hbefore hqueued
  cases hfirst : (before ++ queued :: after)[window]? with
  | none =>
      rw [hfirst] at hack
      refine ⟨stored, by simp [acknowledge, hack], hstored, ?_, hframe.nextPacketId, hframe.sender⟩
      simp [copies, hframe.sent]
  | some first =>
      rw [hfirst] at hack
      have hmem : first ∈ before ++ after := by
        rw [WindowedFifo.getElem?_window_remove queued after hreach] at hfirst
        exact List.mem_of_getElem? hfirst
      obtain ⟨cell, hcell, hvalue⟩ := Option.map_eq_some_iff.mp (hstored.lookup hmem)
      refine ⟨tmqSessionSendPacket stored (cloneForSending first.2.packet), ?_, hstored.record _,
        ?_, hframe.nextPacketId, hframe.sender.send _⟩
      · simp [acknowledge, hack, hcell, hvalue]
      · simp [copies, hframe.sent]

/-- Publishing above QoS 0 appends the packet to the queue, and sends it when
the window has room. -/
theorem tmqSessionPublish_stored (h : Represents session window queue) {malloc : Addr}
    (hfree : session.heap malloc = none) (topic : Bytes) (payload : π) {qos : UInt8}
    (hqos : 0 < qos) (retain : UInt8) (storeOnly : Bool) {pkt : PublishPkt π}
    (hpkt : newPublishPkt session.nextPacketId topic payload qos retain = pkt) :
    ∃ next, tmqSessionPublish session malloc topic payload qos retain storeOnly = some next ∧
      Represents next window (queue ++ [(malloc, ⟨pkt.packetId, .publish (tmqPublishPktClone pkt)⟩)]) ∧
      next.sent = session.sent ++
        (if queue.length < window ∧ storeOnly = false then [.publish pkt] else []) ∧
      next.nextPacketId = nextPacketIdAfter session.nextPacketId ∧ SenderFrame session next := by
  have hnumbered : Represents
      { session with nextPacketId := nextPacketIdAfter session.nextPacketId } window queue :=
    ⟨h.linked, h.nodup, h.tail, h.windowSize, h.inflight, h.pending, h.totalSize⟩
  obtain ⟨stored, hstore, hstored, hframe⟩ := memoryStoreStoreMessage_represents hnumbered hfree
    ⟨pkt.packetId, .publish (tmqPublishPktClone pkt)⟩
  have hsender : SenderFrame session stored :=
    ⟨hframe.onPublishFinish, hframe.qos2PacketIds, hframe.delivered⟩
  have hsent : stored.sent = session.sent := hframe.sent
  by_cases hsend : queue.length < window ∧ storeOnly = false
  · refine ⟨tmqSessionSendPacket stored (.publish pkt), ?_, hstored.record _, ?_,
      hframe.nextPacketId, hsender.send _⟩
    · simp [tmqSessionPublish, hqos, hpkt, hstore, hsend]
    · simp [hsent, hsend]
  · refine ⟨stored, ?_, hstored, by simp [hsent, hsend], hframe.nextPacketId, hsender⟩
    simp only [tmqSessionPublish, hqos, hpkt, ↓reduceIte, hstore, Option.bind_eq_bind,
      Option.bind_some, Bool.and_eq_true, decide_eq_true_eq, Bool.not_eq_true']
    rw [if_neg hsend]

/-- A publish at QoS 0 is sent or dropped, never stored. -/
theorem tmqSessionPublish_unstored (h : Represents session window queue) (malloc : Addr)
    (topic : Bytes) (payload : π) {qos : UInt8} (hqos : ¬ 0 < qos) (retain : UInt8)
    (storeOnly : Bool) :
    ∃ next, tmqSessionPublish session malloc topic payload qos retain storeOnly = some next ∧
      Represents next window queue ∧
      next.sent = session.sent ++ (if storeOnly then [] else
        [.publish (newPublishPkt session.nextPacketId topic payload qos retain)]) ∧
      SenderFrame session next := by
  have hsame : SenderFrame session session := ⟨rfl, rfl, rfl⟩
  cases storeOnly with
  | true => exact ⟨session, by simp [tmqSessionPublish, hqos], h, by simp, hsame⟩
  | false =>
      refine ⟨tmqSessionSendPacket session
        (.publish (newPublishPkt session.nextPacketId topic payload qos retain)), ?_, h.record _,
        by simp, hsame.send _⟩
      simp [tmqSessionPublish, hqos]

/-- A PUBREC stores a PUBREL at the end of the queue that the acknowledgement
left. -/
theorem tmqSessionHandlePubrec_eq {acked : Session π} {malloc : Addr}
    (hack : acknowledge session packetId .publish 2 = some acked)
    (hacked : Represents acked window queue) (hfree : acked.heap malloc = none) :
    ∃ next, tmqSessionHandlePubrec session malloc packetId = some next ∧
      Represents next window (queue ++ [(malloc, ⟨packetId, .pubrel packetId⟩)]) ∧
      next.sent = acked.sent ++ (if queue.length < window then [.pubrel packetId] else []) ∧
      next.nextPacketId = acked.nextPacketId ∧ SenderFrame acked next := by
  obtain ⟨stored, hstore, hstored, hframe⟩ := memoryStoreStoreMessage_represents hacked hfree
    ⟨packetId, .pubrel packetId⟩
  by_cases hroom : queue.length < window
  · refine ⟨tmqSessionSendPacket stored (.pubrel packetId), ?_, hstored.record _, ?_,
      hframe.nextPacketId, hframe.sender.send _⟩
    · simp [tmqSessionHandlePubrec, hack, hstore, hroom]
    · simp [hframe.sent, hroom]
  · refine ⟨stored, ?_, hstored, by simp [hframe.sent, hroom], hframe.nextPacketId, hframe.sender⟩
    simp [tmqSessionHandlePubrec, hack, hstore, hroom]

/-- The loop of `resend_messages` sends copies of the packets from `start` up
to the pending pointer. -/
theorem resendMessagesFrom_eq {start : Option Addr} {packets waiting : List (QueuedPacket π)}
    {fuel : Nat} (hseg : Segment session.heap start (packets ++ waiting) none)
    (hnodup : ((packets ++ waiting).map Prod.fst).Nodup)
    (hpending : session.messageStore.pendingPointer = waiting.head?.map Prod.fst)
    (hfuel : packets.length < fuel) :
    resendMessagesFrom session fuel start
      = some ((copies packets).foldl tmqSessionSendPacket session) := by
  induction packets generalizing session start fuel with
  | nil =>
      obtain ⟨fuel, rfl⟩ : ∃ n, fuel = n + 1 := ⟨fuel - 1, by simp at hfuel; omega⟩
      have hstart : start = session.messageStore.pendingPointer := by
        rw [segment_start hseg, hpending, List.nil_append, List.head?_eq_getElem?]
      cases start with
      | none => simp [resendMessagesFrom, copies]
      | some addr => simp [resendMessagesFrom, copies, ← hstart]
  | cons queued packets ih =>
      obtain ⟨fuel, rfl⟩ : ∃ n, fuel = n + 1 := ⟨fuel - 1, by simp at hfuel; omega⟩
      obtain ⟨rfl, next, hcell, hrest⟩ := hseg
      simp only [List.cons_append, List.map_cons, List.nodup_cons] at hnodup
      have hne : session.messageStore.pendingPointer ≠ some queued.1 := by
        intro heq
        rw [hpending, Option.map_eq_some_iff] at heq
        obtain ⟨first, hfirst, hsame⟩ := heq
        refine hnodup.1 (hsame ▸ List.mem_map_of_mem ?_)
        exact List.mem_append_right _ (List.mem_of_head? hfirst)
      have hsend := @ih (tmqSessionSendPacket session (cloneForSending queued.2.packet)) next fuel
        hrest hnodup.2 hpending (by simpa using hfuel)
      simp [resendMessagesFrom, hne, hcell, hsend, copies]

omit [TmqString π] in
theorem sendPackets_eq (h : Represents session window queue) (packets : List (Packet π)) :
    Represents (packets.foldl tmqSessionSendPacket session) window queue ∧
      (packets.foldl tmqSessionSendPacket session).sent = session.sent ++ packets ∧
      (packets.foldl tmqSessionSendPacket session).nextPacketId = session.nextPacketId ∧
      SenderFrame session (packets.foldl tmqSessionSendPacket session) := by
  induction packets using List.reverseRecOn with
  | nil => exact ⟨h, by simp, rfl, rfl, rfl, rfl⟩
  | append_singleton packets pkt ih =>
      obtain ⟨hrepresents, hsent, hnext, hframe⟩ := ih
      rw [List.foldl_append]
      exact ⟨hrepresents.record _, by simp [hsent], hnext, hframe.send pkt⟩

/-- The start of a connection sends the inflight packets in queue order. -/
theorem tmqSessionStart_eq (h : Represents session window queue) :
    ∃ next, tmqSessionStart session = some next ∧ Represents next window queue ∧
      next.sent = session.sent ++ copies (queue.take window) ∧
      next.nextPacketId = session.nextPacketId ∧ SenderFrame session next := by
  have hsplit : queue = queue.take window ++ queue.drop window :=
    (List.take_append_drop window queue).symm
  have hpending : session.messageStore.pendingPointer
      = (queue.drop window).head?.map Prod.fst := by
    rw [h.pending, List.head?_drop]
  have hfuel : (queue.take window).length < session.inflightPackets.toNat + 1 := by
    rw [List.length_take, h.inflight]
    omega
  have hresend := resendMessagesFrom_eq (hsplit ▸ h.linked) (hsplit ▸ h.nodup) hpending hfuel
  exact ⟨_, hresend, sendPackets_eq h _⟩

section Receive

variable {π : Type} [TmqString π] (upstream : Upstream) (malloc : Addr) (session : Session π)
  (packetId : UInt16)

theorem receivePacket_puback :
    receivePacket upstream malloc session (.puback packetId)
      = acknowledge session packetId .publish 1 := by
  simp [receivePacket, publishFlowEvents, handleEvent, tmqSessionHandlePuback]

theorem receivePacket_pubrec :
    receivePacket upstream malloc session (.pubrec packetId)
      = tmqSessionHandlePubrec session malloc packetId := by
  simp [receivePacket, publishFlowEvents, handleEvent]

theorem receivePacket_pubcomp :
    receivePacket upstream malloc session (.pubcomp packetId)
      = acknowledge session packetId .pubrel (-1) := by
  simp [receivePacket, publishFlowEvents, handleEvent, tmqSessionHandlePubcomp]

theorem receivePacket_pubrel :
    receivePacket upstream malloc session (.pubrel packetId)
      = some (tmqSessionHandlePubrel (tmqSessionSendPacket session (.pubcomp packetId)) packetId) := by
  simp [receivePacket, publishFlowEvents, handleEvent]

theorem receivePacket_publish (pkt : PublishPkt π) :
    receivePacket upstream malloc session (.publish pkt)
      = some (tmqSessionHandlePublish
          ((publishAck pkt).toList.foldl tmqSessionSendPacket session) pkt) := by
  cases hack : publishAck pkt <;> simp [receivePacket, publishFlowEvents, handleEvent, hack]

end Receive

end TinyMqtt
