import TinyMqtt.Session.Spec

/-!
The packet identifiers of a session. All of them come from one counter that
goes through all 16 bit numbers, zero included, and does not look at the
identifiers still in use. They are good as long as the counter is not zero
when it is read and no unacknowledged PUBLISH carries its value.
-/

namespace TinyMqtt

open LinkedList

variable {π : Type} [TmqString π]

/-- What a session can be made to do with packet identifiers. -/
inductive SessionCall (π : Type) where
  | publish (malloc : Addr) (topic : Bytes) (payload : π) (qos : UInt8) (retain storeOnly : Bool)
  | subscribe (topicFilter : Bytes) (qos : UInt8)
  | unsubscribe (topicFilter : Bytes)
  | puback (packetId : UInt16)
  | pubrec (malloc : Addr) (packetId : UInt16)
  | pubcomp (packetId : UInt16)
  | start

def SessionCall.step (session : Session π) : SessionCall π → Option (Session π)
  | .publish malloc topic payload qos retain storeOnly =>
      tmqSessionPublish session malloc topic payload qos (if retain then 1 else 0) storeOnly
  | .subscribe topicFilter qos => some (tmqSessionSubscribe session topicFilter qos)
  | .unsubscribe topicFilter => some (tmqSessionUnsubscribe session topicFilter)
  | .puback packetId => tmqSessionHandlePuback session packetId
  | .pubrec malloc packetId => tmqSessionHandlePubrec session malloc packetId
  | .pubcomp packetId => tmqSessionHandlePubcomp session packetId
  | .start => tmqSessionStart session

/-- The packets of the message store, from the head of its queue on. -/
def Stored (session : Session π) (queue : List (QueuedPacket π)) : Prop :=
  Segment session.heap session.messageStore.sendingQueueHead queue none

/-- The identifiers of the PUBLISH packets among stored packets. -/
def publishIds (queue : List (QueuedPacket π)) : List UInt16 :=
  queue.filterMap fun queued =>
    match queued.2.packet with
    | .publish pkt => some pkt.packetId
    | _ => none

/-- The packet identifier on the wire. A PUBLISH has one above QoS 0 only. -/
def Packet.wireId : Packet π → Option UInt16
  | .publish pkt => if publishQos pkt.flags = 0 then none else some pkt.packetId
  | .puback packetId | .pubrec packetId | .pubrel packetId | .pubcomp packetId
  | .unsuback packetId => some packetId
  | .subscribe pkt => some pkt.packetId
  | .suback pkt => some pkt.packetId
  | .unsubscribe pkt => some pkt.packetId
  | _ => none

/-- `malloc` returns memory that is not in use. -/
def SessionCall.Allocates (session : Session π) : SessionCall π → Prop
  | .publish malloc _ _ _ _ _ => session.heap malloc = none
  | .pubrec malloc packetId => ∀ acked,
      acknowledge session packetId .publish 2 = some acked → acked.heap malloc = none
  | _ => True

/-- The identifier that a call takes is not zero, and no unacknowledged
PUBLISH has it. A PUBREC names no packet zero. -/
def SessionCall.TakesFreeId (session : Session π) : SessionCall π → Prop
  | .publish _ _ _ qos _ _ => 0 < qos → session.nextPacketId ≠ 0 ∧
      ∀ queue, Stored session queue → session.nextPacketId ∉ publishIds queue
  | .subscribe _ _ | .unsubscribe _ => session.nextPacketId ≠ 0
  | .pubrec _ packetId => packetId ≠ 0
  | _ => True

/-- No identifier on the wire is zero and no two unacknowledged PUBLISH
packets share one. -/
structure GoodIds (session : Session π) : Prop where
  nonzero : ∀ pkt ∈ session.sent, pkt.wireId ≠ some 0
  distinct : ∃ queue, Stored session queue ∧ (publishIds queue).Nodup

/-- A stored packet that can be sent: its identifier is not zero. -/
def SendableId (queued : QueuedPacket π) : Prop := queued.2.packet.wireId ≠ some 0

/-- The invariant of a session that takes free identifiers. -/
structure FreeIds (session : Session π) (window : Nat) (queue : List (QueuedPacket π)) : Prop where
  represents : Represents session window queue
  sendable : ∀ queued ∈ queue, SendableId queued
  distinct : (publishIds queue).Nodup
  nonzero : ∀ pkt ∈ session.sent, pkt.wireId ≠ some 0

theorem wireId_cloneForSending (pkt : Packet π) : (cloneForSending pkt).wireId = pkt.wireId := by
  cases pkt <;> rfl

theorem wireId_copies {packets : List (QueuedPacket π)} (hsendable : ∀ queued ∈ packets, SendableId queued) :
    ∀ pkt ∈ copies packets, pkt.wireId ≠ some 0 := by
  intro pkt hpkt
  obtain ⟨queued, hqueued, rfl⟩ := List.mem_map.mp hpkt
  rw [wireId_cloneForSending]
  exact hsendable queued hqueued

omit [TmqString π] in
/-- A session that has only sent more packets with good identifiers. -/
theorem FreeIds.of_sent {session next : Session π} {window : Nat}
    {queue queue' : List (QueuedPacket π)} (h : FreeIds session window queue)
    (hrepresents : Represents next window queue') (hsendable : ∀ queued ∈ queue', SendableId queued)
    (hdistinct : (publishIds queue').Nodup) {packets : List (Packet π)}
    (hsent : next.sent = session.sent ++ packets) (hpackets : ∀ pkt ∈ packets, pkt.wireId ≠ some 0) :
    FreeIds next window queue' := by
  refine ⟨hrepresents, hsendable, hdistinct, ?_⟩
  intro pkt hpkt
  rw [hsent] at hpkt
  rcases List.mem_append.mp hpkt with hold | hnew
  · exact h.nonzero pkt hold
  · exact hpackets pkt hnew

theorem freeIds_acknowledge {session : Session π} {window : Nat} {queue : List (QueuedPacket π)}
    (h : FreeIds session window queue) (packetId : UInt16) (type : PacketType) (qos : Int) :
    ∃ next queue', acknowledge session packetId type qos = some next ∧
      FreeIds next window queue' := by
  by_cases hacked : ∃ queued ∈ queue.take window, queued.2.acknowledgedBy packetId type qos = true
  · obtain ⟨before, queued, after, rfl, hreach, hbefore, hqueued⟩ := exists_first_acked hacked
    obtain ⟨next, hack, hrepresents, hsent, -⟩ :=
      acknowledge_valid h.represents hreach hbefore hqueued
    have hsublist : List.Sublist (before ++ after) (before ++ queued :: after) :=
      (List.sublist_cons_self queued after).append_left before
    refine ⟨next, before ++ after, hack, h.of_sent hrepresents ?_ ?_ hsent ?_⟩
    · intro other hother
      exact h.sendable other (hsublist.subset hother)
    · exact h.distinct.sublist (hsublist.filterMap _)
    · apply wireId_copies
      intro other hother
      exact h.sendable other (List.mem_of_getElem? (Option.mem_toList.mp hother))
  · have hnone : ∀ queued ∈ queue.take window,
        queued.2.acknowledgedBy packetId type qos = false := by
      intro queued hqueued
      rw [← Bool.not_eq_true]
      intro hyes
      exact hacked ⟨queued, hqueued, hyes⟩
    exact ⟨session, queue, acknowledge_invalid h.represents hnone, h⟩

theorem newPublishPkt_packetId (nextPacketId : UInt16) (topic : Bytes) (payload : π) {qos : UInt8}
    (hqos : 0 < qos) (retain : UInt8) :
    (newPublishPkt nextPacketId topic payload qos retain).packetId = nextPacketId := by
  rw [newPublishPkt, if_pos hqos]

omit [TmqString π] in
theorem wireId_publish {pkt : PublishPkt π} (hid : pkt.packetId ≠ 0) :
    (Packet.publish pkt).wireId ≠ some 0 := by
  show (if publishQos pkt.flags = 0 then none else some pkt.packetId) ≠ some 0
  split
  · exact nofun
  · intro hzero
    exact hid (Option.some.inj hzero)

theorem freeIds_publish {session : Session π} {window : Nat} {queue : List (QueuedPacket π)}
    (h : FreeIds session window queue) {malloc : Addr} {topic : Bytes} {payload : π} {qos : UInt8}
    {retain storeOnly : Bool}
    (halloc : (SessionCall.publish malloc topic payload qos retain storeOnly).Allocates session)
    (hfree : (SessionCall.publish malloc topic payload qos retain storeOnly).TakesFreeId session) :
    ∃ next queue', tmqSessionPublish session malloc topic payload qos (if retain then 1 else 0)
        storeOnly = some next ∧ FreeIds next window queue' := by
  by_cases hqos : 0 < qos
  · obtain ⟨hnonzero, hunused⟩ := hfree hqos
    have hid := newPublishPkt_packetId session.nextPacketId topic payload hqos
      (if retain then 1 else 0)
    obtain ⟨next, hpublish, hrepresents, hsent, -⟩ := tmqSessionPublish_stored h.represents halloc
      topic payload hqos (if retain then 1 else 0) storeOnly rfl
    refine ⟨next, _, hpublish, h.of_sent hrepresents ?_ ?_ hsent ?_⟩
    · intro queued hqueued
      rcases List.mem_append.mp hqueued with hold | hnew
      · exact h.sendable queued hold
      · obtain rfl := List.mem_singleton.mp hnew
        apply wireId_publish
        rw [tmqPublishPktClone, hid]
        exact hnonzero
    · have hids : publishIds (queue ++ [(malloc,
          ⟨(newPublishPkt session.nextPacketId topic payload qos (if retain then 1 else 0)).packetId,
            .publish (tmqPublishPktClone (newPublishPkt session.nextPacketId topic payload qos
              (if retain then 1 else 0)))⟩)]) = publishIds queue ++ [session.nextPacketId] := by
        rw [publishIds, List.filterMap_append]
        simp [publishIds, tmqPublishPktClone, hid]
      rw [hids]
      apply h.distinct.append (List.nodup_singleton _)
      intro packetId hold hnew
      rw [List.mem_singleton.mp hnew] at hold
      exact hunused queue h.represents.linked hold
    · intro pkt hpkt
      split at hpkt
      · obtain rfl := List.mem_singleton.mp hpkt
        apply wireId_publish
        rw [hid]
        exact hnonzero
      · exact (List.not_mem_nil hpkt).elim
  · obtain ⟨next, hpublish, hrepresents, hsent, -⟩ := tmqSessionPublish_unstored h.represents malloc
      topic payload hqos (if retain then 1 else 0) storeOnly
    refine ⟨next, queue, hpublish, h.of_sent hrepresents h.sendable h.distinct hsent ?_⟩
    intro pkt hpkt
    split at hpkt
    · exact (List.not_mem_nil hpkt).elim
    · obtain rfl := List.mem_singleton.mp hpkt
      rw [newPublishPkt, if_neg hqos]
      -- the retain bit alone is QoS 0
      cases retain <;> simp [Packet.wireId, publishQos]

theorem freeIds_pubrec {session : Session π} {window : Nat} {queue : List (QueuedPacket π)}
    (h : FreeIds session window queue) {malloc : Addr} {packetId : UInt16}
    (halloc : (SessionCall.pubrec malloc packetId).Allocates session) (hid : packetId ≠ 0) :
    ∃ next queue', tmqSessionHandlePubrec session malloc packetId = some next ∧
      FreeIds next window queue' := by
  obtain ⟨acked, queue', hack, hacked⟩ := freeIds_acknowledge h packetId .publish 2
  obtain ⟨next, hpubrec, hrepresents, hsent, -⟩ :=
    tmqSessionHandlePubrec_eq hack hacked.represents (halloc acked hack)
  have hwire : (Packet.pubrel packetId : Packet π).wireId ≠ some 0 := by
    intro hzero
    exact hid (Option.some.inj hzero)
  refine ⟨next, _, hpubrec, hacked.of_sent hrepresents ?_ ?_ hsent ?_⟩
  · intro queued hqueued
    rcases List.mem_append.mp hqueued with hold | hnew
    · exact hacked.sendable queued hold
    · obtain rfl := List.mem_singleton.mp hnew
      exact hwire
  · have hids : publishIds (queue' ++ [(malloc, ⟨packetId, .pubrel packetId⟩)])
        = publishIds queue' := by
      simp [publishIds, List.filterMap_append]
    rw [hids]
    exact hacked.distinct
  · intro pkt hpkt
    split at hpkt
    · obtain rfl := List.mem_singleton.mp hpkt
      exact hwire
    · exact (List.not_mem_nil hpkt).elim

omit [TmqString π] in
/-- A packet sent under an identifier from the counter. -/
theorem freeIds_counted {session : Session π} {window : Nat} {queue : List (QueuedPacket π)}
    (h : FreeIds session window queue) {pkt : Packet π} (hwire : pkt.wireId ≠ some 0) :
    FreeIds (tmqSessionSendPacket
      { session with nextPacketId := nextPacketIdAfter session.nextPacketId } pkt) window queue := by
  have hrepresents : Represents
      { session with nextPacketId := nextPacketIdAfter session.nextPacketId } window queue :=
    ⟨h.represents.linked, h.represents.nodup, h.represents.tail, h.represents.windowSize,
      h.represents.inflight, h.represents.pending, h.represents.totalSize⟩
  apply h.of_sent (hrepresents.record _) h.sendable h.distinct
    (sent_tmqSessionSendPacket { session with nextPacketId := nextPacketIdAfter session.nextPacketId } pkt)
  intro other hother
  obtain rfl := List.mem_singleton.mp hother
  exact hwire

theorem freeIds_step (window : Nat) (session : Session π) (call : SessionCall π)
    (h : ∃ queue, FreeIds session window queue)
    (hcall : call.Allocates session ∧ call.TakesFreeId session) :
    ∃ next, call.step session = some next ∧ ∃ queue, FreeIds next window queue := by
  obtain ⟨queue, h⟩ := h
  obtain ⟨halloc, hfree⟩ := hcall
  cases call with
  | publish malloc topic payload qos retain storeOnly =>
      obtain ⟨next, queue', hstep, hnext⟩ := freeIds_publish h halloc hfree
      exact ⟨next, hstep, queue', hnext⟩
  | subscribe topicFilter qos =>
      refine ⟨_, rfl, queue, freeIds_counted h ?_⟩
      intro hzero
      exact hfree (Option.some.inj hzero)
  | unsubscribe topicFilter =>
      refine ⟨_, rfl, queue, freeIds_counted h ?_⟩
      intro hzero
      exact hfree (Option.some.inj hzero)
  | puback packetId =>
      obtain ⟨next, queue', hstep, hnext⟩ := freeIds_acknowledge h packetId .publish 1
      exact ⟨next, hstep, queue', hnext⟩
  | pubrec malloc packetId =>
      obtain ⟨next, queue', hstep, hnext⟩ := freeIds_pubrec h halloc hfree
      exact ⟨next, hstep, queue', hnext⟩
  | pubcomp packetId =>
      obtain ⟨next, queue', hstep, hnext⟩ := freeIds_acknowledge h packetId .pubrel (-1)
      exact ⟨next, hstep, queue', hnext⟩
  | start =>
      obtain ⟨next, hstart, hrepresents, hsent, -⟩ := tmqSessionStart_eq h.represents
      refine ⟨next, hstart, queue, h.of_sent hrepresents h.sendable h.distinct hsent ?_⟩
      apply wireId_copies
      intro queued hqueued
      exact h.sendable queued (List.mem_of_mem_take hqueued)

omit [TmqString π] in
theorem freeIds_new (onPublishFinish : Bool) (nextPacketId : UInt16) (window : UInt8) :
    FreeIds (tmqSessionNew onPublishFinish nextPacketId window : Session π) window.toNat [] := by
  constructor
  · exact represents_new onPublishFinish nextPacketId window
  · intro queued hqueued
    exact (List.not_mem_nil hqueued).elim
  · exact List.nodup_nil
  · intro pkt hpkt
    exact (List.not_mem_nil hpkt).elim

/-- In every run of a session whose calls take free identifiers, the
identifiers are good in every state reached. -/
theorem goodIds_of_takesFreeId (onPublishFinish : Bool) (nextPacketId : UInt16) (window : UInt8)
    (calls : List (SessionCall π))
    (hcalls : Run.Admissible
      (fun session call => SessionCall.Allocates session call ∧ SessionCall.TakesFreeId session call)
      SessionCall.step (tmqSessionNew onPublishFinish nextPacketId window) calls) :
    ∃ session, Run.runs SessionCall.step (tmqSessionNew onPublishFinish nextPacketId window) calls
        = some session ∧ GoodIds session := by
  obtain ⟨session, hrun, queue, h⟩ := Run.runs_invariant (freeIds_step window.toNat)
    ⟨[], freeIds_new onPublishFinish nextPacketId window⟩ hcalls
  exact ⟨session, hrun, h.nonzero, queue, h.represents.linked, h.distinct⟩

def twoPublishes : List (SessionCall Bytes) :=
  [.publish 0 [97] [120] 1 false false, .publish 1 [98] [121] 2 false false]

theorem goodIds_twoPublishes :
    ∃ session, Run.runs SessionCall.step (tmqSessionNew false 1 16) twoPublishes = some session ∧
      session.sent.map Packet.wireId = [some 1, some 2] ∧ GoodIds session := by
  have hcalls : Run.Admissible (fun session call => SessionCall.Allocates session call ∧
      SessionCall.TakesFreeId session call) SessionCall.step (tmqSessionNew false 1 16)
      twoPublishes := by
    refine ⟨⟨rfl, fun _ => ⟨by decide, ?_⟩⟩, ⟨rfl, fun _ => ⟨by decide, ?_⟩⟩, trivial⟩
    · intro queue hqueue hmem
      cases queue with
      | nil => exact List.not_mem_nil hmem
      | cons queued queue => cases hqueue.1
    · intro queue hqueue hmem
      -- the only packet in the store has the identifier 1
      have hfirst : [(0, ⟨1, .publish ⟨2, [97], 1, [120]⟩⟩)] = queue :=
        segment_unique ⟨rfl, none, rfl, rfl⟩ hqueue
      rw [← hfirst] at hmem
      revert hmem
      decide
  obtain ⟨session, hrun, hgood⟩ := goodIds_of_takesFreeId false 1 16 twoPublishes hcalls
  exact ⟨session, hrun,
    Run.observe_eq hrun (f := fun session => session.sent.map Packet.wireId) rfl, hgood⟩

/-- A counter that starts at zero gives the identifier zero. -/
theorem not_goodIds_zero :
    ∃ session, Run.runs SessionCall.step (tmqSessionNew false 0 16)
        [(.publish 0 [97] [120] 1 false false : SessionCall Bytes)] = some session ∧
      ¬ GoodIds session := by
  refine ⟨_, rfl, ?_⟩
  intro hgood
  exact hgood.nonzero (.publish ⟨2, [97], 0, [120]⟩) (by decide) (by decide)

end TinyMqtt
