import TinyMqtt.Session.Spec

/-!
How a session's functions move packets: where the packets of the queue come
from, what is handed to the connection, and that a packet that comes into the
window is handed over at once.
-/

namespace TinyMqtt

open LinkedList

variable {π : Type} [TmqString π]

/-- The queue becomes `after`, with `fresh` packets added and `packets` handed
to the connection. -/
structure Progress (window : Nat) (queue fresh after : List (QueuedPacket π))
    (packets : List (Packet π)) : Prop where
  members : ∀ queued ∈ after, queued ∈ queue ++ fresh
  copied : ∀ pkt ∈ packets, pkt ∈ copies (queue ++ fresh)
  sent : ∀ queued ∈ after.take window,
    queued ∈ queue.take window ∨ cloneForSending queued.2.packet ∈ packets

namespace Progress

variable {window : Nat} {queue : List (QueuedPacket π)}

theorem refl (window : Nat) (queue : List (QueuedPacket π)) : Progress window queue [] queue [] where
  members queued hmem := by simpa using hmem
  copied pkt hmem := by cases hmem
  sent queued hmem := .inl hmem

theorem trans {fresh fresh' middle after : List (QueuedPacket π)} {first second : List (Packet π)}
    (h : Progress window queue fresh middle first) (h' : Progress window middle fresh' after second) :
    Progress window queue (fresh ++ fresh') after (first ++ second) where
  members queued hmem := by
    rcases List.mem_append.mp (h'.members queued hmem) with hold | hnew
    · rw [← List.append_assoc]
      exact List.mem_append_left _ (h.members queued hold)
    · simp [hnew]
  copied pkt hmem := by
    rcases List.mem_append.mp hmem with hfirst | hsecond
    · obtain ⟨queued, hqueued, rfl⟩ := List.mem_map.mp (h.copied pkt hfirst)
      refine List.mem_map_of_mem ?_
      rw [← List.append_assoc]
      exact List.mem_append_left _ hqueued
    · obtain ⟨queued, hqueued, rfl⟩ := List.mem_map.mp (h'.copied pkt hsecond)
      refine List.mem_map_of_mem ?_
      rcases List.mem_append.mp hqueued with hold | hnew
      · rw [← List.append_assoc]
        exact List.mem_append_left _ (h.members queued hold)
      · simp [hnew]
  sent queued hmem := by
    rcases h'.sent queued hmem with hold | hsent
    · rcases h.sent queued hold with hinflight | hfirst
      · exact .inl hinflight
      · exact .inr (List.mem_append_left _ hfirst)
    · exact .inr (List.mem_append_right _ hsent)

/-- The packet behind the window takes the place of a removed one. -/
theorem remove {before : List (QueuedPacket π)} (queued : QueuedPacket π)
    (after : List (QueuedPacket π)) (hreach : before.length < window) :
    Progress window (before ++ queued :: after) [] (before ++ after)
      (copies ((before ++ queued :: after)[window]?).toList) where
  members other hmem := by
    rcases List.mem_append.mp hmem with hbefore | hafter
    · simp [hbefore]
    · simp [hafter]
  copied pkt hmem := by
    obtain ⟨other, hother, rfl⟩ := List.mem_map.mp hmem
    refine List.mem_map_of_mem ?_
    rw [List.append_nil]
    exact List.mem_of_getElem? (Option.mem_toList.mp hother)
  sent other hmem := by
    obtain ⟨room, rfl⟩ : ∃ room, window = before.length + (room + 1) :=
      ⟨window - before.length - 1, by omega⟩
    have hlast : (before ++ queued :: after)[before.length + (room + 1)]? = after[room]? := by
      rw [List.getElem?_append_right (by omega)]
      simp
    rw [List.take_length_add_append] at hmem ⊢
    rw [hlast]
    rcases List.mem_append.mp hmem with hbefore | hafter
    · exact .inl (List.mem_append_left _ hbefore)
    · rw [List.take_add_one] at hafter
      rcases List.mem_append.mp hafter with hroom | hnext
      · left
        simp [hroom]
      · right
        exact List.mem_map_of_mem hnext

/-- A new packet is handed over when the window has room. -/
theorem insert (window : Nat) (queue : List (QueuedPacket π)) (queued : QueuedPacket π)
    {packets : List (Packet π)}
    (hcopied : ∀ pkt ∈ packets, pkt = cloneForSending queued.2.packet)
    (hroom : queue.length < window → cloneForSending queued.2.packet ∈ packets) :
    Progress window queue [queued] (queue ++ [queued]) packets where
  members other hmem := hmem
  copied pkt hmem := by
    rw [hcopied pkt hmem]
    exact List.mem_map_of_mem (by simp)
  sent other hmem := by
    rcases Nat.lt_or_ge queue.length window with hlt | hge
    · rcases List.mem_append.mp (List.mem_of_mem_take hmem) with hold | hnew
      · rw [List.take_of_length_le hlt.le]
        exact .inl hold
      · obtain rfl := List.mem_singleton.mp hnew
        exact .inr (hroom hlt)
    · rw [List.take_append_of_le_length hge] at hmem
      exact .inl hmem

/-- The start of a connection hands over the whole window. -/
theorem resend (window : Nat) (queue : List (QueuedPacket π)) :
    Progress window queue [] queue (copies (queue.take window)) where
  members queued hmem := by simpa using hmem
  copied pkt hmem := by
    obtain ⟨queued, hqueued, rfl⟩ := List.mem_map.mp hmem
    refine List.mem_map_of_mem ?_
    rw [List.append_nil]
    exact List.mem_of_mem_take hqueued
  sent queued hmem := .inr (List.mem_map_of_mem hmem)

end Progress

omit [TmqString π] in
/-- Publishing and acknowledging pass no message on. -/
theorem SenderFrame.passed {before after : Session π} (h : SenderFrame before after) :
    after.passed.drop before.passed.length = [] := by
  have hlength : ∀ session : Session π, session.passed.length = session.delivered.length := by
    intro session
    unfold Session.passed Session.delivered
    induction session.log with
    | nil => rfl
    | cons event events ih => cases event <;> simp [ih]
  rw [hlength before, ← h.delivered, ← hlength after, List.drop_length]

section Flows

variable {session next : Session π} {window : Nat} {queue : List (QueuedPacket π)}
  {packetId : UInt16} {type : PacketType} {qos : Int}

/-- An acknowledgement finds nothing, or takes a packet out of the window. -/
theorem acknowledge_cases (h : Represents session window queue)
    (hack : acknowledge session packetId type qos = some next) :
    next = session ∨ ∃ before queued after, queue = before ++ queued :: after ∧
      before.length < window ∧ Represents next window (before ++ after) ∧
      next.sent = session.sent ++ copies (queue[window]?).toList ∧ SenderFrame session next := by
  by_cases hacked : ∃ queued ∈ queue.take window, queued.2.acknowledgedBy packetId type qos = true
  · obtain ⟨before, queued, after, rfl, hreach, hbefore, hqueued⟩ := exists_first_acked hacked
    obtain ⟨found, hfound, hrepresents, hsent, -, hframe⟩ :=
      acknowledge_valid h hreach hbefore hqueued
    obtain rfl := Option.some.inj (hack.symm.trans hfound)
    exact .inr ⟨before, queued, after, rfl, hreach, hrepresents, hsent, hframe⟩
  · have hnone : ∀ queued ∈ queue.take window,
        queued.2.acknowledgedBy packetId type qos = false := by
      intro queued hmem
      rw [← Bool.not_eq_true]
      intro htrue
      exact hacked ⟨queued, hmem, htrue⟩
    exact .inl (Option.some.inj (hack.symm.trans (acknowledge_invalid h hnone)))

theorem acknowledge_progress (h : Represents session window queue)
    (hack : acknowledge session packetId type qos = some next) :
    ∃ after packets, Represents next window after ∧ next.sent = session.sent ++ packets ∧
      Progress window queue [] after packets ∧ SenderFrame session next := by
  rcases acknowledge_cases h hack with
    rfl | ⟨before, queued, after, rfl, hreach, hrepresents, hsent, hframe⟩
  · exact ⟨queue, [], h, by simp, .refl window queue, rfl, rfl, rfl⟩
  · exact ⟨_, _, hrepresents, hsent, .remove queued after hreach, hframe⟩

theorem tmqSessionHandlePubrec_progress {malloc : Addr} (h : Represents session window queue)
    (hfree : ∀ acked, acknowledge session packetId .publish 2 = some acked →
      acked.heap malloc = none)
    (hhandle : tmqSessionHandlePubrec session malloc packetId = some next) :
    ∃ after packets, Represents next window after ∧ next.sent = session.sent ++ packets ∧
      Progress window queue [(malloc, ⟨packetId, .pubrel packetId⟩)] after packets ∧
      SenderFrame session next := by
  obtain ⟨acked, hack, -⟩ := Option.bind_eq_some_iff.mp hhandle
  obtain ⟨middle, first, hacked, hfirst, hremoved, hframe⟩ := acknowledge_progress h hack
  obtain ⟨found, hfound, hrepresents, hsent, -, hstored⟩ :=
    tmqSessionHandlePubrec_eq hack hacked (hfree acked hack)
  obtain rfl := Option.some.inj (hhandle.symm.trans hfound)
  refine ⟨_, first ++ _, hrepresents, by rw [hsent, hfirst, List.append_assoc], ?_,
    hstored.onPublishFinish.trans hframe.onPublishFinish,
    hstored.qos2PacketIds.trans hframe.qos2PacketIds, hstored.delivered.trans hframe.delivered⟩
  refine hremoved.trans (Progress.insert window middle _ ?_ ?_)
  · intro pkt hmem
    split at hmem
    · exact List.mem_singleton.mp hmem
    · cases hmem
  · intro hroom
    rw [if_pos hroom]
    exact List.mem_singleton_self _

/-- A publish above QoS 0 that is only stored makes progress when the window
is full. -/
theorem tmqSessionPublish_progress {malloc : Addr} (h : Represents session window queue)
    (hfree : session.heap malloc = none) {topic : Bytes} {payload : π} {qos retain : UInt8}
    (hqos : 0 < qos) {storeOnly : Bool} (hcopy : ∀ s : π, tmqStrNew (tmqStrNew s) = tmqStrNew s)
    (hpublish : tmqSessionPublish session malloc topic payload qos retain storeOnly = some next) :
    ∃ pkt packets,
      pkt.payload = tmqStrNew payload ∧
      Represents next window
        (queue ++ [(malloc, ⟨pkt.packetId, .publish (tmqPublishPktClone pkt)⟩)]) ∧
      next.sent = session.sent ++ packets ∧
      (∀ sent ∈ packets, sent = .publish pkt) ∧
      ((storeOnly = true → window ≤ queue.length) →
        Progress window queue [(malloc, ⟨pkt.packetId, .publish (tmqPublishPktClone pkt)⟩)]
          (queue ++ [(malloc, ⟨pkt.packetId, .publish (tmqPublishPktClone pkt)⟩)]) packets) ∧
      SenderFrame session next := by
  obtain ⟨found, hfound, hrepresents, hsent, -, hframe⟩ :=
    tmqSessionPublish_stored h hfree topic payload hqos retain storeOnly rfl
  obtain rfl := Option.some.inj (hpublish.symm.trans hfound)
  have hclone : cloneForSending (.publish (tmqPublishPktClone
      (newPublishPkt session.nextPacketId topic payload qos retain)))
      = .publish (newPublishPkt session.nextPacketId topic payload qos retain) := by
    simp [cloneForSending, tmqPublishPktClone, newPublishPkt, hqos, hcopy]
  refine ⟨_, _, ?_, hrepresents, hsent, ?_, ?_, hframe⟩
  · simp [newPublishPkt, hqos]
  · intro pkt hmem
    split at hmem
    · exact List.mem_singleton.mp hmem
    · cases hmem
  · intro hfull
    refine Progress.insert window queue _ ?_ ?_
    · intro pkt hmem
      rw [hclone]
      split at hmem
      · exact List.mem_singleton.mp hmem
      · cases hmem
    · intro hroom
      have hopen : storeOnly = false := by
        rw [← Bool.not_eq_true]
        intro honly
        exact absurd (hfull honly) (by omega)
      rw [if_pos ⟨hroom, hopen⟩, hclone]
      exact List.mem_singleton_self _

theorem tmqSessionPublish_frame {malloc : Addr} (h : Represents session window queue)
    (hfree : session.heap malloc = none) {topic : Bytes} {payload : π} {qos retain : UInt8}
    {storeOnly : Bool}
    (hpublish : tmqSessionPublish session malloc topic payload qos retain storeOnly = some next) :
    SenderFrame session next := by
  by_cases hqos : 0 < qos
  · obtain ⟨found, hfound, -, -, -, hframe⟩ :=
      tmqSessionPublish_stored h hfree topic payload hqos retain storeOnly rfl
    obtain rfl := Option.some.inj (hpublish.symm.trans hfound)
    exact hframe
  · obtain ⟨found, hfound, -, -, hframe⟩ :=
      tmqSessionPublish_unstored h malloc topic payload hqos retain storeOnly
    obtain rfl := Option.some.inj (hpublish.symm.trans hfound)
    exact hframe

theorem tmqSessionStart_progress (h : Represents session window queue)
    (hstart : tmqSessionStart session = some next) :
    ∃ packets, Represents next window queue ∧ next.sent = session.sent ++ packets ∧
      Progress window queue [] queue packets ∧
      (∀ queued ∈ queue.take window, cloneForSending queued.2.packet ∈ packets) ∧
      SenderFrame session next := by
  obtain ⟨found, hfound, hrepresents, hsent, -, hframe⟩ := tmqSessionStart_eq h
  obtain rfl := Option.some.inj (hstart.symm.trans hfound)
  refine ⟨_, hrepresents, hsent, .resend window queue, ?_, hframe⟩
  intro queued hmem
  exact List.mem_map_of_mem hmem

omit [TmqString π] in
/-- The queue depends on the store and the counter only. -/
theorem Represents.congr (h : Represents session window queue) {session' : Session π}
    (hheap : session'.heap = session.heap) (hstore : session'.messageStore = session.messageStore)
    (hwindow : session'.inflightWindowSize = session.inflightWindowSize)
    (hinflight : session'.inflightPackets = session.inflightPackets) :
    Represents session' window queue := by
  constructor
  · rw [hheap, hstore]
    exact h.linked
  · exact h.nodup
  · rw [hstore]
    exact h.tail
  · rw [hwindow]
    exact h.windowSize
  · rw [hinflight]
    exact h.inflight
  · rw [hstore]
    exact h.pending
  · rw [hstore]
    exact h.totalSize

/-- What the session's part in an event does: the only packets it adds are
PUBREL, and the only message it passes on is that of a PUBLISH. -/
def EventProgress (window : Nat) (queue : List (QueuedPacket π)) (event : Event π)
    (session next : Session π) : Prop :=
  ∃ fresh after packets, Represents next window after ∧ next.sent = session.sent ++ packets ∧
    Progress window queue fresh after packets ∧
    (∀ queued ∈ fresh, ∃ packetId, queued.2.packet = .pubrel packetId) ∧
    ∀ passed ∈ next.passed.drop session.passed.length, ∃ upstream pkt,
      event = .onPublish upstream pkt ∧ passed.2.1.message = pkt.payload

/-- The acknowledgements that the codec writes itself are not the session's
part. -/
theorem handleEvent_progress {malloc : Addr} {event : Event π}
    (h : Represents session window queue) (hsend : ∀ pkt, event ≠ .send pkt)
    (hfree : ∀ upstream packetId acked, event = .onPubRec upstream packetId →
      acknowledge session packetId .publish 2 = some acked → acked.heap malloc = none)
    (hhandle : handleEvent malloc session event = some next) :
    EventProgress window queue event session next := by
  have hsame : ∀ session' : Session π, session'.heap = session.heap →
      session'.messageStore = session.messageStore →
      session'.inflightWindowSize = session.inflightWindowSize →
      session'.inflightPackets = session.inflightPackets → session'.sent = session.sent →
      (∀ passed ∈ session'.passed.drop session.passed.length, ∃ upstream pkt,
        event = .onPublish upstream pkt ∧ passed.2.1.message = pkt.payload) →
      EventProgress window queue event session session' := by
    intro session' hheap hstore hwindow hinflight hsent hpassed
    exact ⟨[], queue, [], h.congr hheap hstore hwindow hinflight, by simp [hsent],
      .refl window queue, nofun, hpassed⟩
  cases event with
  | send pkt => exact (hsend pkt rfl).elim
  | onPublish upstream pkt =>
      obtain rfl := Option.some.inj hhandle
      unfold tmqSessionHandlePublish
      split
      · split
        · exact hsame _ rfl rfl rfl rfl rfl (by simp)
        · exact hsame _ rfl rfl rfl rfl (by simp [Session.record, Session.sent])
            (by simp [Session.record, Session.passed])
      · exact hsame _ rfl rfl rfl rfl (by simp [Session.record, Session.sent])
          (by simp [Session.record, Session.passed])
  | onPubAck upstream packetId =>
      obtain ⟨after, packets, hrepresents, hsent, hprogress, hframe⟩ := acknowledge_progress h hhandle
      exact ⟨[], after, packets, hrepresents, hsent, hprogress, nofun, by simp [hframe.passed]⟩
  | onPubRec upstream packetId =>
      obtain ⟨after, packets, hrepresents, hsent, hprogress, hframe⟩ :=
        tmqSessionHandlePubrec_progress h (hfree upstream packetId · rfl) hhandle
      refine ⟨_, after, packets, hrepresents, hsent, hprogress, ?_, by simp [hframe.passed]⟩
      intro queued hmem
      rw [List.mem_singleton.mp hmem]
      exact ⟨packetId, rfl⟩
  | onPubRel upstream packetId =>
      obtain rfl := Option.some.inj hhandle
      exact hsame _ rfl rfl rfl rfl rfl (by simp [tmqSessionHandlePubrel, Session.passed])
  | onPubComp upstream packetId =>
      obtain ⟨after, packets, hrepresents, hsent, hprogress, hframe⟩ := acknowledge_progress h hhandle
      exact ⟨[], after, packets, hrepresents, hsent, hprogress, nofun, by simp [hframe.passed]⟩
  | _ =>
      obtain rfl := Option.some.inj hhandle
      exact hsame _ rfl rfl rfl rfl rfl (by simp)

end Flows

end TinyMqtt
