import TinyMqtt.Session.Progress

/-!
The order in which a session hands packets over. Some packets bear a key. What
an acknowledgement hands over stands in the queue right behind the packets in
flight, and only packets in flight leave the queue.
-/

namespace TinyMqtt

open LinkedList

variable {π α : Type} (key : Packet π → Option α)

def keys (queue : List (QueuedPacket π)) : List α :=
  queue.filterMap fun queued => key queued.2.packet

theorem keys_append (first second : List (QueuedPacket π)) :
    keys key (first ++ second) = keys key first ++ keys key second :=
  List.filterMap_append

theorem keys_take_concat (queue : List (QueuedPacket π)) (queued : QueuedPacket π) (window : Nat) :
    keys key ((queue ++ [queued]).take window) = keys key (queue.take window) ++
      if queue.length < window then (key queued.2.packet).toList else [] := by
  rw [List.take_append, keys_append]
  congr 1
  split
  · rename_i hroom
    rw [List.take_of_length_le (by simp; omega)]
    cases hkey : key queued.2.packet <;> simp [keys, hkey]
  · rename_i hfull
    rw [Nat.sub_eq_zero_of_le (Nat.not_lt.mp hfull)]
    rfl

/-- A packet without a key changes nothing. -/
theorem keys_unkeyed {queued : QueuedPacket π} (hqueued : key queued.2.packet = none)
    (queue : List (QueuedPacket π)) (window : Nat) :
    keys key (queue ++ [queued]) = keys key queue ∧
      keys key ((queue ++ [queued]).take window) = keys key (queue.take window) := by
  constructor
  · rw [keys_append]
    simp [keys, hqueued]
  · rw [keys_take_concat, hqueued]
    simp

variable [TmqString π]

theorem filterMap_copies (hclone : ∀ pkt, key (cloneForSending pkt) = key pkt)
    (queue : List (QueuedPacket π)) : (copies queue).filterMap key = keys key queue := by
  rw [copies, keys, List.filterMap_map]
  congr 1
  funext queued
  exact hclone queued.2.packet

/-- A function of a session that adds no packet with a key takes the queue to
`after` and hands over `packets`. -/
structure Hands (window : Nat) (queue after : List (QueuedPacket π)) (packets : List (Packet π)) :
    Prop where
  kept : (keys key after).Sublist (keys key queue)
  removed : ∀ a ∈ keys key queue, a ∈ keys key after ∨ a ∈ keys key (queue.take window)
  ahead : packets.filterMap key = [] ∨
    keys key (queue.take window) ++ packets.filterMap key <+: keys key queue
  sent : ∀ a ∈ keys key (after.take window),
    a ∈ keys key (queue.take window) ∨ a ∈ packets.filterMap key

namespace Hands

variable {key} {window : Nat} {queue : List (QueuedPacket π)}

omit [TmqString π] in
theorem refl (window : Nat) (queue : List (QueuedPacket π)) : Hands key window queue queue [] where
  kept := .refl _
  removed _ ha := .inl ha
  ahead := .inl rfl
  sent _ ha := .inl ha

/-- The packet behind the window takes the place of a removed one. -/
theorem remove (hclone : ∀ pkt, key (cloneForSending pkt) = key pkt)
    {before : List (QueuedPacket π)} (queued : QueuedPacket π) (after : List (QueuedPacket π))
    (hreach : before.length < window) :
    Hands key window (before ++ queued :: after) (before ++ after)
      (copies ((before ++ queued :: after)[window]?).toList) where
  kept := ((List.sublist_cons_self queued after).append_left before).filterMap _
  removed a ha := by
    obtain ⟨found, hfound, hkey⟩ := List.mem_filterMap.mp ha
    rcases List.mem_append.mp hfound with hbefore | hrest
    · exact .inl (List.mem_filterMap.mpr ⟨found, List.mem_append_left _ hbefore, hkey⟩)
    · rcases List.mem_cons.mp hrest with rfl | hafter
      · refine .inr (List.mem_filterMap.mpr ⟨found, ?_, hkey⟩)
        rw [List.take_append, List.take_cons (by omega)]
        simp
      · exact .inl (List.mem_filterMap.mpr ⟨found, List.mem_append_right _ hafter, hkey⟩)
  ahead := by
    right
    rw [filterMap_copies key hclone, ← keys_append, ← List.take_add_one]
    exact (List.take_prefix _ _).filterMap _
  sent a ha := by
    obtain ⟨found, hfound, hkey⟩ := List.mem_filterMap.mp ha
    rcases (Progress.remove queued after hreach).sent found hfound with hold | hnew
    · exact .inl (List.mem_filterMap.mpr ⟨found, hold, hkey⟩)
    · exact .inr (List.mem_filterMap.mpr ⟨_, hnew, (hclone _).trans hkey⟩)

omit [TmqString π] in
/-- A packet without a key comes to the end of the queue. -/
theorem insert {after : List (QueuedPacket π)} {packets : List (Packet π)}
    (h : Hands key window queue after packets) {queued : QueuedPacket π}
    (hqueued : key queued.2.packet = none) {more : List (Packet π)}
    (hmore : more.filterMap key = []) :
    Hands key window queue (after ++ [queued]) (packets ++ more) := by
  obtain ⟨hkeys, hinflight⟩ := keys_unkeyed key hqueued after window
  constructor
  · rw [hkeys]
    exact h.kept
  · rw [hkeys]
    exact h.removed
  · rw [List.filterMap_append, hmore, List.append_nil]
    exact h.ahead
  · rw [hinflight, List.filterMap_append, hmore, List.append_nil]
    exact h.sent

end Hands

/-- A packet with the key `a`, or one without a key, comes to the end of the
queue or is only handed over. -/
structure Stores (window : Nat) (storeOnly : Bool) (a : Option α)
    (queue after : List (QueuedPacket π)) (packets : List (Packet π)) : Prop where
  queued : keys key after = keys key queue ++ a.toList
  inflight : keys key (after.take window) = keys key (queue.take window) ++
    if queue.length < window then a.toList else []
  sent : packets.filterMap key =
    if queue.length < window ∧ storeOnly = false then a.toList else []
  longer : queue.length ≤ after.length

section Flows

variable {key} {session next : Session π} {window : Nat} {queue : List (QueuedPacket π)}
  {packetId : UInt16} (hclone : ∀ pkt, key (cloneForSending pkt) = key pkt)
  (hpubrel : ∀ packetId, key (.pubrel packetId) = none)

include hclone

theorem acknowledge_hands {type : PacketType} {qos : Int} (h : Represents session window queue)
    (hack : acknowledge session packetId type qos = some next) :
    ∃ after packets, Represents next window after ∧ next.sent = session.sent ++ packets ∧
      Hands key window queue after packets := by
  rcases acknowledge_cases h hack with
    rfl | ⟨before, queued, after, rfl, hreach, hrepresents, hsent, -⟩
  · exact ⟨queue, [], h, by simp, .refl window queue⟩
  · exact ⟨_, _, hrepresents, hsent, .remove hclone queued after hreach⟩

/-- The start of a connection hands over what is in flight. -/
theorem tmqSessionStart_keys (h : Represents session window queue)
    (hstart : tmqSessionStart session = some next) :
    ∃ packets, Represents next window queue ∧ next.sent = session.sent ++ packets ∧
      packets.filterMap key = keys key (queue.take window) := by
  obtain ⟨found, hfound, hrepresents, hsent, -, -⟩ := tmqSessionStart_eq h
  obtain rfl := Option.some.inj (hstart.symm.trans hfound)
  exact ⟨_, hrepresents, hsent, filterMap_copies key hclone (queue.take window)⟩

/-- A publish above QoS 0 is stored. One at QoS 0 has no key. -/
theorem tmqSessionPublish_stores {malloc : Addr} {topic : Bytes} {payload : π} {qos retain : UInt8}
    {storeOnly : Bool} {a : Option α} (h : Represents session window queue)
    (hfree : session.heap malloc = none)
    (hkey : ∀ packetId, key (.publish (newPublishPkt packetId topic payload qos retain)) = a)
    (hqos : ¬ 0 < qos → a = none)
    (hpublish : tmqSessionPublish session malloc topic payload qos retain storeOnly = some next) :
    ∃ after packets, Represents next window after ∧ next.sent = session.sent ++ packets ∧
      Stores key window storeOnly a queue after packets := by
  by_cases hstored : 0 < qos
  · obtain ⟨found, hfound, hrepresents, hsent, -⟩ :=
      tmqSessionPublish_stored h hfree topic payload hstored retain storeOnly rfl
    obtain rfl := Option.some.inj (hpublish.symm.trans hfound)
    have hqueued : key (.publish (tmqPublishPktClone
        (newPublishPkt session.nextPacketId topic payload qos retain))) = a :=
      (hclone (.publish _)).trans (hkey session.nextPacketId)
    refine ⟨_, _, hrepresents, hsent, ?_, ?_, ?_, by simp⟩
    · rw [keys_append]
      congr 1
      cases a <;> simp [keys, hqueued]
    · rw [keys_take_concat, hqueued]
    · split
      · cases a <;> simp [hkey]
      · rfl
  · obtain ⟨found, hfound, hrepresents, hsent, -⟩ :=
      tmqSessionPublish_unstored h malloc topic payload hstored retain storeOnly
    obtain rfl := Option.some.inj (hpublish.symm.trans hfound)
    obtain rfl := hqos hstored
    refine ⟨queue, _, hrepresents, hsent, by simp, by simp, ?_, le_rfl⟩
    split <;> simp [hkey]

include hpubrel

theorem tmqSessionHandlePubrec_hands {malloc : Addr} (h : Represents session window queue)
    (hfree : ∀ acked, acknowledge session packetId .publish 2 = some acked →
      acked.heap malloc = none)
    (hhandle : tmqSessionHandlePubrec session malloc packetId = some next) :
    ∃ after packets, Represents next window after ∧ next.sent = session.sent ++ packets ∧
      Hands key window queue after packets := by
  obtain ⟨acked, hack, -⟩ := Option.bind_eq_some_iff.mp hhandle
  obtain ⟨middle, first, hacked, hfirst, hhands⟩ := acknowledge_hands hclone h hack
  obtain ⟨found, hfound, hrepresents, hsent, -, -⟩ :=
    tmqSessionHandlePubrec_eq hack hacked (hfree acked hack)
  obtain rfl := Option.some.inj (hhandle.symm.trans hfound)
  refine ⟨_, first ++ _, hrepresents, by rw [hsent, hfirst, List.append_assoc],
    hhands.insert (hpubrel packetId) ?_⟩
  split <;> simp [hpubrel]

/-- The session's part in an event adds no packet with a key. -/
theorem handleEvent_hands {malloc : Addr} {event : Event π} (h : Represents session window queue)
    (hsend : ∀ pkt, event ≠ .send pkt)
    (hfree : ∀ upstream packetId acked, event = .onPubRec upstream packetId →
      acknowledge session packetId .publish 2 = some acked → acked.heap malloc = none)
    (hhandle : handleEvent malloc session event = some next) :
    ∃ after packets, Represents next window after ∧ next.sent = session.sent ++ packets ∧
      Hands key window queue after packets := by
  have hsame : ∀ session' : Session π, session'.heap = session.heap →
      session'.messageStore = session.messageStore →
      session'.inflightWindowSize = session.inflightWindowSize →
      session'.inflightPackets = session.inflightPackets → session'.sent = session.sent →
      ∃ after packets, Represents session' window after ∧
        session'.sent = session.sent ++ packets ∧ Hands key window queue after packets := by
    intro session' hheap hstore hwindow hinflight hsent
    exact ⟨queue, [], h.congr hheap hstore hwindow hinflight, by simp [hsent], .refl window queue⟩
  cases event with
  | send pkt => exact (hsend pkt rfl).elim
  | onPublish upstream pkt =>
      obtain rfl := Option.some.inj hhandle
      unfold tmqSessionHandlePublish
      split
      · split
        · exact hsame _ rfl rfl rfl rfl rfl
        · exact hsame _ rfl rfl rfl rfl (by simp [Session.record, Session.sent])
      · exact hsame _ rfl rfl rfl rfl (by simp [Session.record, Session.sent])
  | onPubAck upstream packetId => exact acknowledge_hands hclone h hhandle
  | onPubRec upstream packetId =>
      exact tmqSessionHandlePubrec_hands hclone hpubrel h (hfree upstream packetId · rfl) hhandle
  | onPubRel upstream packetId =>
      obtain rfl := Option.some.inj hhandle
      exact hsame _ rfl rfl rfl rfl rfl
  | onPubComp upstream packetId => exact acknowledge_hands hclone h hhandle
  | _ =>
      obtain rfl := Option.some.inj hhandle
      exact hsame _ rfl rfl rfl rfl rfl

end Flows

end TinyMqtt
