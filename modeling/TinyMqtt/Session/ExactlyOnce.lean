import TinyMqtt.Lib.Handshake
import TinyMqtt.Session.Exchange
import TinyMqtt.Session.Spec

/-!
QoS 2 messages are passed on exactly once. The exchange of two sessions is an
instance of the two-phase handshake: a stored QoS 2 PUBLISH is a message entry,
a stored PUBREL a release entry, and everything else in the queue is plain. An
answer is a PUBREC or a PUBCOMP. Every step of the exchange is matched by the
handshake's rules, so the handshake's invariant holds along every run.
-/

namespace TinyMqtt

open LinkedList Handshake

/-! ### The exchange as a handshake -/

def entryOf (stored : StoredPacket Stamped) : Entry UInt16 Nat :=
  match stored.packet with
  | .publish pkt =>
      if publishQos pkt.flags = 2 then .message stored.packetId pkt.payload.stamp
      else .plain stored.packetId
  | .pubrel _ => .release stored.packetId
  | _ => .plain stored.packetId

def requestOf? : Packet Stamped → Option (Entry UInt16 Nat)
  | .publish pkt =>
      if publishQos pkt.flags = 2 then some (.message pkt.packetId pkt.payload.stamp) else none
  | .pubrel packetId => some (.release packetId)
  | _ => none

def answerOf? : Packet Stamped → Option (Phase × UInt16)
  | .pubrec packetId => some (.message, packetId)
  | .pubcomp packetId => some (.release, packetId)
  | _ => none

def qos2Stamps (publications : List Publication) : List Nat :=
  (List.range publications.length).filter fun stamp =>
    (publications[stamp]?).any fun publication => publication.qos = 2

def qos2Passed (receiver : Session Stamped) : List Nat :=
  receiver.delivered.filterMap fun passed =>
    if passed.2.qos = 2 then some passed.2.message.stamp else none

def handshakeOf (x : Exchange) (window : Nat) (queue : List (QueuedPacket Stamped)) :
    State UInt16 Nat where
  window := window
  queue := queue.map fun queued => entryOf queued.2
  requests := x.forward.filterMap requestOf?
  answers := x.backward.filterMap answerOf?
  known := x.receiver.qos2PacketIds
  submitted := qos2Stamps x.publications
  accepted := qos2Passed x.receiver

def Published (publications : List Publication) (stamp qos : Nat) : Prop :=
  ∃ publication, publications[stamp]? = some publication ∧ publication.qos.toNat = qos

/-- The sender's packets: a publication of its own, or a PUBREL. -/
inductive FromSender (publications : List Publication) : Packet Stamped → Prop where
  | publish {pkt : PublishPkt Stamped}
      (h : Published publications pkt.payload.stamp (publishQos pkt.flags)) :
      FromSender publications (.publish pkt)
  | pubrel (packetId : UInt16) : FromSender publications (.pubrel packetId)

inductive FromReceiver : Packet Stamped → Prop where
  | puback (packetId : UInt16) : FromReceiver (.puback packetId)
  | pubrec (packetId : UInt16) : FromReceiver (.pubrec packetId)
  | pubcomp (packetId : UInt16) : FromReceiver (.pubcomp packetId)

def FiledById (stored : StoredPacket Stamped) : Prop :=
  (∀ pkt, stored.packet = .publish pkt → pkt.packetId = stored.packetId) ∧
    ∀ packetId, stored.packet = .pubrel packetId → packetId = stored.packetId

structure Coherent (x : Exchange) (window : Nat) (queue : List (QueuedPacket Stamped))
    (exempt : Option UInt16) : Prop where
  represents : Represents x.sender window queue
  inv : (handshakeOf x window queue).Inv
  covered : (handshakeOf x window queue).Covered exempt
  filed : ∀ queued ∈ queue, FiledById queued.2
  stored : ∀ queued ∈ queue, FromSender x.publications queued.2.packet
  forward : ∀ pkt ∈ x.forward, FromSender x.publications pkt
  backward : ∀ pkt ∈ x.backward, FromReceiver pkt
  passed : ∀ passed ∈ x.receiver.delivered,
    Published x.publications passed.2.message.stamp passed.2.qos

@[simp] theorem entryOf_id (stored : StoredPacket Stamped) :
    (entryOf stored).id = stored.packetId := by
  unfold entryOf
  split
  · split <;> rfl
  · rfl
  · rfl

theorem map_entryOf_id (queue : List (QueuedPacket Stamped)) :
    (queue.map fun queued => entryOf queued.2).map Entry.id
      = queue.map fun queued => queued.2.packetId := by
  simp

theorem mem_qos2Stamps {publications : List Publication} {stamp : Nat} :
    stamp ∈ qos2Stamps publications ↔ Published publications stamp 2 := by
  unfold qos2Stamps Published
  rw [List.mem_filter, List.mem_range, Option.any_eq_true]
  constructor
  · rintro ⟨-, publication, hmem, hqos⟩
    exact ⟨publication, hmem, by simp [of_decide_eq_true hqos]⟩
  · rintro ⟨publication, hmem, hqos⟩
    refine ⟨(List.getElem?_eq_some_iff.mp hmem).1, publication, hmem, ?_⟩
    exact decide_eq_true (UInt8.toNat_inj.mp hqos)

theorem Published.append {publications : List Publication} {stamp qos : Nat}
    (h : Published publications stamp qos) (publication : Publication) :
    Published (publications ++ [publication]) stamp qos := by
  obtain ⟨other, hmem, hqos⟩ := h
  refine ⟨other, ?_, hqos⟩
  rw [List.getElem?_append_left (List.getElem?_eq_some_iff.mp hmem).1, hmem]

theorem FromSender.append {publications : List Publication} {pkt : Packet Stamped}
    (h : FromSender publications pkt) (publication : Publication) :
    FromSender (publications ++ [publication]) pkt := by
  cases h with
  | publish h => exact .publish (h.append publication)
  | pubrel packetId => exact .pubrel packetId

/-- A copy of a stored packet is the request for its entry. -/
theorem requestOf?_clone {stored : StoredPacket Stamped} {publications : List Publication}
    (hfiled : FiledById stored) (hstored : FromSender publications stored.packet) :
    requestOf? (cloneForSending stored.packet)
      = if (entryOf stored).key?.isSome then some (entryOf stored) else none := by
  obtain ⟨packetId, packet⟩ := stored
  cases hstored with
  | @publish pkt h =>
      obtain rfl : pkt.packetId = packetId := hfiled.1 pkt rfl
      by_cases hqos : publishQos pkt.flags = 2 <;>
        simp [cloneForSending, requestOf?, entryOf, tmqPublishPktClone, hqos, Entry.key?]
  | pubrel packetId' =>
      obtain rfl : packetId' = packetId := hfiled.2 packetId' rfl
      rfl

theorem FromSender.clone {publications : List Publication} {pkt : Packet Stamped}
    (h : FromSender publications pkt) : FromSender publications (cloneForSending pkt) := by
  cases h with
  | publish h => exact .publish h
  | pubrel packetId => exact .pubrel packetId

/-! ### The sender's steps -/

def Exchange.carried (x : Exchange) (packets : List (Packet Stamped)) : List (Packet Stamped) :=
  if x.connected then packets else []

theorem Exchange.transmitted_eq {x : Exchange} {before after : Session Stamped}
    {packets : List (Packet Stamped)} (hsent : after.sent = before.sent ++ packets) :
    x.transmitted before after = x.carried packets := by
  simp [Exchange.transmitted, Exchange.carried, hsent]

theorem Exchange.carried_append (x : Exchange) (first second : List (Packet Stamped)) :
    x.carried (first ++ second) = x.carried first ++ x.carried second := by
  unfold Exchange.carried
  split <;> simp

variable {x : Exchange} {window : Nat} {queue : List (QueuedPacket Stamped)}
  {exempt : Option UInt16}

/-- A packet of the window that is not in transit may be sent. -/
theorem Coherent.send (h : Coherent x window queue exempt) {queued : QueuedPacket Stamped}
    (hmem : queued ∈ queue.take window)
    (hfresh : ∀ key, (entryOf queued.2).key? = some key →
      key ∉ (handshakeOf x window queue).transit) :
    Coherent { x with forward := x.forward ++ x.carried [cloneForSending queued.2.packet] }
      window queue exempt := by
  have hqueued : queued ∈ queue := List.mem_of_mem_take hmem
  by_cases hconnected : x.connected
  · have hforward : x.carried [cloneForSending queued.2.packet]
        = [cloneForSending queued.2.packet] := if_pos hconnected
    rw [hforward]
    have hrequest := requestOf?_clone (h.filed queued hqueued) (h.stored queued hqueued)
    refine ⟨h.represents, ?_, h.covered, h.filed, h.stored, ?_, h.backward, h.passed⟩
    · cases hkey : (entryOf queued.2).key? with
      | none =>
          simpa [handshakeOf, hrequest, hkey] using h.inv
      | some key =>
          have hentry : entryOf queued.2 ∈
              (handshakeOf x window queue).queue.take (handshakeOf x window queue).window := by
            simp only [handshakeOf, ← List.map_take]
            exact List.mem_map_of_mem hmem
          simpa [handshakeOf, hrequest, hkey] using h.inv.send hkey hentry (hfresh key hkey)
    · intro pkt hpkt
      rcases List.mem_append.mp hpkt with hpkt | hpkt
      · exact h.forward pkt hpkt
      · obtain rfl : pkt = cloneForSending queued.2.packet := by simpa using hpkt
        exact (h.stored queued hqueued).clone
  · have hforward : x.carried [cloneForSending queued.2.packet] = [] := if_neg hconnected
    rw [hforward, List.append_nil]
    exact h

/-- An answered packet leaves the queue, and the packet that comes into the
window is sent. -/
theorem Coherent.advance {before after : List (QueuedPacket Stamped)}
    {queued : QueuedPacket Stamped} (h : Coherent x window (before ++ queued :: after) none)
    (hreach : before.length < window) {next : Session Stamped}
    (hnext : Represents next window (before ++ after)) {pkt : Packet Stamped}
    {rest : List (Packet Stamped)} (hbackward : x.backward = pkt :: rest)
    (hanswer : answerOf? pkt = (entryOf queued.2).key?)
    (hmessage : ∀ id content, entryOf queued.2 = .message id content →
      id ∈ x.receiver.qos2PacketIds)
    (hgone : (entryOf queued.2).key?.isSome → queued.2.packetId ∈ x.receiver.qos2PacketIds →
      some queued.2.packetId = exempt) :
    Coherent
      { x with
        sender := next
        forward := x.forward ++
          x.carried (copies ((before ++ queued :: after)[window]?).toList)
        backward := rest }
      window (before ++ after) exempt := by
  have hsub : ∀ {other : QueuedPacket Stamped}, other ∈ before ++ after →
      other ∈ before ++ queued :: after := by
    intro other hother
    exact ((List.sublist_cons_self queued after).append_left before).subset hother
  have hqueue : (handshakeOf x window (before ++ queued :: after)).queue
      = before.map (fun q => entryOf q.2) ++ entryOf queued.2 :: after.map (fun q => entryOf q.2) := by
    simp [handshakeOf]
  have hanswers : (handshakeOf x window (before ++ queued :: after)).answers
      = (entryOf queued.2).key?.toList ++ rest.filterMap answerOf? := by
    simp only [handshakeOf, hbackward, List.filterMap_cons, hanswer]
    cases (entryOf queued.2).key? <;> rfl
  have hremoved : Coherent { x with sender := next, backward := rest } window (before ++ after)
      exempt :=
    { represents := hnext
      inv := by simpa [handshakeOf] using h.inv.remove hqueue hanswers hmessage
      covered := by
        simpa [handshakeOf] using h.covered.remove hqueue (rest.filterMap answerOf?)
          (by simpa [handshakeOf] using hgone)
      filed := fun other hother => h.filed other (hsub hother)
      stored := fun other hother => h.stored other (hsub hother)
      forward := h.forward
      backward := fun other hother => h.backward other (by simp [hbackward, hother])
      passed := h.passed }
  cases hfirst : (before ++ queued :: after)[window]? with
  | none =>
      have hnothing : x.carried (copies ((none : Option (QueuedPacket Stamped)).toList)) = [] := by
        simp [copies, Exchange.carried]
      rw [hnothing, List.append_nil]
      exact hremoved
  | some first =>
      refine @Coherent.send _ _ _ _ hremoved first ?_ ?_
      · rw [WindowedFifo.getElem?_window_remove queued after hreach] at hfirst
        obtain ⟨hlt, hget⟩ := List.getElem?_eq_some_iff.mp hfirst
        exact List.mem_take_iff_getElem.mpr ⟨window - 1, by omega, hget⟩
      · intro key hkey hmem
        have hwaiting : (handshakeOf x window (before ++ queued :: after)).queue[window]?
            = some (entryOf first.2) := by
          simp only [handshakeOf, List.getElem?_map, hfirst, Option.map_some]
        refine h.inv.not_transit_of_waiting hwaiting hkey ?_
        have htransit : ((handshakeOf x window (before ++ queued :: after)).requests.filterMap
            Entry.key? ++ rest.filterMap answerOf?).Sublist
            (handshakeOf x window (before ++ queued :: after)).transit := by
          rw [State.transit, hanswers]
          exact (List.sublist_append_right _ _).append_left _
        exact htransit.subset hmem

/-- A new packet joins the queue, and is sent when the window has room and it
is not only to be stored. -/
theorem Coherent.sendNew {queued : QueuedPacket Stamped} {exempt' : Option UInt16}
    (hbefore : Coherent x window queue exempt) {next : Exchange}
    (h : Coherent next window (queue ++ [queued]) exempt')
    (hforward : next.forward = x.forward) (hbackward : next.backward = x.backward)
    (hid : queued.2.packetId ∉ queue.map fun other => other.2.packetId) (now : Prop) [Decidable now]
    (hroom : now → queue.length < window) :
    Coherent
      { next with
        forward := next.forward ++
          next.carried (if now then [cloneForSending queued.2.packet] else []) }
      window (queue ++ [queued]) exempt' := by
  by_cases hnow : now
  · rw [if_pos hnow]
    refine @Coherent.send _ _ _ _ h queued ?_ ?_
    · refine List.mem_take_iff_getElem.mpr ⟨queue.length, ?_, by simp⟩
      simpa using hroom hnow
    · intro key hkey hmem
      refine hbefore.inv.not_transit_of_id ?_ hkey ?_
      · intro other hother hsame
        rw [entryOf_id] at hsame
        refine hid ?_
        rw [← hsame, ← map_entryOf_id]
        exact List.mem_map_of_mem (List.mem_of_mem_take hother)
      · simpa [State.transit, handshakeOf, hforward, hbackward] using hmem
  · have hnothing : next.carried [] = [] := by simp [Exchange.carried]
    rw [if_neg hnow, hnothing, List.append_nil]
    exact h

/-- The PUBREL that replaces a received PUBLISH covers its identifier. -/
theorem Coherent.enqueuePubrel {packetId : UInt16} (h : Coherent x window queue (some packetId))
    {next : Session Stamped} {malloc : Addr}
    (hnext : Represents next window (queue ++ [(malloc, ⟨packetId, .pubrel packetId⟩)]))
    (hid : packetId ∉ queue.map fun other => other.2.packetId) :
    Coherent { x with sender := next } window (queue ++ [(malloc, ⟨packetId, .pubrel packetId⟩)])
      none := by
  have hunused : (Entry.release packetId : Entry UInt16 Nat).id
      ∉ (handshakeOf x window queue).queue.map Entry.id := by
    rw [handshakeOf, map_entryOf_id]
    exact hid
  have hinv := @State.Inv.enqueue _ _ _ _ _ h.inv (.release packetId) (qos2Stamps x.publications)
    hunused (by simp) (by simp [handshakeOf])
  refine ⟨hnext, ?_, ?_, ?_, ?_, h.forward, h.backward, h.passed⟩
  · simpa [handshakeOf, entryOf] using hinv
  · simpa [handshakeOf, entryOf] using h.covered.enqueueRelease
  · intro queued hqueued
    rcases List.mem_append.mp hqueued with hqueued | hqueued
    · exact h.filed queued hqueued
    · obtain rfl : queued = (malloc, ⟨packetId, .pubrel packetId⟩) := by simpa using hqueued
      simp [FiledById]
  · intro queued hqueued
    rcases List.mem_append.mp hqueued with hqueued | hqueued
    · exact h.stored queued hqueued
    · obtain rfl : queued = (malloc, ⟨packetId, .pubrel packetId⟩) := by simpa using hqueued
      exact .pubrel packetId

theorem qos2Stamps_append (publications : List Publication) (publication : Publication) :
    qos2Stamps (publications ++ [publication])
      = qos2Stamps publications ++ (if publication.qos = 2 then [publications.length] else []) := by
  unfold qos2Stamps
  rw [List.length_append, List.length_singleton, List.range_succ, List.filter_append]
  congr 1
  · refine List.filter_congr fun stamp hstamp => ?_
    rw [List.getElem?_append_left (List.mem_range.mp hstamp)]
  · by_cases hqos : publication.qos = 2 <;> simp [hqos]

/-- The QoS bits of a new packet are the QoS asked for. -/
theorem publishQos_newPublishPkt (nextPacketId : UInt16) (publication : Publication)
    (payload : Stamped) :
    publishQos (newPublishPkt nextPacketId publication.topic payload publication.qos
      publication.retain).flags = publication.qos.toNat := by
  obtain ⟨topic, bytes, qos, retain, hqos, hretain⟩ := publication
  have hqosCases : qos = 0 ∨ qos = 1 ∨ qos = 2 := by
    rw [UInt8.le_iff_toNat_le] at hqos
    simp only [← UInt8.toNat_inj]
    simp only [UInt8.reduceToNat] at hqos ⊢
    omega
  have hretainCases : retain = 0 ∨ retain = 1 := by
    rw [UInt8.le_iff_toNat_le] at hretain
    simp only [← UInt8.toNat_inj]
    simp only [UInt8.reduceToNat] at hretain ⊢
    omega
  rcases hqosCases with rfl | rfl | rfl <;> rcases hretainCases with rfl | rfl <;>
    simp [newPublishPkt, publishQos]

theorem clone_newPublishPkt (nextPacketId : UInt16) (topic : Bytes) (payload : Stamped)
    (qos retain : UInt8) :
    tmqPublishPktClone (newPublishPkt nextPacketId topic payload qos retain)
      = newPublishPkt nextPacketId topic payload qos retain := by
  unfold newPublishPkt tmqPublishPktClone
  split <;> simp

/-- A new publication joins the queue under an unused identifier. -/
theorem Coherent.enqueuePublish (h : Coherent x window queue none) {publication : Publication}
    {pkt : PublishPkt Stamped} {next : Session Stamped} {malloc : Addr}
    (hnext : Represents next window (queue ++ [(malloc, ⟨pkt.packetId, .publish pkt⟩)]))
    (hstamp : pkt.payload.stamp = x.publications.length)
    (hqos : publishQos pkt.flags = publication.qos.toNat)
    (hid : pkt.packetId ∉ queue.map fun other => other.2.packetId) :
    Coherent { x with sender := next, publications := x.publications ++ [publication] } window
      (queue ++ [(malloc, ⟨pkt.packetId, .publish pkt⟩)]) none := by
  have hpublished : Published (x.publications ++ [publication]) pkt.payload.stamp
      (publishQos pkt.flags) :=
    ⟨publication, by simp [hstamp], hqos.symm⟩
  have hunused : (entryOf ⟨pkt.packetId, .publish pkt⟩).id
      ∉ (handshakeOf x window queue).queue.map Entry.id := by
    rw [handshakeOf, map_entryOf_id, entryOf_id]
    exact hid
  have hmessage : ∀ id content, entryOf ⟨pkt.packetId, .publish pkt⟩ = .message id content →
      content ∉ (handshakeOf x window queue).submitted ∧
        id ∉ (handshakeOf x window queue).known := by
    intro id content hentry
    have hcontent : pkt.packetId = id ∧ pkt.payload.stamp = content := by
      by_cases htwo : publishQos pkt.flags = 2
      · simpa [entryOf, htwo] using hentry
      · simp [entryOf, htwo] at hentry
    obtain ⟨rfl, rfl⟩ := hcontent
    refine ⟨?_, fun hknown => ?_⟩
    · intro hmem
      obtain ⟨other, hother, -⟩ := mem_qos2Stamps.mp hmem
      have hlt := (List.getElem?_eq_some_iff.mp hother).1
      omega
    · rcases h.covered _ hknown with hexempt | ⟨other, hother, hsame, -⟩
      · cases hexempt
      · refine hid ?_
        rw [← map_entryOf_id, ← hsame]
        exact List.mem_map_of_mem hother
  have hsubmitted : ∀ content, content ∈ qos2Stamps (x.publications ++ [publication]) ↔
      content ∈ (handshakeOf x window queue).submitted ∨
        ∃ id, entryOf ⟨pkt.packetId, .publish pkt⟩ = .message id content := by
    intro content
    have htwo : publication.qos = 2 ↔ publishQos pkt.flags = 2 := by
      rw [hqos, ← UInt8.toNat_inj]
      rfl
    rw [qos2Stamps_append, List.mem_append]
    refine or_congr Iff.rfl ?_
    by_cases hcase : publishQos pkt.flags = 2
    · simp [htwo.mpr hcase, entryOf, hcase, hstamp, eq_comm]
    · simp [mt htwo.mp hcase, entryOf, hcase]
  refine ⟨hnext, ?_, ?_, ?_, ?_, ?_, h.backward, ?_⟩
  · simpa [handshakeOf] using h.inv.enqueue hunused hmessage hsubmitted
  · simpa [handshakeOf] using h.covered.enqueue (entryOf ⟨pkt.packetId, .publish pkt⟩)
      (qos2Stamps (x.publications ++ [publication]))
  · intro queued hqueued
    rcases List.mem_append.mp hqueued with hqueued | hqueued
    · exact h.filed queued hqueued
    · obtain rfl : queued = (malloc, ⟨pkt.packetId, .publish pkt⟩) := by simpa using hqueued
      simp [FiledById]
  · intro queued hqueued
    rcases List.mem_append.mp hqueued with hqueued | hqueued
    · exact (h.stored queued hqueued).append publication
    · obtain rfl : queued = (malloc, ⟨pkt.packetId, .publish pkt⟩) := by simpa using hqueued
      exact .publish hpublished
  · exact fun other hother => (h.forward other hother).append publication
  · exact fun other hother => (h.passed other hother).append publication

/-- A publication at QoS 0 takes no part in the handshake. -/
theorem Coherent.publishUnstored (h : Coherent x window queue none) {publication : Publication}
    {pkt : PublishPkt Stamped} {next : Session Stamped} (hnext : Represents next window queue)
    (hstamp : pkt.payload.stamp = x.publications.length)
    (hqos : publishQos pkt.flags = publication.qos.toNat) (hzero : publication.qos = 0)
    {packets : List (Packet Stamped)} (hpackets : packets = [] ∨ packets = [.publish pkt]) :
    Coherent
      { x with
        sender := next
        forward := x.forward ++ packets
        publications := x.publications ++ [publication] }
      window queue none := by
  have hplain : publishQos pkt.flags ≠ 2 := by
    rw [hqos, hzero]
    decide
  have hstate : handshakeOf
      { x with
        sender := next
        forward := x.forward ++ packets
        publications := x.publications ++ [publication] } window queue
        = handshakeOf x window queue := by
    have hrequests : packets.filterMap requestOf? = [] := by
      rcases hpackets with rfl | rfl
      · rfl
      · simp [requestOf?, hplain]
    simp [handshakeOf, hrequests, qos2Stamps_append, hzero]
  have hpublished : Published (x.publications ++ [publication]) pkt.payload.stamp
      (publishQos pkt.flags) :=
    ⟨publication, by simp [hstamp], hqos.symm⟩
  refine ⟨hnext, hstate ▸ h.inv, hstate ▸ h.covered, h.filed, ?_, ?_, h.backward, ?_⟩
  · exact fun other hother => (h.stored other hother).append publication
  · intro other hother
    rcases List.mem_append.mp hother with hother | hother
    · exact (h.forward other hother).append publication
    · rcases hpackets with rfl | rfl
      · simp at hother
      · obtain rfl : other = .publish pkt := by simpa using hother
        exact .publish hpublished
  · exact fun other hother => (h.passed other hother).append publication

theorem stamp_newPublishPkt (nextPacketId : UInt16) (topic : Bytes) (payload : Stamped)
    (qos retain : UInt8) :
    (newPublishPkt nextPacketId topic payload qos retain).payload.stamp = payload.stamp := by
  unfold newPublishPkt
  split <;> rfl

theorem coherent_publish (h : Coherent x window queue none) {malloc : Addr}
    {publication : Publication} {storeOnly : Bool} (hfree : x.sender.heap malloc = none)
    (hids : ∀ next, x.step (.publish malloc publication storeOnly) = some next →
      Exchange.DistinctIds next.sender) :
    ∃ next queue', x.step (.publish malloc publication storeOnly) = some next ∧
      Coherent next window queue' none := by
  let payload : Stamped := ⟨x.publications.length, publication.payload⟩
  let pkt := newPublishPkt x.sender.nextPacketId publication.topic payload publication.qos
    publication.retain
  have hstamp : pkt.payload.stamp = x.publications.length := stamp_newPublishPkt _ _ _ _ _
  have hqos : publishQos pkt.flags = publication.qos.toNat := publishQos_newPublishPkt _ _ _
  have hclone : tmqPublishPktClone pkt = pkt := clone_newPublishPkt _ _ _ _ _
  by_cases hpositive : 0 < publication.qos
  · obtain ⟨sender, hpublish, hnext, hsent, -, -⟩ := tmqSessionPublish_stored h.represents hfree
      publication.topic payload hpositive publication.retain storeOnly rfl
    change Represents sender window (queue ++ [(malloc, ⟨pkt.packetId, _⟩)]) at hnext
    rw [hclone] at hnext
    have hstep : x.step (.publish malloc publication storeOnly) = some
        { x with
          sender := sender
          forward := x.forward ++ x.transmitted x.sender sender
          publications := x.publications ++ [publication] } := by
      simp [Exchange.step, hpublish, payload]
    have hid : pkt.packetId ∉ queue.map fun other => other.2.packetId := by
      have hnodup := hids _ hstep _ hnext.linked
      rw [List.map_append, List.nodup_append] at hnodup
      intro hmem
      exact hnodup.2.2 _ hmem pkt.packetId (by simp) rfl
    have hqueued := h.enqueuePublish hnext hstamp hqos hid
    refine ⟨_, queue ++ [(malloc, ⟨pkt.packetId, .publish pkt⟩)], hstep, ?_⟩
    rw [Exchange.transmitted_eq hsent]
    have hsend := h.sendNew hqueued rfl rfl hid (queue.length < window ∧ storeOnly = false)
      And.left
    simp only [cloneForSending, hclone] at hsend
    exact hsend
  · have hzero : publication.qos = 0 := by
      rw [UInt8.lt_iff_toNat_lt] at hpositive
      rw [← UInt8.toNat_inj]
      simpa using hpositive
    obtain ⟨sender, hpublish, hnext, hsent, -⟩ := tmqSessionPublish_unstored h.represents malloc
      publication.topic payload hpositive publication.retain storeOnly
    refine ⟨{ x with
      sender := sender
      forward := x.forward ++ x.transmitted x.sender sender
      publications := x.publications ++ [publication] }, queue, ?_, ?_⟩
    · simp [Exchange.step, hpublish, payload]
    · rw [Exchange.transmitted_eq hsent]
      refine h.publishUnstored hnext hstamp hqos hzero ?_
      unfold Exchange.carried
      cases storeOnly <;> cases x.connected <;> simp [pkt]

theorem entryOf_of_namedBy_publish {stored : StoredPacket Stamped} {packetId : UInt16} {qos : Int}
    (h : NamedBy stored packetId .publish qos) :
    ∃ stamp, entryOf stored
      = if qos = 2 then .message packetId stamp else .plain packetId := by
  obtain ⟨rfl, htype, hqos⟩ := h
  cases hpkt : stored.packet with
  | publish pkt =>
      refine ⟨pkt.payload.stamp, ?_⟩
      have hflags := hqos pkt hpkt
      by_cases htwo : qos = 2
      · have hcase : publishQos pkt.flags = 2 := by omega
        simp [entryOf, hpkt, htwo, hcase]
      · have hcase : publishQos pkt.flags ≠ 2 := by omega
        simp [entryOf, hpkt, htwo, hcase]
  | _ => simp [hpkt, Packet.packetType] at htype

theorem entryOf_of_namedBy_pubrel {stored : StoredPacket Stamped} {packetId : UInt16} {qos : Int}
    (h : NamedBy stored packetId .pubrel qos) : entryOf stored = .release packetId := by
  obtain ⟨rfl, htype, -⟩ := h
  cases hpkt : stored.packet with
  | pubrel packetId' => simp [entryOf, hpkt]
  | _ => simp [hpkt, Packet.packetType] at htype

theorem namedBy_of_key_message {stored : StoredPacket Stamped} {packetId : UInt16}
    (hkey : (entryOf stored).key? = some (.message, packetId)) :
    NamedBy stored packetId .publish 2 := by
  cases hpkt : stored.packet with
  | publish pkt =>
      by_cases hqos : publishQos pkt.flags = 2
      · simp only [entryOf, hpkt, hqos, ↓reduceIte, Entry.key?, Option.some.injEq, Prod.mk.injEq,
          true_and] at hkey
        refine ⟨hkey, by simp [hpkt, Packet.packetType], ?_⟩
        intro other hother
        obtain rfl : pkt = other := by simpa [hpkt] using hother
        omega
      · simp [entryOf, hpkt, hqos, Entry.key?] at hkey
  | _ => simp [entryOf, hpkt, Entry.key?] at hkey

theorem namedBy_of_key_release {stored : StoredPacket Stamped} {packetId : UInt16} {qos : Int}
    (hkey : (entryOf stored).key? = some (.release, packetId)) :
    NamedBy stored packetId .pubrel qos := by
  cases hpkt : stored.packet with
  | publish pkt => by_cases hqos : publishQos pkt.flags = 2 <;> simp [entryOf, hpkt, hqos, Entry.key?] at hkey
  | pubrel other =>
      simp only [entryOf, hpkt, Entry.key?, Option.some.injEq, Prod.mk.injEq, true_and] at hkey
      exact ⟨hkey, by simp [hpkt, Packet.packetType], by simp [hpkt]⟩
  | _ => simp [entryOf, hpkt, Entry.key?] at hkey

/-- An answer at the head of the backward channel names a packet of the
window. -/
theorem Coherent.exists_answered (h : Coherent x window queue exempt) {pkt : Packet Stamped}
    {rest : List (Packet Stamped)} (hbackward : x.backward = pkt :: rest) {key : Phase × UInt16}
    (hanswer : answerOf? pkt = some key) :
    ∃ queued ∈ queue.take window, (entryOf queued.2).key? = some key := by
  have hmem : key ∈ (handshakeOf x window queue).transit := by
    simp [State.transit, handshakeOf, hbackward, hanswer]
  obtain ⟨entry, hentry, hkey⟩ := mem_keys.mp (h.inv.inflight key hmem)
  simp only [handshakeOf, ← List.map_take, List.mem_map] at hentry
  obtain ⟨queued, hqueued, rfl⟩ := hentry
  exact ⟨queued, hqueued, hkey⟩

/-- A connection may lose what is in transit. -/
theorem Coherent.lose (h : Coherent x window queue exempt)
    {forward backward : List (Packet Stamped)} (hforward : forward.Sublist x.forward)
    (hbackward : backward.Sublist x.backward) (connected : Bool) :
    Coherent { x with forward := forward, backward := backward, connected := connected } window
      queue exempt :=
  { represents := h.represents
    inv := h.inv.lose (hforward.filterMap _) (hbackward.filterMap _)
    covered := h.covered
    filed := h.filed
    stored := h.stored
    forward := fun pkt hpkt => h.forward pkt (hforward.subset hpkt)
    backward := fun pkt hpkt => h.backward pkt (hbackward.subset hpkt)
    passed := h.passed }

/-- The packets queued under other identifiers than a removed one. -/
theorem Coherent.id_not_mem {before after : List (QueuedPacket Stamped)}
    {queued : QueuedPacket Stamped} (h : Coherent x window (before ++ queued :: after) exempt) :
    queued.2.packetId ∉ (before ++ after).map fun other => other.2.packetId := by
  have hids := h.inv.ids
  rw [handshakeOf, map_entryOf_id, List.map_append, List.map_cons] at hids
  rw [List.map_append]
  exact (List.nodup_middle.mp hids).notMem

theorem coherent_puback (h : Coherent x window queue none) {malloc : Addr} {packetId : UInt16}
    {rest : List (Packet Stamped)} (hbackward : x.backward = .puback packetId :: rest) :
    ∃ next queue', x.step (.deliverBackward malloc) = some next ∧
      Coherent next window queue' none := by
  by_cases hacked : ∃ queued ∈ queue.take window, queued.2.acknowledgedBy packetId .publish 1 = true
  · obtain ⟨before, queued, after, rfl, hlength, hbefore, hqueued⟩ := exists_first_acked hacked
    obtain ⟨sender, hack, hnext, hsent, -, -⟩ :=
      acknowledge_valid h.represents hlength hbefore hqueued
    obtain ⟨stamp, hentry⟩ :=
      entryOf_of_namedBy_publish ((acknowledgedBy_iff_namedBy _ _ _ _).mp hqueued)
    have hplain : entryOf queued.2 = .plain packetId := by simpa using hentry
    refine ⟨_, before ++ after, ?_, h.advance hlength hnext hbackward ?_ ?_ ?_⟩
    · simp only [Exchange.step, hbackward, receivePacket_puback, hack, Option.bind_eq_bind,
        Option.bind_some, Exchange.transmitted_eq hsent]
    · rw [hplain]
      rfl
    · simp [hplain]
    · simp [hplain, Entry.key?]
  · have hnone : ∀ queued ∈ queue.take window,
        queued.2.acknowledgedBy packetId .publish 1 = false := by
      intro queued hqueued
      exact Bool.eq_false_iff.mpr fun htrue => hacked ⟨queued, hqueued, htrue⟩
    have hack := acknowledge_invalid h.represents hnone
    have hsent : x.sender.sent = x.sender.sent ++ [] := by simp
    refine ⟨{ x with backward := rest }, queue, ?_, ?_⟩
    · simp only [Exchange.step, hbackward, receivePacket_puback, hack, Option.bind_eq_bind,
        Option.bind_some, Exchange.transmitted_eq hsent]
      simp [Exchange.carried]
    · exact h.lose (List.Sublist.refl _) (hbackward ▸ List.sublist_cons_self _ _) x.connected

theorem coherent_pubrec (h : Coherent x window queue none) {malloc : Addr} {packetId : UInt16}
    {rest : List (Packet Stamped)} (hbackward : x.backward = .pubrec packetId :: rest)
    (hfree : x.Allocates (.deliverBackward malloc)) :
    ∃ next queue', x.step (.deliverBackward malloc) = some next ∧
      Coherent next window queue' none := by
  obtain ⟨named, hmem, hkey⟩ := h.exists_answered hbackward rfl
  obtain ⟨before, queued, after, rfl, hlength, hbefore, hqueued⟩ := exists_first_acked
    ⟨named, hmem, (acknowledgedBy_iff_namedBy _ _ _ _).mpr (namedBy_of_key_message hkey)⟩
  have hnamed := (acknowledgedBy_iff_namedBy _ _ _ _).mp hqueued
  obtain ⟨stamp, hentry⟩ := entryOf_of_namedBy_publish hnamed
  replace hentry : entryOf queued.2 = .message packetId stamp := by simpa using hentry
  obtain ⟨acked, hack, hacked, hsentAck, -, -⟩ :=
    acknowledge_valid h.represents hlength hbefore hqueued
  have hknown : packetId ∈ x.receiver.qos2PacketIds := by
    refine h.inv.received packetId ?_
    simp [handshakeOf, hbackward, answerOf?]
  have hadvanced := h.advance hlength hacked hbackward
    (by rw [hentry]; rfl)
    (fun id content heq => by
      obtain ⟨rfl, -⟩ := Entry.message.inj (hentry.symm.trans heq)
      exact hknown)
    (fun _ _ => rfl)
  rw [hnamed.packetId] at hadvanced
  have hid : packetId ∉ (before ++ after).map fun other => other.2.packetId :=
    hnamed.packetId ▸ h.id_not_mem
  obtain ⟨sender, hpubrec, hnext, hsent, -, -⟩ := tmqSessionHandlePubrec_eq hack hacked
    (hfree packetId acked (by simp [hbackward]) hack)
  have hqueuedPubrel := hadvanced.enqueuePubrel hnext hid
  have hcoherent := hadvanced.sendNew hqueuedPubrel rfl rfl hid
    ((before ++ after).length < window) id
  refine ⟨_, _, ?_, hcoherent⟩
  rw [hsentAck, List.append_assoc] at hsent
  simp only [Exchange.step, hbackward, receivePacket_pubrec, hpubrec, Option.bind_eq_bind,
    Option.bind_some, Exchange.transmitted_eq hsent, Exchange.carried_append]
  simp [cloneForSending, Exchange.carried]

theorem coherent_pubcomp (h : Coherent x window queue none) {malloc : Addr} {packetId : UInt16}
    {rest : List (Packet Stamped)} (hbackward : x.backward = .pubcomp packetId :: rest) :
    ∃ next queue', x.step (.deliverBackward malloc) = some next ∧
      Coherent next window queue' none := by
  obtain ⟨named, hmem, hkey⟩ := h.exists_answered hbackward rfl
  obtain ⟨before, queued, after, rfl, hlength, hbefore, hqueued⟩ := exists_first_acked
    ⟨named, hmem, (acknowledgedBy_iff_namedBy _ _ _ (-1)).mpr (namedBy_of_key_release hkey)⟩
  have hnamed := (acknowledgedBy_iff_namedBy _ _ _ _).mp hqueued
  have hentry := entryOf_of_namedBy_pubrel hnamed
  obtain ⟨sender, hack, hnext, hsent, -, -⟩ :=
    acknowledge_valid h.represents hlength hbefore hqueued
  have hunknown : packetId ∉ x.receiver.qos2PacketIds := by
    refine h.inv.released packetId ?_
    simp [handshakeOf, hbackward, answerOf?]
  refine ⟨_, before ++ after, ?_, h.advance hlength hnext hbackward ?_ ?_ ?_⟩
  · simp only [Exchange.step, hbackward, receivePacket_pubcomp, hack, Option.bind_eq_bind,
      Option.bind_some, Exchange.transmitted_eq hsent]
  · rw [hentry]
    rfl
  · simp [hentry]
  · intro _ hmem
    rw [hnamed.packetId] at hmem
    exact (hunknown hmem).elim

/-! ### The receiver's steps -/

theorem tmqSessionHandlePublish_sent (session : Session Stamped) (pkt : PublishPkt Stamped) :
    (tmqSessionHandlePublish session pkt).sent = session.sent := by
  unfold tmqSessionHandlePublish
  split
  · split <;> simp [Session.record, Session.sent]
  · simp [Session.record, Session.sent]

theorem tmqSessionHandlePublish_qos2PacketIds (session : Session Stamped)
    (pkt : PublishPkt Stamped) :
    (tmqSessionHandlePublish session pkt).qos2PacketIds
      = if publishQos pkt.flags = 2 then insert pkt.packetId session.qos2PacketIds
        else session.qos2PacketIds := by
  unfold tmqSessionHandlePublish
  split
  · split
    · rename_i hknown
      rw [Finset.insert_eq_of_mem hknown]
    · rfl
  · rfl

theorem tmqSessionHandlePublish_delivered (session : Session Stamped) (pkt : PublishPkt Stamped) :
    (tmqSessionHandlePublish session pkt).delivered = session.delivered ++
      (if publishQos pkt.flags = 2 ∧ pkt.packetId ∈ session.qos2PacketIds then []
      else [(pkt.topic, ⟨pkt.payload, publishQos pkt.flags⟩)]) := by
  unfold tmqSessionHandlePublish
  by_cases hqos : publishQos pkt.flags = 2
  · by_cases hknown : pkt.packetId ∈ session.qos2PacketIds <;>
      simp [hqos, hknown, Session.record, Session.delivered]
  · simp [hqos, Session.record, Session.delivered]

/-- What the receiver does with a PUBLISH. -/
theorem receivePacket_publish_eq (upstream : Upstream) (malloc : Addr)
    (session : Session Stamped) (pkt : PublishPkt Stamped) :
    ∃ next, receivePacket upstream malloc session (.publish pkt) = some next ∧
      next.sent = session.sent ++ (publishAck pkt).toList ∧
      next.qos2PacketIds = (if publishQos pkt.flags = 2
        then insert pkt.packetId session.qos2PacketIds else session.qos2PacketIds) ∧
      next.delivered = session.delivered ++
        (if publishQos pkt.flags = 2 ∧ pkt.packetId ∈ session.qos2PacketIds then []
        else [(pkt.topic, ⟨pkt.payload, publishQos pkt.flags⟩)]) := by
  refine ⟨_, receivePacket_publish upstream malloc session pkt, ?_, ?_, ?_⟩
  · rw [tmqSessionHandlePublish_sent]
    cases publishAck pkt <;> simp
  · rw [tmqSessionHandlePublish_qos2PacketIds]
    cases publishAck pkt <;> rfl
  · rw [tmqSessionHandlePublish_delivered]
    cases publishAck pkt with
    | none => rfl
    | some ack => exact congrArg (· ++ _) (delivered_tmqSessionSendPacket session ack)

/-- The handshake after the receiver has a QoS 2 PUBLISH. -/
theorem handshake_receive_qos2 (h : Coherent x window queue none) {pkt : PublishPkt Stamped}
    {rest : List (Packet Stamped)} (hforward : x.forward = .publish pkt :: rest)
    (hqos : publishQos pkt.flags = 2) {receiver : Session Stamped}
    (hknown : receiver.qos2PacketIds = insert pkt.packetId x.receiver.qos2PacketIds)
    (hdelivered : receiver.delivered = x.receiver.delivered ++
      (if pkt.packetId ∈ x.receiver.qos2PacketIds then []
      else [(pkt.topic, ⟨pkt.payload, publishQos pkt.flags⟩)])) :
    (handshakeOf
      { x with
        receiver := receiver
        forward := rest
        backward := x.backward ++ x.carried [.pubrec pkt.packetId] } window queue).Inv ∧
    (handshakeOf
      { x with
        receiver := receiver
        forward := rest
        backward := x.backward ++ x.carried [.pubrec pkt.packetId] } window queue).Covered none := by
  have hrequests : (handshakeOf x window queue).requests
      = .message pkt.packetId pkt.payload.stamp :: rest.filterMap requestOf? := by
    simp [handshakeOf, hforward, requestOf?, hqos]
  have haccepted : qos2Passed receiver
      = if pkt.packetId ∈ x.receiver.qos2PacketIds then qos2Passed x.receiver
        else qos2Passed x.receiver ++ [pkt.payload.stamp] := by
    unfold qos2Passed
    rw [hdelivered]
    split <;> simp [hqos]
  have hanswers : ((x.backward ++ x.carried [.pubrec pkt.packetId]).filterMap answerOf?).Sublist
      (x.backward.filterMap answerOf? ++ [(.message, pkt.packetId)]) := by
    unfold Exchange.carried
    split <;> simp [answerOf?]
  have hreceived := (h.inv.receiveMessage hrequests).lose (List.Sublist.refl _) hanswers
  refine ⟨?_, ?_⟩
  · by_cases hmem : pkt.packetId ∈ x.receiver.qos2PacketIds <;>
      simpa [handshakeOf, hknown, haccepted, hmem] using hreceived
  · intro id hid
    have hid : id ∈ insert pkt.packetId x.receiver.qos2PacketIds := by
      simpa [handshakeOf, hknown] using hid
    rcases Finset.mem_insert.mp hid with rfl | hid
    · refine .inr ⟨.message pkt.packetId pkt.payload.stamp, ?_, rfl, rfl⟩
      exact (h.inv.requested _ (by simp [hrequests])).1
    · exact h.covered id hid

/-- A PUBLISH of another QoS takes no part in the handshake. -/
theorem handshake_receive_plain {pkt : PublishPkt Stamped}
    {rest : List (Packet Stamped)} (hforward : x.forward = .publish pkt :: rest)
    (hqos : publishQos pkt.flags ≠ 2) {receiver : Session Stamped}
    (hknown : receiver.qos2PacketIds = x.receiver.qos2PacketIds)
    (hdelivered : receiver.delivered = x.receiver.delivered ++
      [(pkt.topic, ⟨pkt.payload, publishQos pkt.flags⟩)]) :
    handshakeOf
      { x with
        receiver := receiver
        forward := rest
        backward := x.backward ++ x.carried (publishAck pkt).toList } window queue
      = handshakeOf x window queue := by
  have haccepted : qos2Passed receiver = qos2Passed x.receiver := by
    simp [qos2Passed, hdelivered, hqos]
  have hanswers : (x.carried (publishAck pkt).toList).filterMap answerOf? = [] := by
    unfold Exchange.carried publishAck
    by_cases hone : publishQos pkt.flags = 1 <;> cases x.connected <;> simp [hone, hqos, answerOf?]
  simp [handshakeOf, hforward, requestOf?, hqos, hknown, haccepted, hanswers]

theorem coherent_receive_publish (h : Coherent x window queue none) {malloc : Addr}
    {pkt : PublishPkt Stamped} {rest : List (Packet Stamped)}
    (hforward : x.forward = .publish pkt :: rest) :
    ∃ next, x.step (.deliverForward malloc) = some next ∧ Coherent next window queue none := by
  obtain ⟨receiver, hreceive, hsent, hknown, hdelivered⟩ :=
    receivePacket_publish_eq (.session 1) malloc x.receiver pkt
  have hpublished : Published x.publications pkt.payload.stamp (publishQos pkt.flags) := by
    cases h.forward _ (by rw [hforward]; exact List.mem_cons_self) with
    | publish hpublished => exact hpublished
  have hstep : x.step (.deliverForward malloc) = some
      { x with
        receiver := receiver
        forward := rest
        backward := x.backward ++ x.carried (publishAck pkt).toList } := by
    simp only [Exchange.step, hforward, hreceive, Option.bind_eq_bind, Option.bind_some,
      Exchange.transmitted_eq hsent]
  have hbackward : ∀ other ∈ x.backward ++ x.carried (publishAck pkt).toList,
      FromReceiver other := by
    intro other hother
    rcases List.mem_append.mp hother with hother | hother
    · exact h.backward other hother
    · have hmem : publishAck pkt = some other := by
        unfold Exchange.carried at hother
        split at hother
        · simpa using hother
        · simp at hother
      unfold publishAck at hmem
      split at hmem
      · exact Option.some.inj hmem ▸ .puback _
      · split at hmem
        · exact Option.some.inj hmem ▸ .pubrec _
        · cases hmem
  have hpassed : ∀ passed ∈ receiver.delivered,
      Published x.publications passed.2.message.stamp passed.2.qos := by
    intro passed hpassed
    rw [hdelivered, List.mem_append] at hpassed
    rcases hpassed with hpassed | hpassed
    · exact h.passed passed hpassed
    · split at hpassed
      · simp at hpassed
      · obtain rfl := List.mem_singleton.mp hpassed
        exact hpublished
  have hrest : ∀ other ∈ rest, FromSender x.publications other :=
    fun other hother => h.forward other (by simp [hforward, hother])
  refine ⟨_, hstep, ?_⟩
  by_cases hqos : publishQos pkt.flags = 2
  · have hack : publishAck pkt = some (.pubrec pkt.packetId) := by simp [publishAck, hqos]
    rw [hack] at hbackward ⊢
    simp only [hqos, ↓reduceIte, true_and] at hknown hdelivered
    rw [← hqos] at hdelivered
    obtain ⟨hinv, hcovered⟩ := handshake_receive_qos2 h hforward hqos hknown hdelivered
    exact ⟨h.represents, hinv, hcovered, h.filed, h.stored, hrest, hbackward, hpassed⟩
  · simp only [hqos, ↓reduceIte, false_and] at hknown hdelivered
    have hsame := @handshake_receive_plain x window queue _ _ hforward hqos _ hknown hdelivered
    exact ⟨h.represents, hsame ▸ h.inv, hsame ▸ h.covered, h.filed, h.stored, hrest, hbackward,
      hpassed⟩

theorem coherent_receive_pubrel (h : Coherent x window queue none) {malloc : Addr}
    {packetId : UInt16} {rest : List (Packet Stamped)}
    (hforward : x.forward = .pubrel packetId :: rest) :
    ∃ next, x.step (.deliverForward malloc) = some next ∧ Coherent next window queue none := by
  let receiver := tmqSessionHandlePubrel (tmqSessionSendPacket x.receiver (.pubcomp packetId))
    packetId
  have hsent : receiver.sent = x.receiver.sent ++ [.pubcomp packetId] :=
    sent_tmqSessionSendPacket x.receiver (.pubcomp packetId)
  have hdelivered : receiver.delivered = x.receiver.delivered :=
    delivered_tmqSessionSendPacket x.receiver (.pubcomp packetId)
  have hknown : receiver.qos2PacketIds = x.receiver.qos2PacketIds.erase packetId := rfl
  have hrequests : (handshakeOf x window queue).requests
      = .release packetId :: rest.filterMap requestOf? := by
    simp [handshakeOf, hforward, requestOf?]
  have hanswers : ((x.backward ++ x.carried [.pubcomp packetId]).filterMap answerOf?).Sublist
      (x.backward.filterMap answerOf? ++ [(.release, packetId)]) := by
    unfold Exchange.carried
    split <;> simp [answerOf?]
  have hreceived := (h.inv.receiveRelease hrequests).lose (List.Sublist.refl _) hanswers
  refine ⟨{ x with
    receiver := receiver
    forward := rest
    backward := x.backward ++ x.carried [.pubcomp packetId] }, ?_, h.represents, ?_, ?_, h.filed,
    h.stored, ?_, ?_, ?_⟩
  · simp only [Exchange.step, hforward, receivePacket_pubrel, Option.bind_eq_bind, Option.bind_some,
      ← Exchange.transmitted_eq hsent]
    rfl
  · have haccepted : qos2Passed receiver = qos2Passed x.receiver := by
      simp only [qos2Passed, hdelivered]
    simpa [handshakeOf, hknown, haccepted] using hreceived
  · intro id hid
    exact h.covered id (Finset.mem_of_mem_erase hid)
  · exact fun other hother => h.forward other (by simp [hforward, hother])
  · intro other hother
    rcases List.mem_append.mp hother with hother | hother
    · exact h.backward other hother
    · unfold Exchange.carried at hother
      split at hother
      · obtain rfl := List.mem_singleton.mp hother
        exact .pubcomp packetId
      · simp at hother
  · rw [hdelivered]
    exact h.passed

/-! ### Runs of the exchange -/

theorem filterMap_requestOf?_copies {publications : List Publication}
    {packets : List (QueuedPacket Stamped)} (hfiled : ∀ queued ∈ packets, FiledById queued.2)
    (hstored : ∀ queued ∈ packets, FromSender publications queued.2.packet) :
    (copies packets).filterMap requestOf?
      = (packets.map fun queued => entryOf queued.2).filter (·.key?.isSome) := by
  induction packets with
  | nil => rfl
  | cons queued packets ih =>
      have hrest := ih (fun other hother => hfiled other (by simp [hother]))
        (fun other hother => hstored other (by simp [hother]))
      have hrequest := requestOf?_clone (hfiled queued (by simp)) (hstored queued (by simp))
      by_cases hactive : (entryOf queued.2).key?.isSome = true
      · rw [if_pos hactive] at hrequest
        rw [List.map_cons, List.filter_cons, if_pos hactive, ← hrest]
        exact List.filterMap_cons_some hrequest
      · rw [if_neg hactive] at hrequest
        rw [List.map_cons, List.filter_cons, if_neg hactive, ← hrest]
        exact List.filterMap_cons_none hrequest

theorem coherent_reconnect (h : Coherent x window queue none) :
    ∃ next, x.step .reconnect = some next ∧ Coherent next window queue none := by
  obtain ⟨sender, hstart, hnext, hsent, -, -⟩ := tmqSessionStart_eq h.represents
  have hwindow : ∀ queued ∈ queue.take window, queued ∈ queue :=
    fun queued hqueued => List.mem_of_mem_take hqueued
  have hrequests : (copies (queue.take window)).filterMap requestOf?
      = ((handshakeOf x window queue).queue.take window).filter (·.key?.isSome) := by
    rw [handshakeOf, ← List.map_take]
    exact filterMap_requestOf?_copies (fun queued hqueued => h.filed queued (hwindow queued hqueued))
      (fun queued hqueued => h.stored queued (hwindow queued hqueued))
  refine ⟨{ x with
    sender := sender
    forward := copies (queue.take window)
    backward := []
    connected := true }, ?_, hnext, h.inv.restart hrequests, h.covered, h.filed, h.stored, ?_, ?_,
    h.passed⟩
  · simp [Exchange.step, hstart, hsent]
  · intro pkt hpkt
    obtain ⟨queued, hqueued, rfl⟩ := List.mem_map.mp hpkt
    exact (h.stored queued (hwindow queued hqueued)).clone
  · exact fun pkt hpkt => (List.not_mem_nil hpkt).elim

theorem coherent_step (x : Exchange) (action : Exchange.Action)
    (h : ∃ queue, Coherent x window queue none) (hallowed : x.Allowed action) :
    ∃ next, x.step action = some next ∧ ∃ queue, Coherent next window queue none := by
  obtain ⟨queue, h⟩ := h
  obtain ⟨hallocates, hids⟩ := hallowed
  cases action with
  | publish malloc publication storeOnly =>
      obtain ⟨next, queue', hstep, hnext⟩ := coherent_publish h hallocates hids
      exact ⟨next, hstep, queue', hnext⟩
  | deliverForward malloc =>
      cases hforward : x.forward with
      | nil => exact ⟨x, by simp [Exchange.step, hforward], queue, h⟩
      | cons pkt rest =>
          have hpkt := h.forward pkt (by simp [hforward])
          cases hpkt with
          | publish _ =>
              obtain ⟨next, hstep, hnext⟩ := coherent_receive_publish h hforward
              exact ⟨next, hstep, queue, hnext⟩
          | pubrel packetId =>
              obtain ⟨next, hstep, hnext⟩ := coherent_receive_pubrel h hforward
              exact ⟨next, hstep, queue, hnext⟩
  | deliverBackward malloc =>
      cases hbackward : x.backward with
      | nil => exact ⟨x, by simp [Exchange.step, hbackward], queue, h⟩
      | cons pkt rest =>
          have hpkt := h.backward pkt (by simp [hbackward])
          cases hpkt with
          | puback packetId =>
              obtain ⟨next, queue', hstep, hnext⟩ := coherent_puback h hbackward
              exact ⟨next, hstep, queue', hnext⟩
          | pubrec packetId =>
              obtain ⟨next, queue', hstep, hnext⟩ := coherent_pubrec h hbackward hallocates
              exact ⟨next, hstep, queue', hnext⟩
          | pubcomp packetId =>
              obtain ⟨next, queue', hstep, hnext⟩ := coherent_pubcomp h hbackward
              exact ⟨next, hstep, queue', hnext⟩
  | drop keepForward keepBackward =>
      exact ⟨_, rfl, queue, h.lose (List.take_sublist _ _) (List.take_sublist _ _) false⟩
  | reconnect =>
      obtain ⟨next, hstep, hnext⟩ := coherent_reconnect h
      exact ⟨next, hstep, queue, hnext⟩

theorem coherent_new (onPublishFinish : Bool) (nextPacketId : UInt16) (maxInflight : UInt8)
    {receiver : Session Stamped} (hknown : receiver.qos2PacketIds = ∅)
    (hdelivered : receiver.delivered = []) :
    Coherent (Exchange.new (tmqSessionNew onPublishFinish nextPacketId maxInflight) receiver)
      maxInflight.toNat [] none := by
  refine ⟨represents_new onPublishFinish nextPacketId maxInflight, ?_, ?_, ?_, ?_, ?_, ?_, ?_⟩
  · constructor <;> simp [handshakeOf, Exchange.new, State.transit, keys, qos2Stamps, qos2Passed,
      hdelivered]
  · intro id hid
    simp [handshakeOf, Exchange.new, hknown] at hid
  · simp
  · simp
  · simp [Exchange.new]
  · simp [Exchange.new]
  · simp [Exchange.new, hdelivered]

/-- For a QoS 2 publication every delivery is one at QoS 2. -/
theorem Coherent.deliveries_eq (h : Coherent x window queue none) {stamp : Nat}
    (hstamp : Published x.publications stamp 2) :
    x.deliveries stamp = (qos2Passed x.receiver).count stamp := by
  have hqos : ∀ passed ∈ x.receiver.delivered, passed.2.message.stamp = stamp → passed.2.qos = 2 := by
    rintro passed hpassed rfl
    obtain ⟨publication, hpublication, hqos⟩ := h.passed passed hpassed
    obtain ⟨other, hother, htwo⟩ := hstamp
    rw [hpublication] at hother
    obtain rfl := Option.some.inj hother
    omega
  unfold Exchange.deliveries qos2Passed
  rw [List.count, List.countP_filterMap]
  refine List.countP_congr fun passed hpassed => ?_
  by_cases hsame : passed.2.message.stamp = stamp
  · simp [hsame, hqos passed hpassed hsame]
  · by_cases htwo : passed.2.qos = 2 <;> simp [hsame, htwo]

/-- The messages of the store are those of the queue. -/
theorem Coherent.inStore_iff (h : Coherent x window queue none) {stamp : Nat}
    (hstamp : Published x.publications stamp 2) :
    x.InStore stamp ↔ ∃ id, Entry.message id stamp ∈ (handshakeOf x window queue).queue := by
  constructor
  · rintro ⟨other, hlinked, queued, hqueued, pkt, hpkt, rfl⟩
    obtain rfl := segment_unique hlinked h.represents.linked
    have hstored := h.stored queued hqueued
    rw [hpkt] at hstored
    have hqos : publishQos pkt.flags = 2 := by
      cases hstored with
      | publish hpublished =>
          obtain ⟨publication, hpublication, hqos⟩ := hpublished
          obtain ⟨other, hother, htwo⟩ := hstamp
          rw [hpublication] at hother
          obtain rfl := Option.some.inj hother
          omega
    refine ⟨queued.2.packetId, List.mem_map.mpr ⟨queued, hqueued, ?_⟩⟩
    simp [entryOf, hpkt, hqos]
  · rintro ⟨id, hmem⟩
    obtain ⟨queued, hqueued, hentry⟩ := List.mem_map.mp hmem
    refine ⟨queue, h.represents.linked, queued, hqueued, ?_⟩
    cases hpkt : queued.2.packet with
    | publish pkt =>
        by_cases hqos : publishQos pkt.flags = 2
        · simp only [entryOf, hpkt, hqos, ↓reduceIte, Entry.message.injEq] at hentry
          exact ⟨pkt, rfl, hentry.2⟩
        · simp [entryOf, hpkt, hqos] at hentry
    | _ => simp [entryOf, hpkt] at hentry

/-- In every run of publications, deliveries, drops and reconnections in which
the identifiers of the unacknowledged packets stay distinct, a QoS 2 message is
passed to the receiver's `on_new_message` at most once, and exactly once when
its PUBLISH has left the sender's store. -/
theorem qos2_exactly_once (onPublishFinish onPublishFinish' : Bool)
    (nextPacketId nextPacketId' : UInt16) (maxInflight maxInflight' : UInt8)
    (actions : List Exchange.Action)
    (hactions : Run.Admissible Exchange.Allowed Exchange.step
      (Exchange.new (tmqSessionNew onPublishFinish nextPacketId maxInflight)
        (tmqSessionNew onPublishFinish' nextPacketId' maxInflight')) actions) :
    ∃ x, Run.runs Exchange.step
        (Exchange.new (tmqSessionNew onPublishFinish nextPacketId maxInflight)
          (tmqSessionNew onPublishFinish' nextPacketId' maxInflight')) actions = some x ∧
      ∀ stamp publication, x.publications[stamp]? = some publication → publication.qos = 2 →
        x.deliveries stamp ≤ 1 ∧ (¬ x.InStore stamp → x.deliveries stamp = 1) := by
  obtain ⟨x, hrun, queue, h⟩ := Run.runs_invariant coherent_step
    ⟨[], coherent_new onPublishFinish nextPacketId maxInflight rfl rfl⟩ hactions
  refine ⟨x, hrun, ?_⟩
  intro stamp publication hpublication hqos
  have hstamp : Published x.publications stamp 2 := ⟨publication, hpublication, by rw [hqos]; rfl⟩
  have hleft : ¬ x.InStore stamp → x.deliveries stamp = 1 := by
    intro hgone
    rw [h.inStore_iff hstamp, not_exists] at hgone
    rw [h.deliveries_eq hstamp]
    exact h.inv.done stamp (mem_qos2Stamps.mpr hstamp) hgone
  refine ⟨?_, hleft⟩
  by_cases hstore : x.InStore stamp
  · obtain ⟨id, hmem⟩ := (h.inStore_iff hstamp).mp hstore
    have hcount := h.inv.counted id stamp hmem
    rw [h.deliveries_eq hstamp]
    change (qos2Passed x.receiver).count stamp = _ at hcount
    rw [hcount]
    split <;> omega
  · exact (hleft hstore).le

theorem distinctIds_of_linked {session : Session Stamped} {queue : List (QueuedPacket Stamped)}
    (hlinked : Segment session.heap session.messageStore.sendingQueueHead queue none)
    (hids : (queue.map fun queued => queued.2.packetId).Nodup) : Exchange.DistinctIds session := by
  intro other hother
  rwa [segment_unique hother hlinked]

/-- A QoS 2 publication whose PUBREC is lost with the first connection and that
is delivered again on the second. -/
def redelivery : List Exchange.Action :=
  [.reconnect, .publish 3 ⟨[97], [98], 2, 0, by decide, by decide⟩ false, .deliverForward 0,
    .drop 0 0, .reconnect, .deliverForward 0, .deliverBackward 3]

theorem qos2_exactly_once_redelivery :
    ∃ x, Run.runs Exchange.step (Exchange.new (tmqSessionNew false 5 4) (tmqSessionNew false 0 4))
        redelivery = some x ∧
      x.deliveries 0 = 1 := by
  have hadmissible : Run.Admissible Exchange.Allowed Exchange.step
      (Exchange.new (tmqSessionNew false 5 4) (tmqSessionNew false 0 4)) redelivery := by
    have hstored : ∀ session : Session Stamped,
        Segment session.heap session.messageStore.sendingQueueHead
          [(3, ⟨5, .publish ⟨4, [97], 5, ⟨0, [98]⟩⟩⟩)] none → Exchange.DistinctIds session :=
      fun session hlinked => distinctIds_of_linked hlinked (by simp)
    refine ⟨⟨trivial, ?_⟩, ⟨rfl, ?_⟩, ⟨trivial, ?_⟩, ⟨trivial, ?_⟩, ⟨trivial, ?_⟩, ⟨trivial, ?_⟩,
      ⟨?_, ?_⟩, trivial⟩
    · intro next hnext
      obtain rfl := Option.some.inj hnext
      exact @distinctIds_of_linked _ [] rfl (by simp)
    · intro next hnext
      obtain rfl := Option.some.inj hnext
      exact hstored _ ⟨rfl, none, rfl, rfl⟩
    · intro next hnext
      obtain rfl := Option.some.inj hnext
      exact hstored _ ⟨rfl, none, rfl, rfl⟩
    · intro next hnext
      obtain rfl := Option.some.inj hnext
      exact hstored _ ⟨rfl, none, rfl, rfl⟩
    · intro next hnext
      obtain rfl := Option.some.inj hnext
      exact hstored _ ⟨rfl, none, rfl, rfl⟩
    · intro next hnext
      obtain rfl := Option.some.inj hnext
      exact hstored _ ⟨rfl, none, rfl, rfl⟩
    · intro packetId acked hhead hack
      obtain rfl := Packet.pubrec.inj (Option.some.inj hhead)
      obtain rfl := Option.some.inj hack
      rfl
    · intro next hnext
      obtain rfl := Option.some.inj hnext
      exact @distinctIds_of_linked _ [(3, ⟨5, .pubrel 5⟩)] ⟨rfl, none, rfl, rfl⟩ (by simp)
  obtain ⟨x, hrun, honce⟩ := qos2_exactly_once false false 5 0 4 4 redelivery hadmissible
  refine ⟨x, hrun, (honce 0 ⟨[97], [98], 2, 0, by decide, by decide⟩ ?_ rfl).2 ?_⟩
  · obtain rfl := Option.some.inj hrun
    rfl
  · obtain rfl := Option.some.inj hrun
    rintro ⟨queue, hlinked, queued, hqueued, pkt, hpkt, -⟩
    have hreleased := @segment_unique _ _ _ _ [(3, ⟨5, .pubrel 5⟩)] hlinked ⟨rfl, none, rfl, rfl⟩
    obtain rfl : queued = (3, ⟨5, .pubrel 5⟩) := by simpa [hreleased] using hqueued
    simp at hpkt

end TinyMqtt
