import TinyMqtt.Session.Spec
import TinyMqtt.Store.Mongodb

/-!
The linked lists of a MongoDB store. Its sending queue is that of a memory
store, but for the total size, which also counts the buffer queue; so each
operation of the memory store is taken over with the size set apart. The loops
of the two database tasks and of `continue_send_messages` are described by the
cells they meet. Each lemma says which cells stay as they are.
-/

namespace TinyMqtt

open LinkedList

variable {π : Type}

def SameOutside (cells : List Addr) (before after : Heap (StoredPacket π)) : Prop :=
  ∀ addr, addr ∉ cells → after addr = before addr

/-- A list of cells that were left alone is still there. -/
theorem SameOutside.segment {cells : List Addr} {before after : Heap (StoredPacket π)}
    (h : SameOutside cells before after) {start stop : Option Addr}
    {segment : List (QueuedPacket π)} (hseg : Segment before start segment stop)
    (hdisjoint : (segment.map Prod.fst).Disjoint cells) : Segment after start segment stop := by
  refine segment_congr hseg ?_
  intro addr haddr
  exact h addr (hdisjoint haddr)

/-- The link behind a list, read as a pointer to its last cell. -/
theorem linkAsPacket_after (queue : List (QueuedPacket π)) :
    linkAsPacket (Link.head.after queue) = queue.getLast?.map Prod.fst := by
  cases hlast : queue.getLast? with
  | none => simp [Link.after, hlast, linkAsPacket]
  | some last => simp [Link.after, hlast, linkAsPacket]

/-! ### The sending queue -/

def Session.withTotalSize (session : Session π) (totalSize : UInt16) : Session π :=
  { session with messageStore := { session.messageStore with totalSize := totalSize } }

theorem memoryStoreStoreMessage_withTotalSize (session : Session π) (totalSize : UInt16)
    (sendingPkt : Addr) :
    memoryStoreStoreMessage (session.withTotalSize totalSize) sendingPkt
      = (memoryStoreStoreMessage session sendingPkt).map fun stored =>
          (stored.1, stored.2.withTotalSize (totalSize + 1)) := by
  cases htail : session.messageStore.sendingQueueTail with
  | none => simp [memoryStoreStoreMessage, Session.withTotalSize, htail]
  | some tail =>
      cases hcell : session.heap tail with
      | none => simp [memoryStoreStoreMessage, Session.withTotalSize, htail, hcell]
      | some cell => simp [memoryStoreStoreMessage, Session.withTotalSize, htail, hcell]

theorem findAcknowledged_withTotalSize (session : Session π) (totalSize : UInt16)
    (packetId : UInt16) (type : PacketType) (qos : Int) (p : Link) (remaining : Nat) :
    findAcknowledged (session.withTotalSize totalSize) packetId type qos p remaining
      = findAcknowledged session packetId type qos p remaining := by
  induction remaining generalizing p with
  | zero => rfl
  | succ remaining ih =>
      unfold findAcknowledged
      simp only [ih]
      rfl

theorem releasePending_withTotalSize (session : Session π) (totalSize : UInt16) :
    releasePending (session.withTotalSize totalSize)
      = (releasePending session).map fun released =>
          (released.1, released.2.withTotalSize totalSize) := by
  cases hpending : session.messageStore.pendingPointer with
  | none => simp [releasePending, Session.withTotalSize, hpending]
  | some pending =>
      cases hcell : session.heap pending with
      | none => simp [releasePending, Session.withTotalSize, hpending, hcell]
      | some cell => simp [releasePending, Session.withTotalSize, hpending, hcell]

theorem reportPublishFinish_withTotalSize (session : Session π) (totalSize : UInt16)
    (packet : Packet π) (qos : Int) :
    reportPublishFinish (session.withTotalSize totalSize) packet qos
      = (reportPublishFinish session packet qos).withTotalSize totalSize := by
  cases packet with
  | publish pkt =>
      by_cases hset : session.onPublishFinish = true
      · simp [reportPublishFinish, Session.withTotalSize, Session.record, hset]
      · simp [reportPublishFinish, Session.withTotalSize, hset]
  | _ => rfl

theorem removeAcknowledged_withTotalSize (session : Session π) (totalSize : UInt16) (p : Link)
    (qos : Int) :
    removeAcknowledged (session.withTotalSize totalSize) p qos
      = (removeAcknowledged session p qos).map fun removed =>
          removed.withTotalSize (totalSize - 1) := by
  unfold removeAcknowledged
  simp only [reportPublishFinish_withTotalSize]
  simp only [Session.withTotalSize]
  cases hread : readLink session.heap session.messageStore.sendingQueueHead p with
  | none => simp
  | some link =>
      cases link with
      | none => simp
      | some remove =>
          cases hcell : session.heap remove with
          | none => simp [hcell]
          | some cell =>
              simp only [hcell, Option.bind_eq_bind, Option.bind_some]
              simp [Option.map_bind]

/-- The memory store's acknowledgement of a packet, with another total size. -/
theorem memoryStoreAcknowledge_withTotalSize {session : Session π} {packetId : UInt16}
    {type : PacketType} {qos : Int} {next : Option Addr} {after : Session π}
    (hack : memoryStoreAcknowledge session packetId type qos = some (next, after))
    (hne : after ≠ session) (totalSize : UInt16) :
    memoryStoreAcknowledge (session.withTotalSize totalSize) packetId type qos
      = some (next, after.withTotalSize (totalSize - 1)) := by
  unfold memoryStoreAcknowledge at hack ⊢
  rw [findAcknowledged_withTotalSize]
  change (findAcknowledged session packetId type qos .head session.inflightPackets.toNat >>= _) = _
  cases hfind : findAcknowledged session packetId type qos .head
      session.inflightPackets.toNat with
  | none => simp [hfind] at hack
  | some found =>
      cases found with
      | none =>
          obtain ⟨-, hsame⟩ : none = next ∧ session = after := by simpa [hfind] using hack
          exact absurd hsame.symm hne
      | some p =>
          simp only [hfind, Option.bind_eq_bind, Option.bind_some] at hack ⊢
          rw [removeAcknowledged_withTotalSize]
          obtain ⟨removed, hremove, hrelease⟩ := Option.bind_eq_some_iff.mp hack
          simp [hremove, releasePending_withTotalSize, hrelease]

/-- The sending queue of a session whose total size counts other packets too. -/
def Linked (session : Session π) (window : Nat) (queue : List (QueuedPacket π)) : Prop :=
  Represents (session.withTotalSize (UInt16.ofNat queue.length)) window queue

section Linked

variable {session : Session π} {window : Nat} {queue : List (QueuedPacket π)}

/-- Storing a new packet in the sending queue. -/
theorem Linked.storeMessage (h : Linked session window queue) {malloc : Addr}
    (hfree : session.heap malloc = none) (stored : StoredPacket π) :
    ∃ sendNow next, memoryStoreStoreMessage
        (session.sendingPacketNew malloc stored.packetId stored.packet) malloc
          = some (sendNow, next) ∧
      Linked next window (queue ++ [(malloc, stored)]) ∧
      next.messageStore.totalSize = session.messageStore.totalSize + 1 ∧
      SameOutside (malloc :: queue.map Prod.fst) session.heap next.heap := by
  obtain ⟨next, hstore, hnext, -⟩ := memoryStoreStoreMessage_represents h hfree stored
  have hshift := memoryStoreStoreMessage_withTotalSize
    ((session.withTotalSize (UInt16.ofNat queue.length)).sendingPacketNew malloc stored.packetId
      stored.packet) session.messageStore.totalSize malloc
  rw [hstore, Option.map_some] at hshift
  have hsize : next.messageStore.totalSize = UInt16.ofNat (queue ++ [(malloc, stored)]).length :=
    hnext.totalSize
  refine ⟨_, next.withTotalSize (session.messageStore.totalSize + 1), hshift, ?_, rfl, ?_⟩
  · rw [Linked, ← hsize]
    exact hnext
  · intro addr haddr
    simp only [List.mem_cons, not_or] at haddr
    have htail : session.messageStore.sendingQueueTail ≠ some addr := by
      rw [show session.messageStore.sendingQueueTail = queue.getLast?.map Prod.fst from h.tail]
      intro hlast
      obtain ⟨last, hmem, rfl⟩ := Option.map_eq_some_iff.mp hlast
      exact haddr.2 (List.mem_map_of_mem (List.mem_of_getLast? hmem))
    rw [show (next.withTotalSize (session.messageStore.totalSize + 1)).heap = next.heap from rfl,
      memoryStoreStoreMessage_heap hstore htail]
    exact Function.update_of_ne haddr.1 _ _

/-- The search for the packet of an acknowledgement that names none in flight. -/
theorem Linked.findAcknowledged_invalid (h : Linked session window queue) {packetId : UInt16}
    {type : PacketType} {qos : Int}
    (hnone : ∀ queued ∈ queue.take window, queued.2.acknowledgedBy packetId type qos = false) :
    findAcknowledged session packetId type qos .head session.inflightPackets.toNat
      = some none := by
  have hinflight : session.inflightPackets.toNat = min window queue.length := h.inflight
  have hfind := @findAcknowledged_none _ session packetId type qos [] queue
    session.inflightPackets.toNat h.linked (by rwa [hinflight, ← List.take_eq_take_min])
  rwa [Link.after_nil] at hfind

theorem Linked.acknowledge_invalid (h : Linked session window queue) {packetId : UInt16}
    {type : PacketType} {qos : Int}
    (hnone : ∀ queued ∈ queue.take window, queued.2.acknowledgedBy packetId type qos = false) :
    memoryStoreAcknowledge session packetId type qos = some (none, session) := by
  simp [memoryStoreAcknowledge, h.findAcknowledged_invalid hnone]

/-- An acknowledgement of a packet in flight takes it out of the queue. -/
theorem Linked.acknowledge_valid {before after : List (QueuedPacket π)} {queued : QueuedPacket π}
    (h : Linked session window (before ++ queued :: after)) (hreach : before.length < window)
    {packetId : UInt16} {type : PacketType} {qos : Int}
    (hbefore : ∀ other ∈ before, other.2.acknowledgedBy packetId type qos = false)
    (hqueued : queued.2.acknowledgedBy packetId type qos = true) :
    ∃ pending next, memoryStoreAcknowledge session packetId type qos = some (pending, next) ∧
      Linked next window (before ++ after) ∧
      next.messageStore.totalSize = session.messageStore.totalSize - 1 ∧
      SameOutside ((before ++ queued :: after).map Prod.fst) session.heap next.heap := by
  obtain ⟨next, hack, hnext, -, hheap⟩ := memoryStoreAcknowledge_valid h hreach hbefore hqueued
  have hne : next ≠ session.withTotalSize (UInt16.ofNat (before ++ queued :: after).length) := by
    rintro rfl
    have hsame := segment_unique hnext.linked h.linked
    simp at hsame
  have hshift := memoryStoreAcknowledge_withTotalSize hack hne session.messageStore.totalSize
  have hsize : next.messageStore.totalSize = UInt16.ofNat (before ++ after).length :=
    hnext.totalSize
  refine ⟨_, next.withTotalSize (session.messageStore.totalSize - 1), hshift, ?_, rfl, hheap⟩
  rw [Linked, ← hsize]
  exact hnext

/-- With an empty queue nothing is in flight. -/
theorem Linked.inflight_zero (h : Linked session window []) : session.inflightPackets.toNat = 0 := by
  rw [show session.inflightPackets.toNat = min window _ from h.inflight]
  exact Nat.min_zero window

end Linked

/-! ### Sending the first packets of a queue -/

section Continue

variable [TmqString π]

/-- A packet that `continue_send_messages` may meet. -/
def IsPublish (queued : QueuedPacket π) : Prop := ∃ pkt, queued.2.packet = .publish pkt

/-- The loop sends a packet for each place in the window and stops at the first
packet left. -/
theorem continueSendFrom_eq {queue : List (QueuedPacket π)} (hpublish : ∀ queued ∈ queue, IsPublish queued)
    {session : Session π} {start : Option Addr} (hseg : Segment session.heap start queue none)
    (room : Nat) (hroom : session.inflightPackets.toNat + room < 256) :
    ∃ log, continueSendFrom room session start
      = some (queue[room]?.map Prod.fst,
          { session with
            inflightPackets := UInt8.ofNat
              (session.inflightPackets.toNat + min room queue.length)
            log := log }) := by
  induction queue generalizing session start room with
  | nil =>
      obtain rfl : start = none := hseg
      refine ⟨session.log, ?_⟩
      cases room <;> simp [continueSendFrom]
  | cons queued queue ih =>
      obtain ⟨rfl, next, hcell, hrest⟩ := hseg
      cases room with
      | zero => exact ⟨session.log, by simp [continueSendFrom]⟩
      | succ room =>
          obtain ⟨pkt, hpkt⟩ := hpublish queued (by simp)
          have hcount : (session.inflightPackets + 1).toNat = session.inflightPackets.toNat + 1 := by
            rw [UInt8.toNat_add, UInt8.toNat_one]
            omega
          obtain ⟨log, hloop⟩ := @ih (fun other hother => hpublish other (by simp [hother]))
            { tmqSessionSendPacket session (.publish (tmqPublishPktClone pkt)) with
              inflightPackets := session.inflightPackets + 1 } next hrest room
            (by dsimp only; omega)
          refine ⟨log, ?_⟩
          rw [continueSendFrom, hcell, Option.bind_eq_bind, Option.bind_some, hpkt]
          dsimp only
          refine hloop.trans ?_
          have hmin : session.inflightPackets.toNat + 1 + min room queue.length
              = session.inflightPackets.toNat + min (room + 1) (queue.length + 1) := by omega
          simp [hcount, hmin, tmqSessionSendPacket, Session.record]

/-- `continue_send_messages` on a queue that has just taken the place of an
empty one. -/
theorem continueSendMessages_linked {session : Session π} {window : Nat}
    {queue : List (QueuedPacket π)} (hpublish : ∀ queued ∈ queue, IsPublish queued)
    (hseg : Segment session.heap session.messageStore.sendingQueueHead queue none)
    (hnodup : (queue.map Prod.fst).Nodup)
    (htail : session.messageStore.sendingQueueTail = queue.getLast?.map Prod.fst)
    (hwindow : session.inflightWindowSize.toNat = window)
    (hinflight : session.inflightPackets.toNat = 0)
    (hpending : session.messageStore.pendingPointer = none) :
    ∃ next, continueSendMessages session = some next ∧ Linked next window queue ∧
      next.messageStore.totalSize = session.messageStore.totalSize ∧
      next.heap = session.heap := by
  have hbound : window < 256 := hwindow ▸ session.inflightWindowSize.toNat_lt
  obtain ⟨log, hloop⟩ := continueSendFrom_eq hpublish hseg window (by omega)
  rw [hinflight, Nat.zero_add] at hloop
  refine ⟨{ session with
    messageStore := { session.messageStore with pendingPointer := queue[window]?.map Prod.fst }
    inflightPackets := UInt8.ofNat (min window queue.length)
    log := log }, ?_, ⟨hseg, hnodup, htail, hwindow, ?_, rfl, rfl⟩, rfl, rfl⟩
  · simp [continueSendMessages, hwindow, hinflight, hloop, hpending]
  · exact UInt8.toNat_ofNat_of_lt' (by rw [UInt8.size]; omega)

end Continue

/-! ### The database tasks -/

section Tasks

variable [TmqString π]

structure TimedPkt (π : Type) [TmqString π] where
  timestamp : Nat
  pkt : CopiedPkt π

namespace TimedPkt

def stored (timed : TimedPkt π) : StoredPacket π := ⟨timed.pkt.1.packetId, .publish timed.pkt⟩

def document (timed : TimedPkt π) : Document π :=
  { timestamp := timed.timestamp, packetId := timed.pkt.1.packetId, flags := timed.pkt.1.flags
    topic := timed.pkt.1.topic, payload := timed.pkt.1.payload }

theorem topic_eq (pkt : CopiedPkt π) : tmqStrNew pkt.1.topic = pkt.1.topic :=
  congrArg PublishPkt.topic pkt.2

theorem payload_eq (pkt : CopiedPkt π) : tmqStrNew pkt.1.payload = pkt.1.payload :=
  congrArg PublishPkt.payload pkt.2

theorem ofPacket_stored (timed : TimedPkt π) :
    Document.ofPacket timed.timestamp timed.stored = some timed.document := by
  rw [Document.ofPacket, stored]
  dsimp only
  rw [topic_eq, payload_eq]
  rfl

/-- A packet comes back from the database as it was. -/
theorem toPacket_document (timed : TimedPkt π) : timed.document.toPacket = timed.stored := by
  rw [Document.toPacket, document]
  dsimp only
  rw [topic_eq, payload_eq]
  rfl

end TimedPkt

def cells (packets : List (Addr × TimedPkt π)) : List (QueuedPacket π) :=
  packets.map fun packet => (packet.1, packet.2.stored)

@[simp] theorem map_fst_cells (packets : List (Addr × TimedPkt π)) :
    (cells packets).map Prod.fst = packets.map Prod.fst := by
  simp [cells]

@[simp] theorem length_cells (packets : List (Addr × TimedPkt π)) :
    (cells packets).length = packets.length := by
  simp [cells]

theorem isPublish_cells {packets : List (Addr × TimedPkt π)} {queued : QueuedPacket π}
    (hmem : queued ∈ cells packets) : IsPublish queued := by
  obtain ⟨packet, -, rfl⟩ := List.mem_map.mp hmem
  exact ⟨packet.2.pkt, rfl⟩

/-- The storing task turns its list into documents and frees its cells. -/
theorem storeMessagesToMongodb_eq {timestamps : Addr → Nat} {packets : List (Addr × TimedPkt π)}
    (htimes : ∀ packet ∈ packets, timestamps packet.1 = packet.2.timestamp)
    (hnodup : (packets.map Prod.fst).Nodup) {heap : Heap (StoredPacket π)} {start : Option Addr}
    (hseg : Segment heap start (cells packets) none) :
    ∃ heap', storeMessagesToMongodb timestamps packets.length heap start
        = some (packets.map fun packet => packet.2.document, heap') ∧
      SameOutside (packets.map Prod.fst) heap heap' := by
  induction packets generalizing heap start with
  | nil => exact ⟨heap, rfl, fun _ _ => rfl⟩
  | cons packet packets ih =>
      obtain ⟨rfl, next, hcell, hrest⟩ := hseg
      rw [List.map_cons, List.nodup_cons] at hnodup
      have hfreed : Segment (Function.update heap packet.1 none) next (cells packets) none := by
        apply segment_update hrest
        exact map_fst_cells packets ▸ hnodup.1
      obtain ⟨heap', hloop, hsame⟩ := ih
        (fun other hother => htimes other (List.mem_cons_of_mem _ hother)) hnodup.2 hfreed
      refine ⟨heap', ?_, ?_⟩
      · rw [List.length_cons, storeMessagesToMongodb]
        simp only [Option.bind_eq_bind, Option.bind_some, hcell,
          htimes packet List.mem_cons_self, TimedPkt.ofPacket_stored, hloop]
        rfl
      · intro addr haddr
        simp only [List.map_cons, List.mem_cons, not_or] at haddr
        rw [hsame addr haddr.2, Function.update_of_ne haddr.1]

/-- The packets made from documents, at the addresses that `malloc` returns. -/
def placed (malloc : Nat → Addr) (cnt : Nat) (documents : List (TimedPkt π)) :
    List (Addr × TimedPkt π) :=
  (documents.zipIdx cnt).map fun numbered => (malloc numbered.2, numbered.1)

theorem placed_cons (malloc : Nat → Addr) (cnt : Nat) (timed : TimedPkt π)
    (documents : List (TimedPkt π)) :
    placed malloc cnt (timed :: documents)
      = (malloc cnt, timed) :: placed malloc (cnt + 1) documents := by
  simp [placed]

@[simp] theorem map_snd_placed (malloc : Nat → Addr) (cnt : Nat) (documents : List (TimedPkt π)) :
    (placed malloc cnt documents).map Prod.snd = documents := by
  induction documents generalizing cnt with
  | nil => rfl
  | cons timed documents ih => rw [placed_cons, List.map_cons, ih]

@[simp] theorem length_placed (malloc : Nat → Addr) (cnt : Nat) (documents : List (TimedPkt π)) :
    (placed malloc cnt documents).length = documents.length := by
  simp [placed]

theorem mem_placed {malloc : Nat → Addr} {cnt : Nat} {documents : List (TimedPkt π)} {addr : Addr}
    (hmem : addr ∈ (placed malloc cnt documents).map Prod.fst) : ∃ i, addr = malloc i := by
  simp only [placed, List.map_map, List.mem_map] at hmem
  obtain ⟨numbered, -, rfl⟩ := hmem
  exact ⟨numbered.2, rfl⟩

/-- The fetching task hangs one new cell after the other at the end of its
list. -/
theorem fetchMessagesLoop_eq {malloc : Nat → Addr} (hmalloc : Function.Injective malloc)
    (documents : List (TimedPkt π)) {cnt : Nat} {heap : Heap (StoredPacket π)}
    {head : Option Addr} {made : List (QueuedPacket π)} (hseg : Segment heap head made none)
    (hmade : ∀ queued ∈ made, ∃ i, i < cnt ∧ queued.1 = malloc i)
    (hnodup : (made.map Prod.fst).Nodup) :
    ∃ heap' head', fetchMessagesLoop malloc (documents.map TimedPkt.document) cnt
        (heap, head, Link.head.after made)
          = some (heap', head', Link.head.after (made ++ cells (placed malloc cnt documents))) ∧
      Segment heap' head' (made ++ cells (placed malloc cnt documents)) none ∧
      ((made ++ cells (placed malloc cnt documents)).map Prod.fst).Nodup ∧
      ∀ addr, (∀ i, addr ≠ malloc i) → heap' addr = heap addr := by
  induction documents generalizing cnt heap head made with
  | nil =>
      refine ⟨heap, head, ?_, ?_, ?_, fun _ _ => rfl⟩
      · simp [fetchMessagesLoop, placed, cells]
      · simpa [placed, cells] using hseg
      · simpa [placed, cells] using hnodup
  | cons timed documents ih =>
      have hfresh : malloc cnt ∉ made.map Prod.fst := by
        intro hmem
        obtain ⟨queued, hqueued, haddr⟩ := List.mem_map.mp hmem
        obtain ⟨i, hi, hmalloc'⟩ := hmade queued hqueued
        have heq := hmalloc (haddr.symm.trans hmalloc')
        omega
      obtain ⟨linked, first, hwrite, hlinked, hother⟩ :=
        writeLink_after hseg hnodup (some (malloc cnt))
      have hnext : Segment (Function.update linked (malloc cnt) (some ⟨none, timed.stored⟩)) first
          (made ++ [(malloc cnt, timed.stored)]) none := by
        refine segment_append.mpr ⟨some (malloc cnt), segment_update hlinked hfresh _, rfl, none,
          ?_, rfl⟩
        exact Function.update_self _ _ _
      have hnodup' : ((made ++ [(malloc cnt, timed.stored)]).map Prod.fst).Nodup := by
        rw [List.map_append, List.map_singleton, List.nodup_append]
        refine ⟨hnodup, List.nodup_singleton _, ?_⟩
        rintro addr haddr other hother rfl
        obtain rfl : addr = malloc cnt := List.mem_singleton.mp hother
        exact hfresh haddr
      have hmade' : ∀ queued ∈ made ++ [(malloc cnt, timed.stored)],
          ∃ i, i < cnt + 1 ∧ queued.1 = malloc i := by
        intro queued hmem
        rcases List.mem_append.mp hmem with hmem | hmem
        · obtain ⟨i, hi, haddr⟩ := hmade queued hmem
          exact ⟨i, by omega, haddr⟩
        · obtain rfl := List.mem_singleton.mp hmem
          exact ⟨cnt, by omega, rfl⟩
      obtain ⟨heap', head', hloop, hseg', hnodupAll, hsame⟩ := ih hnext hmade' hnodup'
      rw [Link.after_concat] at hloop
      have hcells : cells (placed malloc cnt (timed :: documents))
          = (malloc cnt, timed.stored) :: cells (placed malloc (cnt + 1) documents) := by
        rw [placed_cons]
        rfl
      rw [List.append_assoc, List.singleton_append, ← hcells] at hloop hseg' hnodupAll
      refine ⟨heap', head', ?_, hseg', hnodupAll, ?_⟩
      · rw [List.map_cons, fetchMessagesLoop]
        simp only [hwrite, Option.bind_eq_bind, Option.bind_some, TimedPkt.toPacket_document]
        exact hloop
      · intro addr haddr
        rw [hsame addr haddr, Function.update_of_ne (haddr cnt)]
        by_cases hmem : addr ∈ made.map Prod.fst
        · obtain ⟨queued, hqueued, rfl⟩ := List.mem_map.mp hmem
          obtain ⟨i, -, hmalloc'⟩ := hmade queued hqueued
          exact absurd hmalloc' (haddr i)
        · exact hother addr hmem

end Tasks

end TinyMqtt
