import TinyMqtt.Lib.Run
import TinyMqtt.Lib.WindowedFifo
import TinyMqtt.Store.MsgStore

/-!
The memory store is a windowed FIFO. The pointers of the store and the
session's counter are tied to the linked queue by `Represents`; each of the
two operations keeps it, also through removals at the head, in the middle and
at the tail of the queue.
-/

namespace TinyMqtt

open LinkedList

variable {π : Type}

abbrev QueuedPacket (π : Type) := Addr × StoredPacket π

/-- The fields of the session and its store say what the queue is. -/
structure Represents (session : Session π) (window : Nat) (queue : List (QueuedPacket π)) :
    Prop where
  linked : Segment session.heap session.messageStore.sendingQueueHead queue none
  nodup : (queue.map Prod.fst).Nodup
  tail : session.messageStore.sendingQueueTail = queue.getLast?.map Prod.fst
  windowSize : session.inflightWindowSize.toNat = window
  inflight : session.inflightPackets.toNat = min window queue.length
  pending : session.messageStore.pendingPointer = queue[window]?.map Prod.fst
  totalSize : session.messageStore.totalSize = UInt16.ofNat queue.length

theorem represents_new (onPublishFinish : Bool) (nextPacketId : UInt16) (maxInflight : UInt8) :
    Represents (tmqSessionNew onPublishFinish nextPacketId maxInflight : Session π)
      maxInflight.toNat [] where
  linked := rfl
  nodup := List.nodup_nil
  tail := rfl
  windowSize := rfl
  inflight := by simp [tmqSessionNew]
  pending := by simp [tmqSessionNew]
  totalSize := rfl

namespace Represents

variable {session : Session π} {window : Nat} {queue : List (QueuedPacket π)}

theorem window_lt (h : Represents session window queue) : window < 256 := by
  rw [← h.windowSize]
  exact session.inflightWindowSize.toNat_lt

/-- The pending pointer is the packet behind the inflight ones. -/
theorem pending_eq (h : Represents session window queue) :
    session.messageStore.pendingPointer =
      queue[session.inflightPackets.toNat]?.map Prod.fst := by
  rw [h.pending, h.inflight]
  rcases Nat.lt_or_ge window queue.length with hlt | hge
  · rw [Nat.min_eq_left hlt.le]
  · rw [Nat.min_eq_right hge, List.getElem?_eq_none hge, List.getElem?_eq_none (le_refl _)]

theorem take_inflight (h : Represents session window queue) :
    queue.take session.inflightPackets.toNat = queue.take window := by
  rw [h.inflight, ← List.take_eq_take_min]

theorem drop_inflight (h : Represents session window queue) :
    queue.drop session.inflightPackets.toNat = queue.drop window := by
  rw [h.inflight]
  rcases Nat.lt_or_ge window queue.length with hlt | hge
  · rw [Nat.min_eq_left hlt.le]
  · rw [Nat.min_eq_right hge, List.drop_eq_nil_of_le hge, List.drop_length]

/-- A packet may be sent at once when the window has room. -/
theorem sendNow_iff (h : Represents session window queue) :
    session.inflightPackets < session.inflightWindowSize ↔ queue.length < window := by
  rw [UInt8.lt_iff_toNat_lt, h.inflight, h.windowSize]
  omega

theorem not_mem_of_free (h : Represents session window queue) {addr : Addr}
    (hfree : session.heap addr = none) : addr ∉ queue.map Prod.fst :=
  fun hmem => segment_allocated h.linked hmem hfree

/-- A queued packet is found at its address. -/
theorem lookup (h : Represents session window queue) {queued : QueuedPacket π}
    (hmem : queued ∈ queue) : (session.heap queued.1).map Node.value = some queued.2 := by
  obtain ⟨i, hi⟩ := List.mem_iff_getElem?.mp hmem
  rw [segment_getElem h.linked hi]
  rfl

end Represents

/-- What the store's operations leave alone: everything but the queue, apart
from the reports that a publish has finished. -/
structure StoreFrame (before after : Session π) : Prop where
  onPublishFinish : after.onPublishFinish = before.onPublishFinish
  nextPacketId : after.nextPacketId = before.nextPacketId
  qos2PacketIds : after.qos2PacketIds = before.qos2PacketIds
  sent : after.sent = before.sent
  delivered : after.delivered = before.delivered

/-- Storing a new packet appends it to the queue. -/
theorem memoryStoreStoreMessage_represents {session : Session π} {window : Nat}
    {queue : List (QueuedPacket π)} (h : Represents session window queue) {malloc : Addr}
    (hfree : session.heap malloc = none) (stored : StoredPacket π) :
    ∃ next, memoryStoreStoreMessage
        (session.sendingPacketNew malloc stored.packetId stored.packet) malloc
          = some (decide (queue.length < window), next) ∧
      Represents next window (queue ++ [(malloc, stored)]) ∧ StoreFrame session next := by
  have hfresh : malloc ∉ queue.map Prod.fst := h.not_mem_of_free hfree
  have hlinked := segment_update h.linked hfresh (some ⟨none, stored⟩)
  obtain ⟨heap, head, hwrite, hseg, hother⟩ := writeLink_after hlinked h.nodup (some malloc)
  have hnodup : ((queue ++ [(malloc, stored)]).map Prod.fst).Nodup := by
    rw [List.map_append, List.nodup_append]
    refine ⟨h.nodup, by simp, ?_⟩
    rintro addr haddr other hother rfl
    obtain rfl : addr = malloc := by simpa using hother
    exact hfresh haddr
  have hsegment : Segment heap head (queue ++ [(malloc, stored)]) none := by
    refine segment_append.mpr ⟨some malloc, hseg, rfl, none, ?_, rfl⟩
    rw [hother malloc hfresh, Function.update_self]
  have hwindow := h.window_lt
  have hinflight := h.inflight
  refine ⟨{ session with
    heap := heap
    messageStore :=
      { totalSize := session.messageStore.totalSize + 1
        sendingQueueHead := head
        sendingQueueTail := some malloc
        pendingPointer :=
          if queue.length < window then session.messageStore.pendingPointer
          else some (session.messageStore.pendingPointer.getD malloc) }
    inflightPackets :=
      if queue.length < window then session.inflightPackets + 1 else session.inflightPackets },
    ?_, ?_, ⟨rfl, rfl, rfl, rfl, rfl⟩⟩
  · cases queue using List.reverseRecOn with
    | nil =>
        have htail : session.messageStore.sendingQueueTail = none := by simpa using h.tail
        obtain ⟨rfl, rfl⟩ : Function.update session.heap malloc (some ⟨none, stored⟩) = heap ∧
            some malloc = head := by
          simpa [writeLink] using hwrite
        simp [memoryStoreStoreMessage, Session.sendingPacketNew, htail, h.sendNow_iff]
    | append_singleton cells last =>
        have htail : session.messageStore.sendingQueueTail = some last.1 := by simpa using h.tail
        simp only [Link.after_concat, writeLink, Option.bind_eq_bind, Option.bind_eq_some_iff,
          Option.some.injEq, Prod.mk.injEq] at hwrite
        obtain ⟨cell, hcell, rfl, rfl⟩ := hwrite
        simp [memoryStoreStoreMessage, Session.sendingPacketNew, htail, h.sendNow_iff, hcell]
  · refine ⟨hsegment, hnodup, by simp, h.windowSize, ?_, ?_, ?_⟩
    · by_cases hroom : queue.length < window
      · simp only [hroom, ↓reduceIte, UInt8.toNat_add, UInt8.toNat_one, List.length_append,
          List.length_singleton]
        omega
      · simp only [hroom, ↓reduceIte, List.length_append, List.length_singleton]
        omega
    · rcases Nat.lt_trichotomy queue.length window with hlt | heq | hgt
      · have hnone : session.messageStore.pendingPointer = none := by
          rw [h.pending, List.getElem?_eq_none hlt.le]
          rfl
        simp [hlt, hnone]
      · have hnone : session.messageStore.pendingPointer = none := by
          rw [h.pending, List.getElem?_eq_none heq.le]
          rfl
        simp [← heq, hnone]
      · simp [hgt.not_gt, h.pending, hgt, List.getElem?_append_left hgt]
    · simp [h.totalSize]

/-- Storing a packet writes to the last packet of the queue only. -/
theorem memoryStoreStoreMessage_heap {session next : Session π} {sendingPkt : Addr}
    {sendNow : Bool} (hstore : memoryStoreStoreMessage session sendingPkt = some (sendNow, next))
    {addr : Addr} (haddr : session.messageStore.sendingQueueTail ≠ some addr) :
    next.heap addr = session.heap addr := by
  unfold memoryStoreStoreMessage at hstore
  cases htail : session.messageStore.sendingQueueTail with
  | none =>
      obtain ⟨-, rfl⟩ : _ ∧ _ := by simpa [htail] using hstore
      rfl
  | some tail =>
      have hne : addr ≠ tail := by
        rintro rfl
        exact haddr htail
      cases hcell : session.heap tail with
      | none => simp [htail, hcell] at hstore
      | some cell =>
          obtain ⟨-, rfl⟩ : _ ∧ _ := by simpa [htail, hcell] using hstore
          exact Function.update_of_ne hne _ _

/-- A packet has this identifier, this type and, for PUBLISH, this QoS. -/
structure NamedBy (stored : StoredPacket π) (packetId : UInt16) (type : PacketType) (qos : Int) :
    Prop where
  packetId : stored.packetId = packetId
  packetType : stored.packet.packetType = type
  qos : ∀ pkt, stored.packet = .publish pkt → (publishQos pkt.flags : Int) = qos

theorem acknowledgedBy_iff_namedBy (stored : StoredPacket π) (packetId : UInt16)
    (type : PacketType) (qos : Int) :
    stored.acknowledgedBy packetId type qos = true ↔ NamedBy stored packetId type qos := by
  unfold StoredPacket.acknowledgedBy
  constructor
  · intro h
    split at h
    · simp at h
    · rename_i hsame
      simp only [ne_eq, not_or, not_not] at hsame
      refine ⟨hsame.1, hsame.2, ?_⟩
      rintro pkt hpkt
      simpa [hpkt] using h
  · rintro ⟨hid, htype, hqos⟩
    rw [if_neg (by simp [hid, htype])]
    cases hpkt : stored.packet with
    | publish pkt => simpa [hpkt] using hqos
    | _ => rfl

/-- The first packet an acknowledgement names, when it names one in the
window. -/
theorem exists_first_acked {window : Nat} {queue : List (QueuedPacket π)} {packetId : UInt16}
    {type : PacketType} {qos : Int}
    (hacked : ∃ queued ∈ queue.take window, queued.2.acknowledgedBy packetId type qos = true) :
    ∃ before queued after, queue = before ++ queued :: after ∧ before.length < window ∧
      (∀ other ∈ before, other.2.acknowledgedBy packetId type qos = false) ∧
      queued.2.acknowledgedBy packetId type qos = true := by
  let fifo : WindowedFifo (QueuedPacket π) := ⟨window, queue, [], []⟩
  have hany : fifo.inflight.any (fun queued => queued.2.acknowledgedBy packetId type qos) :=
    List.any_eq_true.mpr hacked
  obtain ⟨before, queued, after, hqueue, hlength, hbefore, hqueued, -⟩ :=
    WindowedFifo.exists_acked hany
  exact ⟨before, queued, after, hqueue, hlength, hbefore, hqueued⟩

section Acknowledge

variable {session : Session π} {packetId : UInt16} {type : PacketType} {qos : Int}

/-- The loop at the first of the packets it has not passed yet. -/
theorem findAcknowledged_cons {passed rest : List (QueuedPacket π)} {queued : QueuedPacket π}
    (hseg : Segment session.heap session.messageStore.sendingQueueHead
      (passed ++ queued :: rest) none) (remaining : Nat) :
    findAcknowledged session packetId type qos (Link.head.after passed) (remaining + 1) =
      if queued.2.acknowledgedBy packetId type qos then some (some (Link.head.after passed))
      else findAcknowledged session packetId type qos
        (Link.head.after (passed ++ [queued])) remaining := by
  obtain ⟨middle, hpassed, rfl, next, hcell, -⟩ := segment_append.mp hseg
  have hread := readLink_after hpassed
  simp [findAcknowledged, hread, hcell]

/-- The loop ends without a packet when no packet in its reach is meant. -/
theorem findAcknowledged_none {passed rest : List (QueuedPacket π)} {remaining : Nat}
    (hseg : Segment session.heap session.messageStore.sendingQueueHead (passed ++ rest) none)
    (hnone : ∀ queued ∈ rest.take remaining, queued.2.acknowledgedBy packetId type qos = false) :
    findAcknowledged session packetId type qos (Link.head.after passed) remaining = some none := by
  induction rest generalizing passed remaining with
  | nil =>
      have hread := readLink_after (List.append_nil passed ▸ hseg)
      cases remaining <;> simp [findAcknowledged, hread]
  | cons queued rest ih =>
      cases remaining with
      | zero =>
          obtain ⟨middle, hpassed, -⟩ := segment_append.mp hseg
          simp [findAcknowledged, readLink_after hpassed]
      | succ remaining =>
          have hqueued : queued.2.acknowledgedBy packetId type qos = false :=
            hnone queued (by simp)
          rw [findAcknowledged_cons hseg, hqueued]
          refine ih (by simpa using hseg) ?_
          intro other hother
          exact hnone other (by simp [hother])

/-- The loop stops at the link to the first packet that is meant. -/
theorem findAcknowledged_some {passed before after : List (QueuedPacket π)}
    {queued : QueuedPacket π} {remaining : Nat}
    (hseg : Segment session.heap session.messageStore.sendingQueueHead
      (passed ++ (before ++ queued :: after)) none)
    (hreach : before.length < remaining)
    (hbefore : ∀ other ∈ before, other.2.acknowledgedBy packetId type qos = false)
    (hqueued : queued.2.acknowledgedBy packetId type qos = true) :
    findAcknowledged session packetId type qos (Link.head.after passed) remaining
      = some (some (Link.head.after (passed ++ before))) := by
  induction before generalizing passed remaining with
  | nil =>
      obtain ⟨remaining, rfl⟩ : ∃ n, remaining = n + 1 := ⟨remaining - 1, by simp at hreach; omega⟩
      rw [findAcknowledged_cons hseg, hqueued]
      simp
  | cons other before ih =>
      obtain ⟨remaining, rfl⟩ : ∃ n, remaining = n + 1 := ⟨remaining - 1, by simp at hreach; omega⟩
      have hother : other.2.acknowledgedBy packetId type qos = false := hbefore other (by simp)
      rw [findAcknowledged_cons hseg, hother]
      have hrest := @ih (passed ++ [other]) remaining (by simpa using hseg) (by simpa using hreach)
        (fun x hx => hbefore x (by simp [hx]))
      simpa using hrest

theorem reportPublishFinish_eq (session : Session π) (packet : Packet π) (qos : Int) :
    ∃ log, reportPublishFinish session packet qos = { session with log := log } ∧
      StoreFrame session { session with log := log } := by
  have hsame : StoreFrame session session := ⟨rfl, rfl, rfl, rfl, rfl⟩
  cases packet with
  | publish pkt =>
      by_cases hset : session.onPublishFinish = true
      · refine ⟨session.log ++ [.onPublishFinish pkt.packetId qos], ?_, rfl, rfl, rfl, ?_, ?_⟩
        · exact if_pos hset
        · simp [Session.sent]
        · simp [Session.delivered]
      · exact ⟨session.log, if_neg hset, hsame⟩
  | _ => exact ⟨session.log, rfl, hsame⟩

/-- Removing a packet unlinks it, moves the tail when it was the last one, and
frees it. -/
theorem removeAcknowledged_eq {before after : List (QueuedPacket π)} {queued : QueuedPacket π}
    {window : Nat} (h : Represents session window (before ++ queued :: after)) (qos : Int) :
    ∃ next, removeAcknowledged session (Link.head.after before) qos = some next ∧
      Segment next.heap next.messageStore.sendingQueueHead (before ++ after) none ∧
      next.messageStore.sendingQueueTail = (before ++ after).getLast?.map Prod.fst ∧
      next.messageStore.pendingPointer = session.messageStore.pendingPointer ∧
      next.messageStore.totalSize = session.messageStore.totalSize - 1 ∧
      next.inflightPackets = session.inflightPackets - 1 ∧
      next.inflightWindowSize = session.inflightWindowSize ∧
      StoreFrame session next ∧
      ∀ addr, addr ∉ (before ++ queued :: after).map Prod.fst →
        next.heap addr = session.heap addr := by
  obtain ⟨middle, hbefore, rfl, link, hcell, hafter⟩ := segment_append.mp h.linked
  have hnodup := h.nodup
  simp only [List.map_append, List.map_cons, List.nodup_append, List.nodup_cons] at hnodup
  obtain ⟨hnodupBefore, ⟨hqueuedAfter, hnodupAfter⟩, hdisjoint⟩ := hnodup
  have hqueuedBefore : queued.1 ∉ before.map Prod.fst :=
    fun hmem => hdisjoint queued.1 hmem queued.1 (by simp) rfl
  obtain ⟨heap, head, hwrite, hsegBefore, hother⟩ := writeLink_after hbefore hnodupBefore link
  have hsegAfter : Segment heap link after none := by
    refine segment_congr hafter fun addr haddr => hother addr fun hmem => ?_
    exact hdisjoint addr hmem addr (by simp [haddr]) rfl
  have hseg : Segment heap head (before ++ after) none :=
    segment_append.mpr ⟨link, hsegBefore, hsegAfter⟩
  have hqueued : queued.1 ∉ (before ++ after).map Prod.fst := by
    simp only [List.map_append, List.mem_append, not_or]
    exact ⟨hqueuedBefore, hqueuedAfter⟩
  have htail : tailAfterRemoval session.messageStore.sendingQueueTail head queued.1
      (Link.head.after before) = some ((before ++ after).getLast?.map Prod.fst) := by
    rw [tailAfterRemoval, h.tail, segment_start_isSome hseg]
    cases after using List.reverseRecOn with
    | nil =>
        cases before using List.reverseRecOn with
        | nil => simp
        | append_singleton cells last => simp [linkAsPacket]
    | append_singleton cells last =>
        have hne : last.1 ≠ queued.1 := by
          rintro heq
          simp [heq] at hqueuedAfter
        have hlast : (before ++ queued :: (cells ++ [last])).getLast? = some last := by
          rw [← List.cons_append, ← List.append_assoc, List.getLast?_concat]
        simp [hlast, hne, ← List.append_assoc]
  obtain ⟨log, hlog, hframe⟩ := reportPublishFinish_eq session queued.2.packet qos
  refine ⟨{ session with
    heap := Function.update heap queued.1 none
    messageStore :=
      { session.messageStore with
        totalSize := session.messageStore.totalSize - 1
        sendingQueueHead := head
        sendingQueueTail := (before ++ after).getLast?.map Prod.fst }
    inflightPackets := session.inflightPackets - 1
    log := log }, ?_, segment_update hseg hqueued none, rfl, rfl, rfl, rfl, rfl,
    ⟨rfl, rfl, rfl, hframe.sent, hframe.delivered⟩, ?_⟩
  · have hread := readLink_after hbefore
    simp only [removeAcknowledged, hread, hcell, hlog, hwrite, htail, Option.bind_eq_bind,
      Option.bind_some]
  · intro addr haddr
    simp only [List.map_append, List.map_cons, List.mem_append, List.mem_cons, not_or] at haddr
    obtain ⟨houtBefore, hne, -⟩ := haddr
    exact (Function.update_of_ne hne _ _).trans (hother addr houtBefore)

/-- An acknowledgement that names no inflight packet changes nothing. -/
theorem memoryStoreAcknowledge_invalid {window : Nat} {queue : List (QueuedPacket π)}
    (h : Represents session window queue)
    (hnone : ∀ queued ∈ queue.take window, queued.2.acknowledgedBy packetId type qos = false) :
    memoryStoreAcknowledge session packetId type qos = some (none, session) := by
  have hfind := @findAcknowledged_none _ session packetId type qos [] queue _ h.linked
    (by rwa [h.take_inflight])
  rw [Link.after_nil] at hfind
  simp [memoryStoreAcknowledge, hfind]

/-- A valid acknowledgement removes the packet it names and lets the first
waiting packet into the window. -/
theorem memoryStoreAcknowledge_valid {window : Nat} {before after : List (QueuedPacket π)}
    {queued : QueuedPacket π} (h : Represents session window (before ++ queued :: after))
    (hreach : before.length < window)
    (hbefore : ∀ other ∈ before, other.2.acknowledgedBy packetId type qos = false)
    (hqueued : queued.2.acknowledgedBy packetId type qos = true) :
    ∃ next, memoryStoreAcknowledge session packetId type qos
        = some ((before ++ queued :: after)[window]?.map Prod.fst, next) ∧
      Represents next window (before ++ after) ∧ StoreFrame session next ∧
      ∀ addr, addr ∉ (before ++ queued :: after).map Prod.fst →
        next.heap addr = session.heap addr := by
  have hinflight := h.inflight
  rw [List.length_append, List.length_cons] at hinflight
  have hfind := @findAcknowledged_some _ session packetId type qos [] before after queued
    session.inflightPackets.toNat h.linked (by omega) hbefore hqueued
  obtain ⟨removed, hremove, hlinked, htail, hpending, htotal, hcount, hwindow, hframe, hheap⟩ :=
    removeAcknowledged_eq h qos
  have hnodup : ((before ++ after).map Prod.fst).Nodup :=
    h.nodup.sublist (((List.sublist_cons_self queued after).append_left before).map _)
  have hsize : removed.messageStore.totalSize = UInt16.ofNat (before ++ after).length := by
    have hlength : (before ++ queued :: after).length = (before ++ after).length + 1 := by
      simp [Nat.add_assoc]
    rw [htotal, h.totalSize, hlength, UInt16.ofNat_add]
    exact UInt16.add_sub_cancel _ _
  have hcountNat : removed.inflightPackets.toNat + 1 = session.inflightPackets.toNat := by
    have hle : (1 : UInt8) ≤ session.inflightPackets := by
      rw [UInt8.le_iff_toNat_le]
      simp only [UInt8.toNat_one]
      omega
    rw [hcount, UInt8.toNat_sub_of_le _ _ hle]
    simp only [UInt8.toNat_one]
    omega
  have hshift := WindowedFifo.getElem?_window_remove queued after hreach
  have hwindowSize : removed.inflightWindowSize.toNat = window := by
    rw [hwindow, h.windowSize]
  have hack : memoryStoreAcknowledge session packetId type qos = releasePending removed := by
    rw [Link.after_nil, List.nil_append] at hfind
    simp [memoryStoreAcknowledge, hfind, hremove]
  rw [hack, hshift]
  rw [h.pending, hshift] at hpending
  cases hwaiting : (before ++ after)[window - 1]? with
  | none =>
      rw [hwaiting] at hpending
      have hshort : (before ++ after).length ≤ window - 1 := List.getElem?_eq_none_iff.mp hwaiting
      rw [List.length_append] at hshort
      refine ⟨removed, by simp [releasePending, hpending],
        ⟨hlinked, hnodup, htail, hwindowSize, ?_, ?_, hsize⟩, hframe, hheap⟩
      · rw [List.length_append]
        omega
      · rw [hpending, List.getElem?_eq_none (by rw [List.length_append]; omega)]
  | some first =>
      rw [hwaiting] at hpending
      have hlong : window - 1 < (before ++ after).length := (List.getElem?_eq_some_iff.mp hwaiting).1
      rw [List.length_append] at hlong
      have hcell := segment_getElem hlinked hwaiting
      have hnext : window - 1 + 1 = window := by omega
      rw [hnext] at hcell
      have hbound := h.window_lt
      refine ⟨{ removed with
        messageStore := { removed.messageStore with
          pendingPointer := (before ++ after)[window]?.map Prod.fst }
        inflightPackets := removed.inflightPackets + 1 },
        by simp [releasePending, hpending, hcell],
        ⟨hlinked, hnodup, htail, hwindowSize, ?_, rfl, hsize⟩,
        ⟨hframe.onPublishFinish, hframe.nextPacketId, hframe.qos2PacketIds, hframe.sent,
          hframe.delivered⟩, hheap⟩
      rw [UInt8.toNat_add, UInt8.toNat_one, List.length_append]
      omega

end Acknowledge
end TinyMqtt
