import TinyMqtt.Lib.SameElements
import TinyMqtt.Store.MongodbOrder

/-!
Whole runs of a MongoDB store: any sequence of stores, acknowledgements, tasks
and receipts on a new session. A run keeps the packets that were stored and not
acknowledged yet, to be compared with the packets in the store.
-/

namespace TinyMqtt

open LinkedList

variable {π : Type}

/-- The packet that an acknowledgement removes from the sending queue. -/
def acknowledgedPacket (session : Session π) (packetId : UInt16) (type : PacketType) (qos : Int) :
    Option (StoredPacket π) := do
  let p ← (← findAcknowledged session packetId type qos .head session.inflightPackets.toNat)
  let addr ← (← readLink session.heap session.messageStore.sendingQueueHead p)
  let cell ← session.heap addr
  some cell.value

theorem acknowledgedPacket_invalid {session : Session π} {window : Nat}
    {queue : List (QueuedPacket π)} (h : Linked session window queue) {packetId : UInt16}
    {type : PacketType} {qos : Int}
    (hnone : ∀ queued ∈ queue.take window, queued.2.acknowledgedBy packetId type qos = false) :
    acknowledgedPacket session packetId type qos = none := by
  simp [acknowledgedPacket, h.findAcknowledged_invalid hnone]

theorem acknowledgedPacket_valid {session : Session π} {window : Nat}
    {before after : List (QueuedPacket π)} {queued : QueuedPacket π}
    (h : Linked session window (before ++ queued :: after)) (hreach : before.length < window)
    {packetId : UInt16} {type : PacketType} {qos : Int}
    (hbefore : ∀ other ∈ before, other.2.acknowledgedBy packetId type qos = false)
    (hqueued : queued.2.acknowledgedBy packetId type qos = true) :
    acknowledgedPacket session packetId type qos = some queued.2 := by
  have hinflight : session.inflightPackets.toNat = min window (before ++ queued :: after).length :=
    h.inflight
  rw [List.length_append, List.length_cons] at hinflight
  have hfind := @findAcknowledged_some _ session packetId type qos [] before after queued
    session.inflightPackets.toNat h.linked (by omega) hbefore hqueued
  rw [Link.after_nil, List.nil_append] at hfind
  obtain ⟨middle, hfirst, rfl, next, hcell, -⟩ := segment_append.mp h.linked
  have hread : readLink session.heap session.messageStore.sendingQueueHead
      (Link.head.after before) = some (some queued.1) := readLink_after hfirst
  have hheap : session.heap queued.1 = some ⟨next, queued.2⟩ := hcell
  simp [acknowledgedPacket, hfind, hread, hheap]

variable [TmqString π]

/-- A session with a MongoDB store, and the packets stored and not acknowledged
yet, in the order in which they were stored. -/
structure MongodbRun (π : Type) where
  session : MongodbSession π
  unacknowledged : List (StoredPacket π)

namespace MongodbRun

def new (onPublishFinish : Bool) (nextPacketId : UInt16) (maxInflight : UInt8) (trigger : UInt16) :
    MongodbRun π :=
  ⟨.new onPublishFinish nextPacketId maxInflight trigger, []⟩

def unacknowledgedAfter [DecidableEq π] (run : MongodbRun π) :
    MongodbCall π → List (StoredPacket π)
  | .storePublish _ pkt => run.unacknowledged ++ [⟨pkt.1.packetId, .publish pkt⟩]
  | .storePubrel _ packetId => run.unacknowledged ++ [⟨packetId, .pubrel packetId⟩]
  | .acknowledge packetId type qos =>
      match acknowledgedPacket run.session.session packetId type qos with
      | none => run.unacknowledged
      | some stored => run.unacknowledged.erase stored
  | .progress _ _ => run.unacknowledged

def step [DecidableEq π] (run : MongodbRun π) (call : MongodbCall π) : Option (MongodbRun π) := do
  let session ← run.session.step call
  some ⟨session, run.unacknowledgedAfter call⟩

theorem step_session [DecidableEq π] (run : MongodbRun π) (call : MongodbCall π) :
    (run.step call).map MongodbRun.session = run.session.step call := by
  rw [step]
  cases run.session.step call <;> rfl

end MongodbRun

namespace MongodbSession

/-- `malloc` returns memory that is not in use, and only a task that is there
goes on. -/
def Allocates (s : MongodbSession π) : MongodbCall π → Prop
  | .storePublish malloc _ | .storePubrel malloc _ => s.session.heap malloc = none
  | .acknowledge _ _ _ => True
  | .progress index malloc => index < s.tasks.length ∧
      ∀ limit, s.tasks[index]? = some (.fetchMessages limit) →
        Function.Injective malloc ∧ ∀ i, s.session.heap (malloc i) = none

/-- A fetched batch, or the buffer queue after an empty one, does not take the
place of packets in the sending queue, and the 16-bit counter of the packets
does not overflow. -/
def Spares (s : MongodbSession π) : MongodbCall π → Prop
  | .storePublish _ _ | .storePubrel _ _ => s.session.messageStore.totalSize ≠ 65535
  | .acknowledge _ _ _ => True
  | .progress index _ => ∀ nMessages head tail,
      s.tasks[index]? = some (.fetchReceipt nMessages head tail) →
        (s.session.messageStore.sendingQueueHead = none ∨
          (nMessages = 0 ∧ s.store.bufferSize = 0)) ∧
        s.session.messageStore.totalSize.toNat + nMessages ≤ 65535

end MongodbSession

/-! ### Each call -/

namespace StoreHolds

variable {s : MongodbSession π} {m : MongodbQueues π}

theorem room (h : StoreHolds s m) (hspares : s.session.messageStore.totalSize ≠ 65535) :
    m.total + 1 < 65536 := by
  have hfits := h.fits
  have hne : s.session.messageStore.totalSize.toNat ≠ 65535 := by
    intro hsame
    exact hspares (UInt16.toNat_inj.mp hsame)
  rw [h.toNat_totalSize] at hne
  omega

theorem sendingQueueHead_eq_none (h : StoreHolds s m) :
    s.session.messageStore.sendingQueueHead = none ↔ m.sending = [] := by
  have hstart : s.session.messageStore.sendingQueueHead = m.sending[0]?.map Prod.fst :=
    segment_start h.sending.linked
  rw [hstart]
  cases m.sending <;> simp

theorem bufferQueueHead_eq_none (h : StoreHolds s m) :
    s.store.bufferQueueHead = none ↔ m.buffer = [] := by
  rw [segment_start h.buffer]
  cases m.buffer <;> simp [cells]

/-- A fetched batch meets an empty sending queue, or there is nothing to put in
its place. -/
theorem place (h : StoreHolds s m) {index : Nat} {malloc : Nat → Addr}
    (hindex : index < s.tasks.length) (hspares : s.Spares (.progress index malloc))
    {messages : List (Addr × TimedPkt π)} (htask : m.task = .fetched messages) :
    (m.sending = [] ∨ (messages = [] ∧ m.buffer = [])) ∧ m.total + messages.length < 65536 := by
  have hholds := h.task
  rw [htask] at hholds
  obtain ⟨head, htasks, -⟩ := hholds
  obtain rfl : index = 0 := by simpa [htasks] using hindex
  obtain ⟨hplace, hfits⟩ := hspares _ _ _ (by rw [htasks]; rfl)
  rw [h.toNat_totalSize] at hfits
  refine ⟨?_, by omega⟩
  rcases hplace with hempty | ⟨hmessages, hbuffer⟩
  · exact .inl (h.sendingQueueHead_eq_none.mp hempty)
  · have hlength : m.buffer.length = 0 := by
      rw [← h.toNat_bufferSize, hbuffer]
      rfl
    exact .inr ⟨List.length_eq_zero_iff.mp hmessages, List.length_eq_zero_iff.mp hlength⟩

theorem progress (h : StoreHolds s m) (hordered : m.Ordered) {index : Nat} {malloc : Nat → Addr}
    (hallocates : s.Allocates (.progress index malloc))
    (hspares : s.Spares (.progress index malloc)) :
    ∃ next, s.step (.progress index malloc) = some next ∧ StoreHolds next (m.progress malloc) := by
  obtain ⟨hindex, hfetches⟩ := hallocates
  have hholds := h.task
  cases htask : m.task with
  | none =>
      rw [htask] at hholds
      rw [show s.tasks = [] from hholds] at hindex
      cases hindex
  | storing batch => exact h.progress_storing htask hindex malloc
  | stored =>
      rw [htask] at hholds
      have htasks : s.tasks = [.storeReceipt] := hholds
      obtain rfl : index = 0 := by simpa [htasks] using hindex
      refine ⟨{ s with tasks := [] }.storeMessageDone, ?_, ?_⟩
      · simp only [MongodbSession.step, htasks, MongodbSession.progress, List.getElem?_cons_zero,
          List.eraseIdx_cons_zero, Option.bind_eq_bind, Option.bind_some]
      · rw [MongodbQueues.progress, htask]
        exact h.storeMessageDone
  | fetching =>
      rw [htask] at hholds
      have htasks : s.tasks = [.fetchMessages 50] := hholds
      obtain rfl : index = 0 := by simpa [htasks] using hindex
      obtain ⟨hmalloc, hfree⟩ := hfetches 50 (by rw [htasks]; rfl)
      have hdocuments : m.documents.Pairwise
          fun first second => first.timestamp ≤ second.timestamp := by
        have hascending := hordered.ascending
        unfold MongodbQueues.later at hascending
        exact (List.pairwise_append.mp hascending).1.imp Nat.le_of_lt
      exact h.progress_fetching htask hindex hmalloc hfree hdocuments
  | fetched messages =>
      obtain ⟨hplace, hfits⟩ := h.place hindex hspares htask
      rw [htask] at hholds
      obtain ⟨head, htasks, hseg⟩ := hholds
      obtain rfl : index = 0 := by simpa [htasks] using hindex
      obtain ⟨next, hdone, hnext⟩ := h.fetchMessageDone htask hseg hplace hfits
      refine ⟨next, ?_, ?_⟩
      · simp only [MongodbSession.step, htasks, MongodbSession.progress, List.getElem?_cons_zero,
          List.eraseIdx_cons_zero, Option.bind_eq_bind, Option.bind_some]
        exact hdone
      · rw [MongodbQueues.progress, htask]
        exact hnext

/-- Every call has a result, and the lists follow it. -/
theorem step (h : StoreHolds s m) (hordered : m.Ordered) {call : MongodbCall π}
    (hallocates : s.Allocates call) (hspares : s.Spares call) :
    ∃ next, s.step call = some next ∧ StoreHolds next (m.step call) := by
  cases call with
  | storePublish malloc pkt => exact h.storePublish hallocates (h.room hspares) pkt hordered.idle
  | storePubrel malloc packetId => exact h.storePubrel hallocates (h.room hspares) packetId
  | acknowledge packetId type qos =>
      exact h.acknowledge packetId type qos hordered.idle hordered.buffered
  | progress index malloc => exact h.progress hordered hallocates hspares

end StoreHolds

/-- A PUBLISH packet, whose place in the order matters. -/
def StoredPacket.isPublish (stored : StoredPacket π) : Bool :=
  stored.packet.packetType = .publish

/-- The run, the lists that it holds, and what they say about each other. -/
structure Accounts (run : MongodbRun π) (m : MongodbQueues π) : Prop where
  holds : StoreHolds run.session m
  ordered : m.Ordered
  contents : SameElements StoredPacket.isPublish m.contents run.unacknowledged

namespace Accounts

variable [DecidableEq π] {run : MongodbRun π} {m : MongodbQueues π}

theorem storePublish (h : Accounts run m) (malloc : Addr) (pkt : CopiedPkt π) :
    SameElements StoredPacket.isPublish (m.storePublish malloc pkt).contents
      (run.unacknowledgedAfter (.storePublish malloc pkt)) := by
  have happend : (m.storePublish malloc pkt).contents
      = m.contents ++ [⟨pkt.1.packetId, .publish pkt⟩] := by
    unfold MongodbQueues.storePublish
    split
    · -- nothing is buffered, so that the sending queue is all there is
      rename_i hdirect
      obtain ⟨hbuffer, hstored⟩ := h.ordered.unbuffered hdirect.2
      obtain ⟨hdocuments, hbatch, hmessages⟩ := h.ordered.elsewhere hstored
      simp [MongodbQueues.contents, MongodbQueues.later, MongodbQueues.send, hbuffer, hdocuments,
        hbatch, hmessages]
    · rw [MongodbQueues.contents_startIfFull (h.ordered.keep malloc pkt)]
      simp [MongodbQueues.contents, MongodbQueues.later, MongodbQueues.keep, TimedPkt.stored]
  rw [happend]
  exact h.contents.append _

theorem storePubrel (h : Accounts run m) (malloc : Addr) (packetId : UInt16) :
    SameElements StoredPacket.isPublish (m.send malloc ⟨packetId, .pubrel packetId⟩).contents
      (run.unacknowledgedAfter (.storePubrel malloc packetId)) := by
  have hinsert := h.contents
  unfold MongodbQueues.contents at hinsert
  have hcontents : (m.send malloc ⟨packetId, .pubrel packetId⟩).contents
      = m.sending.map Prod.snd ++ ⟨packetId, .pubrel packetId⟩ ::
        (m.task.messages.map (TimedPkt.stored ∘ Prod.snd) ++ m.later.map TimedPkt.stored) := by
    simp [MongodbQueues.contents, MongodbQueues.later, MongodbQueues.send]
  rw [hcontents]
  exact hinsert.insert rfl

theorem acknowledge (h : Accounts run m) (packetId : UInt16) (type : PacketType) (qos : Int) :
    SameElements StoredPacket.isPublish (m.remove packetId type qos).refill.contents
      (run.unacknowledgedAfter (.acknowledge packetId type qos)) := by
  have hordered : (m.remove packetId type qos).Ordered := h.ordered.setSending _
  rw [MongodbQueues.contents_refill hordered, MongodbRun.unacknowledgedAfter]
  have hcontents := h.contents
  unfold MongodbQueues.remove
  dsimp only
  cases hany : WindowedFifo.inflight ⟨m.window, m.sending, [], []⟩ |>.any
      fun queued => queued.2.acknowledgedBy packetId type qos with
  | false =>
      have hnone : acknowledgedPacket run.session.session packetId type qos = none := by
        refine acknowledgedPacket_invalid h.holds.sending ?_
        intro queued hmem
        simpa using List.any_eq_false.mp hany queued hmem
      rw [WindowedFifo.acknowledge_of_none hany, hnone]
      exact hcontents
  | true =>
      obtain ⟨before, queued, after, hqueue, hlength, hbefore, hqueued, -⟩ :=
        WindowedFifo.exists_acked hany
      rw [WindowedFifo.acknowledge_of_acked hqueue hlength hbefore hqueued]
      dsimp only at hqueue hlength ⊢
      have hlinked := h.holds.sending
      rw [hqueue] at hlinked
      rw [acknowledgedPacket_valid hlinked hlength hbefore hqueued]
      have hfirst : queued.2 ∉ before.map Prod.snd := by
        intro hmem
        obtain ⟨other, hother, hsame⟩ := List.mem_map.mp hmem
        have hother := hbefore other hother
        rw [hsame, hqueued] at hother
        cases hother
      simp only [MongodbQueues.contents, hqueue, List.map_append, List.map_cons, List.append_assoc,
        List.cons_append] at hcontents
      simp only [MongodbQueues.contents, List.map_append, List.append_assoc]
      exact hcontents.erase hfirst

theorem step (h : Accounts run m) {call : MongodbCall π} (hallocates : run.session.Allocates call)
    (hspares : run.session.Spares call) :
    ∃ next, run.step call = some next ∧ Accounts next (m.step call) := by
  obtain ⟨session, hstep, hholds⟩ := h.holds.step h.ordered hallocates hspares
  refine ⟨⟨session, run.unacknowledgedAfter call⟩, by simp [MongodbRun.step, hstep], hholds,
    h.ordered.step call, ?_⟩
  cases call with
  | storePublish malloc pkt => exact h.storePublish malloc pkt
  | storePubrel malloc packetId => exact h.storePubrel malloc packetId
  | acknowledge packetId type qos => exact h.acknowledge packetId type qos
  | progress index malloc =>
      change SameElements _ (m.progress malloc).contents run.unacknowledged
      rw [MongodbQueues.contents_progress h.ordered malloc
        fun messages htask => (h.holds.place hallocates.1 hspares htask).1]
      exact h.contents

end Accounts

/-! ### Whole runs -/

/-- The packets that the tasks hold, read off the heap. -/
def TaskPlaces (heap : Heap (StoredPacket π)) (fetched batch : List (QueuedPacket π)) :
    List DbTask → Prop
  | [] | [.storeReceipt] | [.fetchMessages _] => fetched = [] ∧ batch = []
  | [.storeMessages packets nPackets] =>
      fetched = [] ∧ Segment heap packets batch none ∧ nPackets = batch.length
  | [.fetchReceipt nMessages messagesHead _] =>
      batch = [] ∧ Segment heap messagesHead fetched none ∧ nMessages = fetched.length
  | _ :: _ :: _ => False

/-- The packets in memory, place by place, read off the heap. -/
structure StorePlaces (s : MongodbSession π) (sending fetched batch buffer : List (QueuedPacket π)) :
    Prop where
  sending : Segment s.session.heap s.session.messageStore.sendingQueueHead sending none
  tasks : TaskPlaces s.session.heap fetched batch s.tasks
  buffer : Segment s.session.heap s.store.bufferQueueHead buffer none

/-- The places together hold the packets stored and not acknowledged yet, each
once and the PUBLISH packets in order, and the total size is right. -/
def KeepsPackets (run : MongodbRun π) : Prop :=
  ∃ sending fetched batch buffer, StorePlaces run.session sending fetched batch buffer ∧
    SameElements StoredPacket.isPublish
      (sending.map Prod.snd ++ fetched.map Prod.snd ++ run.session.documents.map Document.toPacket ++
        batch.map Prod.snd ++ buffer.map Prod.snd) run.unacknowledged ∧
    run.session.session.messageStore.totalSize.toNat
      = sending.length + run.session.store.bufferSize.toNat

theorem StoreHolds.taskPlaces {s : MongodbSession π} {m : MongodbQueues π} (h : StoreHolds s m) :
    TaskPlaces s.session.heap (cells m.task.messages) (cells m.task.batch) s.tasks := by
  have hholds := h.task
  cases htask : m.task with
  | none =>
      rw [htask] at hholds
      rw [show s.tasks = [] from hholds]
      exact ⟨rfl, rfl⟩
  | storing batch =>
      rw [htask] at hholds
      obtain ⟨packets, htasks, hseg⟩ := hholds
      rw [htasks]
      exact ⟨rfl, hseg, (length_cells batch).symm⟩
  | stored =>
      rw [htask] at hholds
      rw [show s.tasks = [.storeReceipt] from hholds]
      exact ⟨rfl, rfl⟩
  | fetching =>
      rw [htask] at hholds
      rw [show s.tasks = [.fetchMessages 50] from hholds]
      exact ⟨rfl, rfl⟩
  | fetched messages =>
      rw [htask] at hholds
      obtain ⟨head, htasks, hseg⟩ := hholds
      rw [htasks]
      exact ⟨rfl, hseg, (length_cells messages).symm⟩

theorem Accounts.keepsPackets {run : MongodbRun π} {m : MongodbQueues π} (h : Accounts run m) :
    KeepsPackets run := by
  refine ⟨m.sending, cells m.task.messages, cells m.task.batch, cells m.buffer,
    ⟨h.holds.sending.linked, h.holds.taskPlaces, h.holds.buffer⟩, ?_, ?_⟩
  · have hdocuments : run.session.documents.map Document.toPacket
        = m.documents.map TimedPkt.stored := by
      rw [h.holds.documents, List.map_map]
      exact List.map_congr_left fun timed _ => timed.toPacket_document
    have hcontents := h.contents
    simp only [MongodbQueues.contents, MongodbQueues.later, List.map_append, List.map_map]
      at hcontents
    rw [hdocuments]
    simp only [MongodbQueues.map_snd_cells, List.append_assoc]
    exact hcontents
  · rw [h.holds.toNat_totalSize, h.holds.toNat_bufferSize, MongodbQueues.total]

/-- A run in which no fetched batch takes the place of packets and no counter
overflows keeps all its packets, in order. -/
theorem keepsPackets_of_runs [DecidableEq π] (onPublishFinish : Bool) (nextPacketId : UInt16)
    (maxInflight : UInt8) (trigger : UInt16) (calls : List (MongodbCall π))
    (hcalls : Run.Admissible
      (fun run call => run.session.Allocates call ∧ run.session.Spares call) MongodbRun.step
      (.new onPublishFinish nextPacketId maxInflight trigger) calls) :
    ∃ run, Run.runs MongodbRun.step (.new onPublishFinish nextPacketId maxInflight trigger) calls
        = some run ∧ KeepsPackets run := by
  have hnew : Accounts (.new onPublishFinish nextPacketId maxInflight trigger : MongodbRun π)
      (.empty maxInflight.toNat trigger) :=
    ⟨holds_new onPublishFinish nextPacketId maxInflight trigger,
      MongodbQueues.ordered_empty maxInflight.toNat trigger, List.Perm.refl _, rfl⟩
  obtain ⟨run, hrun, hfinal⟩ := Run.runs_simulates
    (fun run m call h hcall => h.step hcall.1 hcall.2) hnew hcalls
  exact ⟨run, hrun, hfinal.keepsPackets⟩

/-- A PUBLISH packet with QoS 2 and this identifier. -/
def exactlyOncePkt (packetId : UInt16) : CopiedPkt Bytes := ⟨⟨4, [97], packetId, [112]⟩, rfl⟩

/-- The second packet goes to the database; the acknowledgement of the first
starts the task that fetches it. -/
def fetchCalls : List (MongodbCall Bytes) :=
  [.storePublish 1 (exactlyOncePkt 1), .storePublish 2 (exactlyOncePkt 2), .progress 0 (· + 10),
    .progress 0 (· + 10), .acknowledge 1 .publish 2]

/-- The only task may go on, a task that stores and a receipt of one without
more. -/
theorem allowed_progress {s : MongodbSession π} {task : DbTask} (htasks : s.tasks = [task])
    (hstores : task = .storeReceipt ∨ ∃ packets nPackets, task = .storeMessages packets nPackets)
    (malloc : Nat → Addr) : s.Allocates (.progress 0 malloc) ∧ s.Spares (.progress 0 malloc) := by
  have hget : s.tasks[0]? = some task := by rw [htasks]; rfl
  refine ⟨⟨by simp [htasks], ?_⟩, ?_⟩
  · intro limit hfetch
    rw [hget] at hfetch
    rcases hstores with rfl | ⟨packets, nPackets, rfl⟩ <;> cases hfetch
  · intro nMessages head tail hreceipt
    rw [hget] at hreceipt
    rcases hstores with rfl | ⟨packets, nPackets, rfl⟩ <;> cases hreceipt

theorem allowed_fetch {s : MongodbSession π} {limit : Nat} (htasks : s.tasks = [.fetchMessages limit])
    {malloc : Nat → Addr} (hinj : Function.Injective malloc)
    (hfree : ∀ i, s.session.heap (malloc i) = none) :
    s.Allocates (.progress 0 malloc) ∧ s.Spares (.progress 0 malloc) := by
  refine ⟨⟨by simp [htasks], fun _ _ => ⟨hinj, hfree⟩⟩, ?_⟩
  intro nMessages head tail hreceipt
  rw [htasks] at hreceipt
  cases hreceipt

/-- The receipt of a fetch meets an empty sending queue. -/
theorem allowed_fetchReceipt {s : MongodbSession π} {n : Nat} {head tail : Option Addr}
    (htasks : s.tasks = [.fetchReceipt n head tail])
    (hempty : s.session.messageStore.sendingQueueHead = none)
    (hsize : s.session.messageStore.totalSize.toNat + n ≤ 65535) (malloc : Nat → Addr) :
    s.Allocates (.progress 0 malloc) ∧ s.Spares (.progress 0 malloc) := by
  refine ⟨⟨by simp [htasks], ?_⟩, ?_⟩
  · intro limit hfetch
    rw [htasks] at hfetch
    cases hfetch
  · intro nMessages head' tail' hreceipt
    rw [htasks] at hreceipt
    obtain ⟨rfl, -, -⟩ := DbTask.fetchReceipt.inj (Option.some.inj hreceipt)
    exact ⟨.inl hempty, hsize⟩

theorem admissible_fetchCalls :
    Run.Admissible (fun s call => s.Allocates call ∧ s.Spares call) MongodbSession.step
      (.new false 1 4 2) fetchCalls := by
  have hfirst : Run.Admissible (fun s call => s.Allocates call ∧ s.Spares call)
      MongodbSession.step (.new false 1 4 2) (fetchCalls.take 1) :=
    ⟨⟨rfl, show (0 : UInt16) ≠ 65535 by decide⟩, trivial⟩
  have hsecond := @Run.admissible_concat _ _ _ _ _ _ (fetchCalls.get ⟨1, by decide⟩) hfirst (by
    intro s hrun
    have hfree : s.session.heap 2 = none :=
      @Run.observe_eq _ _ _ _ _ _ _ hrun (fun s => s.session.heap 2) _ rfl
    have hsize : s.session.messageStore.totalSize = 1 :=
      @Run.observe_eq _ _ _ _ _ _ _ hrun (fun s => s.session.messageStore.totalSize) _ rfl
    exact ⟨hfree, show s.session.messageStore.totalSize ≠ 65535 by rw [hsize]; decide⟩)
  have hstored := @Run.admissible_concat _ _ _ _ _ _ (fetchCalls.get ⟨2, by decide⟩) hsecond (by
    intro s hrun
    have htasks : s.tasks = [.storeMessages (some 2) 1] :=
      @Run.observe_eq _ _ _ _ _ _ _ hrun MongodbSession.tasks _ rfl
    exact allowed_progress htasks (.inr ⟨_, _, rfl⟩) _)
  have hreceived := @Run.admissible_concat _ _ _ _ _ _ (fetchCalls.get ⟨3, by decide⟩) hstored (by
    intro s hrun
    have htasks : s.tasks = [.storeReceipt] :=
      @Run.observe_eq _ _ _ _ _ _ _ hrun MongodbSession.tasks _ rfl
    exact allowed_progress htasks (.inl rfl) _)
  exact Run.admissible_concat hreceived fun _ _ => ⟨trivial, trivial⟩

/-- The calls that a session allows are allowed in every run of it. -/
theorem admissible_run {calls : List (MongodbCall Bytes)} {run : MongodbRun Bytes}
    (hcalls : Run.Admissible (fun s call => s.Allocates call ∧ s.Spares call) MongodbSession.step
      run.session calls) :
    Run.Admissible (fun run call => run.session.Allocates call ∧ run.session.Spares call)
      MongodbRun.step run calls :=
  @Run.admissible_of_part _ _ _ MongodbRun.session _ _ MongodbRun.step_session
    (fun s call => s.Allocates call ∧ s.Spares call) _ _ hcalls

def receiveCalls : List (MongodbCall Bytes) := [.progress 0 (· + 10), .progress 0 (· + 10)]

/-- The fetched packet comes back into the sending queue. -/
theorem admissible_fetched :
    Run.Admissible (fun s call => s.Allocates call ∧ s.Spares call) MongodbSession.step
      (.new false 1 4 2) (fetchCalls ++ receiveCalls) := by
  have hfetched := @Run.admissible_concat _ _ _ _ _ _ (receiveCalls.get ⟨0, by decide⟩)
    admissible_fetchCalls (by
      intro s hrun
      have htasks : s.tasks = [.fetchMessages 50] :=
        @Run.observe_eq _ _ _ _ _ _ _ hrun MongodbSession.tasks _ rfl
      refine allowed_fetch htasks (add_left_injective 10) ?_
      intro i
      exact @Run.observe_eq _ _ _ _ _ _ _ hrun (fun s => s.session.heap (i + 10)) _ rfl)
  exact @Run.admissible_concat _ _ _ _ _ _ (receiveCalls.get ⟨1, by decide⟩) hfetched (by
    intro s hrun
    have htasks : s.tasks = [.fetchReceipt 1 (some 10) (some 10)] :=
      @Run.observe_eq _ _ _ _ _ _ _ hrun MongodbSession.tasks _ rfl
    have hempty : s.session.messageStore.sendingQueueHead = none :=
      @Run.observe_eq _ _ _ _ _ _ _ hrun (fun s => s.session.messageStore.sendingQueueHead) _ rfl
    have hsize : s.session.messageStore.totalSize = 0 :=
      @Run.observe_eq _ _ _ _ _ _ _ hrun (fun s => s.session.messageStore.totalSize) _ rfl
    exact allowed_fetchReceipt htasks hempty (by rw [hsize]; decide) _)

/-- The packet that went to the database and came back is in the store. -/
theorem keepsPackets_fetched :
    ∃ run, Run.runs MongodbRun.step (.new false 1 4 2) (fetchCalls ++ receiveCalls) = some run ∧
      run.unacknowledged = [⟨2, .publish (exactlyOncePkt 2)⟩] ∧
      run.session.session.messageStore.sendingQueueHead = some 10 ∧ KeepsPackets run := by
  obtain ⟨run, hrun, hkeeps⟩ := keepsPackets_of_runs false 1 4 2 (fetchCalls ++ receiveCalls)
    (admissible_run admissible_fetched)
  exact ⟨run, hrun, Run.observe_eq hrun rfl,
    Run.observe_eq hrun (f := fun run => run.session.session.messageStore.sendingQueueHead) rfl,
    hkeeps⟩

/-- The PUBREL that follows the acknowledgement of the first packet, while the
second is being fetched. -/
def pubrelCalls : List (MongodbCall Bytes) :=
  [.storePubrel 3 1, .progress 0 (· + 10), .progress 0 (· + 10)]

theorem allocates_pubrelCalls :
    Run.Admissible (fun run call => run.session.Allocates call) MongodbRun.step
      (.new false 1 4 2) (fetchCalls ++ pubrelCalls) := by
  have hfetch := Run.Admissible.imp (fun run call (h : _ ∧ _) => h.1)
    (@admissible_run _ (.new false 1 4 2) admissible_fetchCalls)
  have hpubrel := @Run.admissible_concat _ _ _ _ _ _ (pubrelCalls.get ⟨0, by decide⟩) hfetch (by
    intro run hrun
    exact @Run.observe_eq _ _ _ _ _ _ _ hrun (fun run => run.session.session.heap 3) _ rfl)
  have hfetched := @Run.admissible_concat _ _ _ _ _ _ (pubrelCalls.get ⟨1, by decide⟩) hpubrel (by
    intro run hrun
    have htasks : run.session.tasks = [.fetchMessages 50] :=
      @Run.observe_eq _ _ _ _ _ _ _ hrun (fun run => run.session.tasks) _ rfl
    refine ⟨by simp [htasks], fun limit _ => ⟨add_left_injective 10, ?_⟩⟩
    intro i
    exact @Run.observe_eq _ _ _ _ _ _ _ hrun (fun run => run.session.session.heap (i + 10)) _ rfl)
  have hreceived := @Run.admissible_concat _ _ _ _ _ _ (pubrelCalls.get ⟨2, by decide⟩) hfetched (by
    intro run hrun
    have htasks : run.session.tasks = [.fetchReceipt 1 (some 10) (some 10)] :=
      @Run.observe_eq _ _ _ _ _ _ _ hrun (fun run => run.session.tasks) _ rfl
    refine ⟨by simp [htasks], ?_⟩
    intro limit hlimit
    rw [htasks] at hlimit
    cases hlimit)
  exact hreceived

/-- The PUBREL is lost when the fetched packet takes its place. -/
theorem not_keepsPackets_pubrel :
    Run.Admissible (fun run call => run.session.Allocates call) MongodbRun.step
        (.new false 1 4 2) (fetchCalls ++ pubrelCalls) ∧
      ¬ ∀ run, Run.runs MongodbRun.step (.new false 1 4 2) (fetchCalls ++ pubrelCalls) = some run →
        KeepsPackets run := by
  refine ⟨allocates_pubrelCalls, ?_⟩
  intro hall
  obtain ⟨sending, fetched, batch, buffer, hplaces, hsame, -⟩ := hall _ rfl
  have hsending : sending = [(10, ⟨2, .publish (exactlyOncePkt 2)⟩)] :=
    segment_unique hplaces.sending ⟨rfl, none, rfl, rfl⟩
  have hbuffer : buffer = [] := segment_unique hplaces.buffer rfl
  obtain ⟨hfetched, hbatch⟩ : fetched = [] ∧ batch = [] := hplaces.tasks
  have hlength := hsame.perm.length_eq
  rw [hsending, hbuffer, hfetched, hbatch] at hlength
  revert hlength
  decide

/-- With no task under way and an empty sending queue there is nothing left
elsewhere. -/
def NeverStrands (s : MongodbSession π) : Prop :=
  s.tasks = [] → s.session.messageStore.sendingQueueHead = none →
    s.store.bufferQueueHead = none ∧ s.documents = []

theorem StoreHolds.neverStrands {s : MongodbSession π} {m : MongodbQueues π} (h : StoreHolds s m)
    (hordered : m.Ordered) (hlive : m.Live) : NeverStrands s := by
  intro htasks hempty
  have htask : m.task = .none := by
    have hholds := h.task
    cases hkind : m.task with
    | none => rfl
    | _ =>
        rw [hkind, htasks] at hholds
        simp [TaskHolds] at hholds
  have hunbuffered := hlive.idle htask (h.sendingQueueHead_eq_none.mp hempty)
  obtain ⟨hbuffer, hstored⟩ := hordered.unbuffered hunbuffered
  refine ⟨h.bufferQueueHead_eq_none.mpr hbuffer, ?_⟩
  rw [h.documents, (hordered.unstored hstored).1]
  rfl

/-- Under the same condition, and with a trigger that leaves room for a packet
in the sending queue, no packet is left where nobody moves it. -/
theorem neverStrands_of_runs (onPublishFinish : Bool) (nextPacketId : UInt16) (maxInflight : UInt8)
    (trigger : UInt16) (htrigger : 2 ≤ trigger) (calls : List (MongodbCall π))
    (hcalls : Run.Admissible (fun s call => s.Allocates call ∧ s.Spares call) MongodbSession.step
      (.new onPublishFinish nextPacketId maxInflight trigger) calls) :
    ∃ s, Run.runs MongodbSession.step (.new onPublishFinish nextPacketId maxInflight trigger) calls
        = some s ∧ NeverStrands s := by
  have htwo : 2 ≤ trigger.toNat := UInt16.le_iff_toNat_le.mp htrigger
  obtain ⟨s, hrun, hholds, hordered, hlive, -⟩ := @Run.runs_simulates _ _ _
    (fun s call => s.Allocates call ∧ s.Spares call) MongodbSession.step MongodbQueues.step
    (fun s m => StoreHolds s m ∧ m.Ordered ∧ m.Live ∧ 2 ≤ m.trigger.toNat)
    (by
      rintro s m call ⟨hholds, hordered, hlive, hroom⟩ ⟨hallocates, hspares⟩
      obtain ⟨next, hstep, hnext⟩ := hholds.step hordered hallocates hspares
      refine ⟨next, hstep, hnext, hordered.step call, hlive.step hordered hroom call, ?_⟩
      rwa [MongodbQueues.trigger_step])
    calls _ _
    ⟨holds_new onPublishFinish nextPacketId maxInflight trigger,
      MongodbQueues.ordered_empty maxInflight.toNat trigger,
      MongodbQueues.live_empty maxInflight.toNat trigger, htwo⟩ hcalls
  exact ⟨s, hrun, hholds.neverStrands hordered hlive⟩

/-- The fetched packet is acknowledged, and the fetch that follows finds
nothing. -/
def drainCalls : List (MongodbCall Bytes) :=
  fetchCalls ++ receiveCalls ++ [.acknowledge 2 .publish 2] ++ receiveCalls

theorem admissible_drainCalls :
    Run.Admissible (fun s call => s.Allocates call ∧ s.Spares call) MongodbSession.step
      (.new false 1 4 2) drainCalls := by
  have hacknowledged := @Run.admissible_concat (MongodbSession Bytes) (MongodbCall Bytes) _ _ _ _
    (.acknowledge 2 .publish 2) admissible_fetched fun _ _ => ⟨trivial, trivial⟩
  have hfetched := @Run.admissible_concat _ _ _ _ _ _ (receiveCalls.get ⟨0, by decide⟩)
    hacknowledged (by
      intro s hrun
      have htasks : s.tasks = [.fetchMessages 50] :=
        @Run.observe_eq _ _ _ _ _ _ _ hrun MongodbSession.tasks _ rfl
      refine allowed_fetch htasks (add_left_injective 10) ?_
      rintro (_ | i)
      · exact @Run.observe_eq _ _ _ _ _ _ _ hrun (fun s => s.session.heap 10) _ rfl
      · exact @Run.observe_eq _ _ _ _ _ _ _ hrun (fun s => s.session.heap (i + 1 + 10)) _ rfl)
  have hreceived := @Run.admissible_concat _ _ _ _ _ _ (receiveCalls.get ⟨1, by decide⟩)
    hfetched (by
      intro s hrun
      have htasks : s.tasks = [.fetchReceipt 0 none none] :=
        @Run.observe_eq _ _ _ _ _ _ _ hrun MongodbSession.tasks _ rfl
      have hempty : s.session.messageStore.sendingQueueHead = none :=
        @Run.observe_eq _ _ _ _ _ _ _ hrun (fun s => s.session.messageStore.sendingQueueHead) _ rfl
      have hsize : s.session.messageStore.totalSize = 0 :=
        @Run.observe_eq _ _ _ _ _ _ _ hrun (fun s => s.session.messageStore.totalSize) _ rfl
      exact allowed_fetchReceipt htasks hempty (by rw [hsize]; decide) _)
  exact hreceived

/-- A packet went through the buffer queue, the database and the sending queue;
when all is acknowledged nothing is left in any of them. -/
theorem neverStrands_drained :
    ∃ s, Run.runs MongodbSession.step (.new false 1 4 2) drainCalls = some s ∧ s.tasks = [] ∧
      s.session.messageStore.sendingQueueHead = none ∧ s.store.bufferQueueHead = none ∧
      s.documents = [] := by
  obtain ⟨s, hrun, hstrands⟩ := neverStrands_of_runs false 1 4 2 (by decide) drainCalls
    admissible_drainCalls
  have htasks : s.tasks = [] := Run.observe_eq hrun (f := MongodbSession.tasks) rfl
  have hempty : s.session.messageStore.sendingQueueHead = none :=
    Run.observe_eq hrun (f := fun s => s.session.messageStore.sendingQueueHead) rfl
  obtain ⟨hbuffer, hdocuments⟩ := hstrands htasks hempty
  exact ⟨s, hrun, htasks, hempty, hbuffer, hdocuments⟩

/-- With a trigger of one the first packet goes to the database, and nothing
ever fetches it. -/
theorem not_neverStrands_small :
    ¬ ∀ s, Run.runs MongodbSession.step (.new false 1 4 1) (fetchCalls.take 1 ++ receiveCalls)
      = some s → NeverStrands s := by
  intro hall
  obtain ⟨-, hdocuments⟩ := hall _ rfl rfl rfl
  cases hdocuments

end TinyMqtt
