import TinyMqtt.Store.Refinement

/-!
Whole runs of the memory store: any sequence of stores and acknowledgements,
valid or not, on a new session. The store is compared with a windowed FIFO
that performs the same calls, and the packets it releases for sending with the
packets it was given.
-/

namespace TinyMqtt

open LinkedList

variable {π : Type}

/-- A call of the store through its two function pointers. The packet to store
is created at the address that `malloc` returns. -/
inductive StoreCall (π : Type) where
  | storeMessage (malloc : Addr) (stored : StoredPacket π)
  | acknowledgeAndNext (packetId : UInt16) (type : PacketType) (qos : Int)
  deriving DecidableEq, Repr

/-- A session under a sequence of store calls, with the packets stored and the
packets released for sending so far. -/
structure StoreRun (π : Type) where
  session : Session π
  inserted : List (QueuedPacket π)
  released : List (QueuedPacket π)

namespace StoreRun

def new (onPublishFinish : Bool) (nextPacketId : UInt16) (window : UInt8) : StoreRun π :=
  ⟨tmqSessionNew onPublishFinish nextPacketId window, [], []⟩

def step (run : StoreRun π) : StoreCall π → Option (StoreRun π)
  | .storeMessage malloc stored => do
      let session := run.session.sendingPacketNew malloc stored.packetId stored.packet
      let (sendNow, session) ← memoryStoreStoreMessage session malloc
      some
        { session := session
          inserted := run.inserted ++ [(malloc, stored)]
          released := if sendNow then run.released ++ [(malloc, stored)] else run.released }
  | .acknowledgeAndNext packetId type qos => do
      let (next, session) ← memoryStoreAcknowledge run.session packetId type qos
      let released ← match next with
        | none => some run.released
        | some addr => do
            let cell ← session.heap addr
            some (run.released ++ [(addr, cell.value)])
      some { run with session := session, released := released }

/-- `malloc` returns memory that is not in use. -/
def Allocates (run : StoreRun π) : StoreCall π → Prop
  | .storeMessage malloc _ => run.session.heap malloc = none
  | .acknowledgeAndNext _ _ _ => True

end StoreRun

/-- The same call on a windowed FIFO. -/
def fifoStep (fifo : WindowedFifo (QueuedPacket π)) : StoreCall π → WindowedFifo (QueuedPacket π)
  | .storeMessage malloc stored => fifo.insert (malloc, stored)
  | .acknowledgeAndNext packetId type qos =>
      fifo.acknowledge (fun queued => queued.2.acknowledgedBy packetId type qos)

/-- The store in the course of its calls is the FIFO under the same calls. -/
structure Simulates (run : StoreRun π) (fifo : WindowedFifo (QueuedPacket π)) : Prop where
  represents : Represents run.session fifo.window fifo.queue
  conserves : fifo.Conserves
  inserted : run.inserted = fifo.inserted
  released : run.released = fifo.released

theorem simulates_storeMessage {run : StoreRun π} {fifo : WindowedFifo (QueuedPacket π)}
    (h : Simulates run fifo) {malloc : Addr} (hfree : run.session.heap malloc = none)
    (stored : StoredPacket π) :
    ∃ next, run.step (.storeMessage malloc stored) = some next ∧
      Simulates next (fifo.insert (malloc, stored)) := by
  obtain ⟨session, hstore, hrepresents, -⟩ :=
    memoryStoreStoreMessage_represents h.represents hfree stored
  refine ⟨⟨session, run.inserted ++ [(malloc, stored)],
    if fifo.queue.length < fifo.window then run.released ++ [(malloc, stored)]
    else run.released⟩, ?_, hrepresents, WindowedFifo.insert_conserves h.conserves _, ?_, ?_⟩
  · simp [StoreRun.step, hstore]
  · simp [WindowedFifo.insert, h.inserted]
  · simp [WindowedFifo.insert, WindowedFifo.hasRoom, h.released]

theorem simulates_acknowledgeAndNext {run : StoreRun π} {fifo : WindowedFifo (QueuedPacket π)}
    (h : Simulates run fifo) (packetId : UInt16) (type : PacketType) (qos : Int) :
    ∃ next, run.step (.acknowledgeAndNext packetId type qos) = some next ∧
      Simulates next (fifo.acknowledge fun queued => queued.2.acknowledgedBy packetId type qos) := by
  have hconserves := WindowedFifo.acknowledge_conserves h.conserves
    (fun queued => queued.2.acknowledgedBy packetId type qos)
  cases hany : fifo.inflight.any (fun queued => queued.2.acknowledgedBy packetId type qos) with
  | false =>
      rw [WindowedFifo.acknowledge_of_none hany]
      have hnone : ∀ queued ∈ fifo.queue.take fifo.window,
          queued.2.acknowledgedBy packetId type qos = false := by
        simpa [WindowedFifo.inflight] using hany
      have hack := memoryStoreAcknowledge_invalid h.represents hnone
      exact ⟨run, by simp [StoreRun.step, hack], h⟩
  | true =>
      obtain ⟨before, queued, after, hqueue, hlength, hbefore, hqueued, -⟩ :=
        WindowedFifo.exists_acked hany
      rw [WindowedFifo.acknowledge_of_acked hqueue hlength hbefore hqueued] at hconserves ⊢
      have hrepresents := h.represents
      rw [hqueue] at hrepresents
      obtain ⟨session, hack, hnext, -⟩ :=
        memoryStoreAcknowledge_valid hrepresents hlength hbefore hqueued
      have hwaiting : fifo.waiting.head? = (before ++ queued :: after)[fifo.window]? := by
        rw [WindowedFifo.waiting, List.head?_drop, hqueue]
      rw [hwaiting] at hconserves ⊢
      cases hfirst : (before ++ queued :: after)[fifo.window]? with
      | none =>
          rw [hfirst] at hack hconserves
          refine ⟨⟨session, run.inserted, run.released⟩, by simp [StoreRun.step, hack], hnext,
            hconserves, h.inserted, ?_⟩
          simp [h.released]
      | some first =>
          have hmem : first ∈ before ++ after := by
            rw [WindowedFifo.getElem?_window_remove queued after hlength] at hfirst
            exact List.mem_of_getElem? hfirst
          have hlookup := hnext.lookup hmem
          obtain ⟨cell, hcell, hvalue⟩ := Option.map_eq_some_iff.mp hlookup
          rw [hfirst] at hack hconserves
          refine ⟨⟨session, run.inserted, run.released ++ [first]⟩, ?_, hnext, hconserves,
            h.inserted, ?_⟩
          · simp [StoreRun.step, hack, hcell, hvalue]
          · simp [h.released]

theorem simulates_step (run : StoreRun π) (fifo : WindowedFifo (QueuedPacket π))
    (call : StoreCall π) (h : Simulates run fifo) (halloc : run.Allocates call) :
    ∃ next, run.step call = some next ∧ Simulates next (fifoStep fifo call) := by
  cases call with
  | storeMessage malloc stored => exact simulates_storeMessage h halloc stored
  | acknowledgeAndNext packetId type qos => exact simulates_acknowledgeAndNext h packetId type qos

/-- What an acknowledgement does to a store with the given queue: it has an
effect just when it names an inflight packet, and then it removes the first
one it names. -/
structure AcknowledgesFirst (session : Session π) (queue : List (QueuedPacket π))
    (packetId : UInt16) (type : PacketType) (qos : Int) (after : Session π) : Prop where
  changes : after ≠ session ↔
    ∃ queued ∈ queue.take session.inflightPackets.toNat, NamedBy queued.2 packetId type qos
  removes : after ≠ session → ∃ first queued rest, queue = first ++ queued :: rest ∧
    NamedBy queued.2 packetId type qos ∧ (∀ other ∈ first, ¬ NamedBy other.2 packetId type qos) ∧
    Segment after.heap after.messageStore.sendingQueueHead (first ++ rest) none

theorem acknowledgesFirst {session : Session π} {window : Nat} {queue : List (QueuedPacket π)}
    (h : Represents session window queue) (packetId : UInt16) (type : PacketType) (qos : Int) :
    ∃ next after, memoryStoreAcknowledge session packetId type qos = some (next, after) ∧
      AcknowledgesFirst session queue packetId type qos after := by
  have htake := h.take_inflight
  by_cases hnamed : ∃ queued ∈ queue.take window, NamedBy queued.2 packetId type qos
  · obtain ⟨named, hmem, hnamed⟩ := hnamed
    obtain ⟨first, queued, rest, rfl, hlength, hfirst, hqueued⟩ := exists_first_acked
      ⟨named, hmem, (acknowledgedBy_iff_namedBy _ _ _ _).mpr hnamed⟩
    obtain ⟨after, hack, hafter, -⟩ := memoryStoreAcknowledge_valid h hlength hfirst hqueued
    have hne : after ≠ session := by
      rintro rfl
      have hsame := segment_unique hafter.linked h.linked
      simp at hsame
    refine ⟨_, after, hack, ⟨fun _ => ⟨named, htake ▸ hmem, hnamed⟩, fun _ => hne⟩, fun _ => ?_⟩
    refine ⟨first, queued, rest, rfl, (acknowledgedBy_iff_namedBy _ _ _ _).mp hqueued, ?_,
      hafter.linked⟩
    intro other hother hnamed
    rw [← acknowledgedBy_iff_namedBy, hfirst other hother] at hnamed
    simp at hnamed
  · have hnone : ∀ queued ∈ queue.take window,
        queued.2.acknowledgedBy packetId type qos = false := by
      intro queued hmem
      rw [Bool.eq_false_iff, ne_eq, acknowledgedBy_iff_namedBy]
      exact fun hqueued => hnamed ⟨queued, hmem, hqueued⟩
    refine ⟨none, session, memoryStoreAcknowledge_invalid h hnone, ⟨fun hne => (hne rfl).elim, ?_⟩,
      fun hne => (hne rfl).elim⟩
    rw [htake]
    exact fun hexists => (hnamed hexists).elim

/-- The store and the session's counter, field by field, against the packets
not acknowledged yet. -/
structure StoreConsistent (run : StoreRun π) (window : UInt8) (queue : List (QueuedPacket π)) :
    Prop where
  linked : Segment run.session.heap run.session.messageStore.sendingQueueHead queue none
  tail : run.session.messageStore.sendingQueueTail = queue.getLast?.map Prod.fst
  inflight : run.session.inflightPackets.toNat = min window.toNat queue.length
  pending : run.session.messageStore.pendingPointer =
    queue[run.session.inflightPackets.toNat]?.map Prod.fst
  acknowledges : ∀ packetId type qos, ∃ next after,
    memoryStoreAcknowledge run.session packetId type qos = some (next, after) ∧
      AcknowledgesFirst run.session queue packetId type qos after
  released : run.released ++ queue.drop run.session.inflightPackets.toNat = run.inserted

/-- The packets a sequence of calls stores, in order. -/
def storedBy (calls : List (StoreCall π)) : List (QueuedPacket π) :=
  calls.filterMap fun
    | .storeMessage malloc stored => some (malloc, stored)
    | .acknowledgeAndNext _ _ _ => none

theorem fifoStep_window (fifo : WindowedFifo (QueuedPacket π)) (call : StoreCall π) :
    (fifoStep fifo call).window = fifo.window := by
  cases call with
  | storeMessage malloc stored => rfl
  | acknowledgeAndNext packetId type qos =>
      simp only [fifoStep, WindowedFifo.acknowledge]
      split <;> rfl

theorem fifoStep_inserted (fifo : WindowedFifo (QueuedPacket π)) (calls : List (StoreCall π)) :
    (calls.foldl fifoStep fifo).inserted = fifo.inserted ++ storedBy calls ∧
      (calls.foldl fifoStep fifo).window = fifo.window := by
  induction calls generalizing fifo with
  | nil => simp [storedBy]
  | cons call calls ih =>
      obtain ⟨hinserted, hwindow⟩ := ih (fifoStep fifo call)
      rw [List.foldl_cons, hinserted, hwindow, fifoStep_window]
      refine ⟨?_, rfl⟩
      cases call with
      | storeMessage malloc stored => simp [fifoStep, WindowedFifo.insert, storedBy]
      | acknowledgeAndNext packetId type qos =>
          have hsame : (fifoStep fifo (.acknowledgeAndNext packetId type qos)).inserted
              = fifo.inserted := by
            simp only [fifoStep, WindowedFifo.acknowledge]
            split <;> rfl
          simp [hsame, storedBy]

/-- In-memory message store: under every sequence of calls every call is
defined, the linked queue is the queue of a windowed FIFO under the same
calls, and the packets released are the packets stored, in order, up to those
that wait behind the window. -/
theorem memoryStore_refines_fifo (onPublishFinish : Bool) (nextPacketId : UInt16) (window : UInt8)
    (calls : List (StoreCall π))
    (hcalls : Run.Admissible StoreRun.Allocates StoreRun.step
      (StoreRun.new onPublishFinish nextPacketId window) calls) :
    ∃ run, Run.runs StoreRun.step (StoreRun.new onPublishFinish nextPacketId window) calls
        = some run ∧
      run.inserted = storedBy calls ∧
      StoreConsistent run window
        (calls.foldl fifoStep (WindowedFifo.empty window.toNat)).queue := by
  have hnew : Simulates (StoreRun.new onPublishFinish nextPacketId window : StoreRun π)
      (WindowedFifo.empty window.toNat) :=
    ⟨represents_new onPublishFinish nextPacketId window, WindowedFifo.conserves_empty _, rfl, rfl⟩
  obtain ⟨run, hrun, hsim⟩ := Run.runs_simulates simulates_step hnew hcalls
  obtain ⟨hinserted, hwindow⟩ := fifoStep_inserted (WindowedFifo.empty window.toNat) calls
  have hrepresents := hsim.represents
  rw [hwindow] at hrepresents
  refine ⟨run, hrun, hsim.inserted.trans hinserted, hrepresents.linked,
    hrepresents.tail, hrepresents.inflight, hrepresents.pending_eq,
    acknowledgesFirst hrepresents, ?_⟩
  have hconserves := hsim.conserves
  rw [WindowedFifo.Conserves, WindowedFifo.waiting, hwindow, ← hsim.released, ← hsim.inserted]
    at hconserves
  rw [hrepresents.drop_inflight]
  exact hconserves

/-- Two packets and an acknowledgement of the first with a window of one: the
second packet is released by the acknowledgement, and its cell may reuse the
address of a packet already freed. -/
theorem memoryStore_refines_fifo_reuse :
    ∃ run : StoreRun Bytes, Run.runs StoreRun.step (StoreRun.new false 7 1)
        [.storeMessage 4 ⟨7, .publish ⟨2, [97], 7, []⟩⟩, .acknowledgeAndNext 7 .publish 1,
          .storeMessage 4 ⟨8, .pubrel 8⟩, .storeMessage 5 ⟨9, .pubrel 9⟩,
          .acknowledgeAndNext 8 .pubrel (-1)] = some run ∧
      run.released = [(4, ⟨7, .publish ⟨2, [97], 7, []⟩⟩), (4, ⟨8, .pubrel 8⟩),
        (5, ⟨9, .pubrel 9⟩)] := by
  obtain ⟨run, hrun, hinserted, hconsistent⟩ := @memoryStore_refines_fifo Bytes false 7 1
    [.storeMessage 4 ⟨7, .publish ⟨2, [97], 7, []⟩⟩, .acknowledgeAndNext 7 .publish 1,
      .storeMessage 4 ⟨8, .pubrel 8⟩, .storeMessage 5 ⟨9, .pubrel 9⟩,
      .acknowledgeAndNext 8 .pubrel (-1)]
    ⟨rfl, trivial, rfl, rfl, trivial, trivial⟩
  refine ⟨run, hrun, ?_⟩
  have hreleased := hconsistent.released
  have hinflight := hconsistent.inflight
  rw [hinserted, hinflight] at hreleased
  exact (List.append_nil _).symm.trans hreleased

end TinyMqtt
