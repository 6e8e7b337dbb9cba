import TinyMqtt.Store.MongodbHeap

/-!
A MongoDB store without its pointers: a machine on lists of packets that
performs the same calls. The linked lists, the counters and the tasks of the
store are tied to the lists by `StoreHolds`, and each function of the store keeps
it, as long as the counters do not overflow and a fetched batch does not take
the place of packets in the sending queue.
-/

namespace TinyMqtt

open LinkedList

/-- The task under way, with the packets it holds. -/
inductive QueueTask (π : Type) [TmqString π] where
  | none
  | storing (batch : List (Addr × TimedPkt π))
  | stored
  | fetching
  | fetched (messages : List (Addr × TimedPkt π))

variable {π : Type} [TmqString π]

namespace QueueTask

/-- The packets on their way to the database. -/
def batch : QueueTask π → List (Addr × TimedPkt π)
  | .storing batch => batch
  | _ => []

def messages : QueueTask π → List (Addr × TimedPkt π)
  | .fetched messages => messages
  | _ => []

def stores : QueueTask π → Bool
  | .storing _ | .stored => true
  | _ => false

def fetches : QueueTask π → Bool
  | .fetching | .fetched _ => true
  | _ => false

end QueueTask

/-- The packets of the store, place by place. -/
structure MongodbQueues (π : Type) [TmqString π] where
  window : Nat
  trigger : UInt16
  clock : Nat
  sending : List (QueuedPacket π)
  buffer : List (Addr × TimedPkt π)
  documents : List (TimedPkt π)
  task : QueueTask π
  states : MongodbStates

namespace MongodbQueues

def empty (window : Nat) (trigger : UInt16) : MongodbQueues π :=
  ⟨window, trigger, 0, [], [], [], .none, ⟨false, false, false, false, false, false⟩⟩

def total (m : MongodbQueues π) : Nat := m.sending.length + m.buffer.length

def startStoring (m : MongodbQueues π) : MongodbQueues π :=
  { m with
    task := .storing m.buffer
    buffer := []
    states := { m.states with needStore := false, storing := true, hasStoredMessages := true } }

def startFetching (m : MongodbQueues π) : MongodbQueues π :=
  { m with
    task := .fetching
    states := { m.states with fetching := true, needFetch := false } }

def sendBuffered (m : MongodbQueues π) : MongodbQueues π :=
  { m with
    sending := cells m.buffer
    buffer := []
    states := { m.states with hasBufferedMessages := false } }

def storeDone (m : MongodbQueues π) : MongodbQueues π :=
  let m := { m with task := .none, states := { m.states with storing := false } }
  if m.states.needStore then m.startStoring
  else if m.states.needFetch then m.startFetching
  else m

def takeFetched (m : MongodbQueues π) (messages : List (Addr × TimedPkt π)) : MongodbQueues π :=
  if 0 < messages.length then { m with sending := cells messages }
  else
    let m := { m with states := { m.states with hasStoredMessages := false } }
    if 0 < m.buffer.length then m.sendBuffered
    else { m with states := { m.states with hasBufferedMessages := false } }

/-- What `fetch_message_done` does once the messages are taken. -/
def startNext (m : MongodbQueues π) : MongodbQueues π :=
  if m.states.needStore then
    if 0 < m.buffer.length then m.startStoring
    else { m with states := { m.states with needStore := false } }
  else if m.states.needFetch then m.startFetching
  else m

def fetchDone (m : MongodbQueues π) (messages : List (Addr × TimedPkt π)) : MongodbQueues π :=
  let m := { m with task := .none, states := { m.states with fetching := false } }
  (m.takeFetched messages).startNext

def send (m : MongodbQueues π) (addr : Addr) (stored : StoredPacket π) : MongodbQueues π :=
  { m with clock := m.clock + 1, sending := m.sending ++ [(addr, stored)] }

def keep (m : MongodbQueues π) (addr : Addr) (timed : TimedPkt π) : MongodbQueues π :=
  { m with
    clock := m.clock + 1
    buffer := m.buffer ++ [(addr, timed)]
    states := { m.states with hasBufferedMessages := true } }

/-- What `mongodb_store_store_message` does once a packet is buffered. -/
def startIfFull (m : MongodbQueues π) : MongodbQueues π :=
  if m.trigger.toNat ≤ m.total then
    if m.states.fetching || m.states.storing then
      { m with states := { m.states with needStore := true } }
    else m.startStoring
  else m

def storePublish (m : MongodbQueues π) (addr : Addr) (pkt : CopiedPkt π) : MongodbQueues π :=
  if m.total < m.trigger.toNat / 2 ∧ m.states.hasBufferedMessages = false then
    m.send addr ⟨pkt.1.packetId, .publish pkt⟩
  else (m.keep addr ⟨m.clock, pkt⟩).startIfFull

/-- The packet that an acknowledgement removes from the sending queue, if any. -/
def remove (m : MongodbQueues π) (packetId : UInt16) (type : PacketType) (qos : Int) :
    MongodbQueues π :=
  let fifo : WindowedFifo (QueuedPacket π) := ⟨m.window, m.sending, [], []⟩
  { m with
    sending := (fifo.acknowledge fun queued => queued.2.acknowledgedBy packetId type qos).queue }

/-- What `mongodb_store_acknowledge` does once the packet is removed. -/
def refill (m : MongodbQueues π) : MongodbQueues π :=
  if m.sending = [] ∧ m.states.hasBufferedMessages = true then
    if m.states.hasStoredMessages then
      if m.states.fetching || m.states.storing then
        { m with states := { m.states with needFetch := true } }
      else m.startFetching
    else m.sendBuffered
  else m

def progress (m : MongodbQueues π) (malloc : Nat → Addr) : MongodbQueues π :=
  match m.task with
  | .none => m
  | .storing batch => { m with documents := m.documents ++ batch.map Prod.snd, task := .stored }
  | .stored => m.storeDone
  | .fetching =>
      { m with
        documents := m.documents.drop 50
        task := .fetched (placed malloc 0 (m.documents.take 50)) }
  | .fetched messages => m.fetchDone messages

def step (m : MongodbQueues π) : MongodbCall π → MongodbQueues π
  | .storePublish malloc pkt => m.storePublish malloc pkt
  | .storePubrel malloc packetId => m.send malloc ⟨packetId, .pubrel packetId⟩
  | .acknowledge packetId type qos => (m.remove packetId type qos).refill
  | .progress _ malloc => m.progress malloc

end MongodbQueues

/-! ### The store against the lists -/

/-- The list of tasks holds the task of the machine. -/
def TaskHolds (heap : Heap (StoredPacket π)) (tasks : List DbTask) : QueueTask π → Prop
  | .none => tasks = []
  | .storing batch => ∃ packets, tasks = [.storeMessages packets batch.length] ∧
      Segment heap packets (cells batch) none
  | .stored => tasks = [.storeReceipt]
  | .fetching => tasks = [.fetchMessages 50]
  | .fetched messages => ∃ head,
      tasks = [.fetchReceipt messages.length head ((cells messages).getLast?.map Prod.fst)] ∧
        Segment heap head (cells messages) none

def MongodbQueues.addrs (m : MongodbQueues π) : List Addr :=
  m.sending.map Prod.fst ++ m.buffer.map Prod.fst ++
    (m.task.batch ++ m.task.messages).map Prod.fst

/-- The fields of the store say what the lists are. -/
structure StoreHolds (s : MongodbSession π) (m : MongodbQueues π) : Prop where
  sending : Linked s.session m.window m.sending
  totalSize : s.session.messageStore.totalSize = UInt16.ofNat m.total
  buffer : Segment s.session.heap s.store.bufferQueueHead (cells m.buffer) none
  bufferTail : s.store.bufferQueueTail = Link.head.after (cells m.buffer)
  bufferSize : s.store.bufferSize = UInt16.ofNat m.buffer.length
  trigger : s.store.trigger = m.trigger
  clock : s.storeTimestamp = m.clock
  timestamps : ∀ packet ∈ m.buffer ++ m.task.batch, s.timestamps packet.1 = packet.2.timestamp
  states : s.store.states = m.states
  documents : s.documents = m.documents.map TimedPkt.document
  task : TaskHolds s.session.heap s.tasks m.task
  nodup : m.addrs.Nodup
  fits : m.total < 65536

theorem holds_new (onPublishFinish : Bool) (nextPacketId : UInt16) (maxInflight : UInt8)
    (trigger : UInt16) :
    StoreHolds (MongodbSession.new onPublishFinish nextPacketId maxInflight trigger : MongodbSession π)
      (.empty maxInflight.toNat trigger) where
  sending := represents_new onPublishFinish nextPacketId maxInflight
  totalSize := rfl
  buffer := rfl
  bufferTail := rfl
  bufferSize := rfl
  trigger := rfl
  clock := rfl
  timestamps := by nofun
  states := rfl
  documents := rfl
  task := rfl
  nodup := List.nodup_nil
  fits := by simp [MongodbQueues.total, MongodbQueues.empty]

/-- The task's own cells are left alone. -/
theorem TaskHolds.of_same {heap heap' : Heap (StoredPacket π)} {tasks : List DbTask}
    {task : QueueTask π} (h : TaskHolds heap tasks task) {touched : List Addr}
    (hsame : SameOutside touched heap heap')
    (hdisjoint : ((task.batch ++ task.messages).map Prod.fst).Disjoint touched) :
    TaskHolds heap' tasks task := by
  cases task with
  | none => exact h
  | storing batch =>
      obtain ⟨packets, htasks, hseg⟩ := h
      refine ⟨packets, htasks, hsame.segment hseg ?_⟩
      simpa [QueueTask.batch, QueueTask.messages] using hdisjoint
  | stored => exact h
  | fetching => exact h
  | fetched messages =>
      obtain ⟨head, htasks, hseg⟩ := h
      refine ⟨head, htasks, hsame.segment hseg ?_⟩
      simpa [QueueTask.batch, QueueTask.messages] using hdisjoint

namespace StoreHolds

variable {s : MongodbSession π} {m : MongodbQueues π}

/-- The cells of the task are allocated. -/
theorem task_allocated (h : StoreHolds s m) {addr : Addr}
    (hmem : addr ∈ (m.task.batch ++ m.task.messages).map Prod.fst) : s.session.heap addr ≠ none := by
  have htask := h.task
  cases hkind : m.task with
  | none => simp [hkind, QueueTask.batch, QueueTask.messages] at hmem
  | storing batch =>
      rw [hkind] at htask
      obtain ⟨packets, -, hseg⟩ := htask
      refine segment_allocated hseg ?_
      simpa [hkind, QueueTask.batch, QueueTask.messages] using hmem
  | stored => simp [hkind, QueueTask.batch, QueueTask.messages] at hmem
  | fetching => simp [hkind, QueueTask.batch, QueueTask.messages] at hmem
  | fetched messages =>
      rw [hkind] at htask
      obtain ⟨head, -, hseg⟩ := htask
      refine segment_allocated hseg ?_
      simpa [hkind, QueueTask.batch, QueueTask.messages] using hmem

/-- Free memory holds no packet. -/
theorem not_mem_of_free (h : StoreHolds s m) {addr : Addr} (hfree : s.session.heap addr = none) :
    addr ∉ m.addrs := by
  intro hmem
  rw [MongodbQueues.addrs, List.mem_append, List.mem_append] at hmem
  rcases hmem with (hmem | hmem) | hmem
  · exact segment_allocated h.sending.linked hmem hfree
  · exact segment_allocated h.buffer (by rwa [map_fst_cells]) hfree
  · exact h.task_allocated hmem hfree

theorem buffer_nodup (h : StoreHolds s m) : (m.buffer.map Prod.fst).Nodup :=
  h.nodup.sublist ((List.sublist_append_right _ _).trans (List.sublist_append_left _ _))

theorem task_nodup (h : StoreHolds s m) : ((m.task.batch ++ m.task.messages).map Prod.fst).Nodup :=
  h.nodup.sublist (List.sublist_append_right _ _)

theorem buffer_disjoint_sending (h : StoreHolds s m) :
    (m.buffer.map Prod.fst).Disjoint (m.sending.map Prod.fst) :=
  (List.disjoint_of_nodup_append (h.nodup.sublist (List.sublist_append_left _ _))).symm

theorem task_disjoint (h : StoreHolds s m) : ((m.task.batch ++ m.task.messages).map Prod.fst).Disjoint
    (m.sending.map Prod.fst ++ m.buffer.map Prod.fst) :=
  (List.disjoint_of_nodup_append h.nodup).symm

/-- The size of the buffer queue, as a number. -/
theorem toNat_bufferSize (h : StoreHolds s m) : s.store.bufferSize.toNat = m.buffer.length := by
  have hfits := h.fits
  rw [MongodbQueues.total] at hfits
  rw [h.bufferSize, UInt16.toNat_ofNat_of_lt' (by rw [UInt16.size]; omega)]

theorem toNat_totalSize (h : StoreHolds s m) : s.session.messageStore.totalSize.toNat = m.total := by
  rw [h.totalSize, UInt16.toNat_ofNat_of_lt' h.fits]

theorem bufferSize_pos (h : StoreHolds s m) : 0 < s.store.bufferSize ↔ 0 < m.buffer.length := by
  rw [UInt16.lt_iff_toNat_lt, h.toNat_bufferSize]
  rfl

/-! ### Each function of the store -/

theorem initiateStoringTask (h : StoreHolds s m) (htask : m.task = .none) :
    StoreHolds s.initiateStoringTask m.startStoring where
  sending := h.sending
  totalSize := by
    have hsize : s.session.messageStore.totalSize - s.store.bufferSize
        = UInt16.ofNat m.sending.length := by
      rw [h.totalSize, h.bufferSize, MongodbQueues.total, UInt16.ofNat_add]
      exact UInt16.add_sub_cancel _ _
    exact hsize
  buffer := rfl
  bufferTail := rfl
  bufferSize := rfl
  trigger := h.trigger
  clock := h.clock
  timestamps := by
    intro packet hmem
    exact h.timestamps packet (List.mem_append_left _ hmem)
  states := by
    rw [MongodbSession.initiateStoringTask, MongodbQueues.startStoring, h.states]
  documents := h.documents
  task := by
    have hnone : s.tasks = [] := by simpa [htask, TaskHolds] using h.task
    refine ⟨s.store.bufferQueueHead, ?_, h.buffer⟩
    rw [MongodbSession.initiateStoringTask, hnone, h.toNat_bufferSize]
    rfl
  nodup := by
    have hnodup := h.nodup
    simpa [MongodbQueues.addrs, MongodbQueues.startStoring, htask, QueueTask.batch,
      QueueTask.messages] using hnodup
  fits := by
    have hfits := h.fits
    simp only [MongodbQueues.total, MongodbQueues.startStoring, List.length_nil] at hfits ⊢
    omega

theorem initiateFetchingTask (h : StoreHolds s m) (htask : m.task = .none) :
    StoreHolds s.initiateFetchingTask m.startFetching where
  sending := h.sending
  totalSize := h.totalSize
  buffer := h.buffer
  bufferTail := h.bufferTail
  bufferSize := h.bufferSize
  trigger := h.trigger
  clock := h.clock
  timestamps := by
    have htimes := h.timestamps
    rw [htask] at htimes
    exact htimes
  states := by
    rw [MongodbSession.initiateFetchingTask, MongodbQueues.startFetching, MongodbSession.setStates,
      h.states]
  documents := h.documents
  task := by
    have hnone : s.tasks = [] := by simpa [htask, TaskHolds] using h.task
    rw [MongodbSession.initiateFetchingTask, hnone]
    rfl
  nodup := by
    have hnodup := h.nodup
    simpa [MongodbQueues.addrs, MongodbQueues.startFetching, htask, QueueTask.batch,
      QueueTask.messages] using hnodup
  fits := h.fits

/-- The bits are set alike on both sides. -/
theorem setStates (h : StoreHolds s m) (states : MongodbStates) :
    StoreHolds (s.setStates states) { m with states := states } :=
  ⟨h.sending, h.totalSize, h.buffer, h.bufferTail, h.bufferSize, h.trigger, h.clock, h.timestamps,
    rfl, h.documents, h.task, h.nodup, h.fits⟩

/-- The task that has come to its end is taken away. -/
theorem dropTask (h : StoreHolds s m) :
    StoreHolds { s with tasks := [] } { m with task := .none } where
  sending := h.sending
  totalSize := h.totalSize
  buffer := h.buffer
  bufferTail := h.bufferTail
  bufferSize := h.bufferSize
  trigger := h.trigger
  clock := h.clock
  timestamps := by
    intro packet hmem
    exact h.timestamps packet (List.mem_append_left _ (by simpa [QueueTask.batch] using hmem))
  states := h.states
  documents := h.documents
  task := rfl
  nodup := by
    refine h.nodup.sublist ?_
    simp [MongodbQueues.addrs, QueueTask.batch, QueueTask.messages]
  fits := h.fits

theorem storeMessageDone (h : StoreHolds s m) :
    StoreHolds { s with tasks := [] }.storeMessageDone m.storeDone := by
  have hdone := h.dropTask.setStates { m.states with storing := false }
  have hstates := h.states
  unfold MongodbSession.storeMessageDone MongodbQueues.storeDone
  simp only [MongodbSession.setStates, hstates] at hdone ⊢
  split
  · exact hdone.initiateStoringTask rfl
  · split
    · exact hdone.initiateFetchingTask rfl
    · exact hdone

/-- The buffer queue takes the place of an empty sending queue. -/
theorem sendBufferedMessages (h : StoreHolds s m) (hsending : m.sending = [])
    (hbuffer : m.buffer ≠ []) :
    ∃ next, s.sendBufferedMessages = some next ∧ StoreHolds next m.sendBuffered := by
  have hlinked := h.sending
  rw [hsending] at hlinked
  have htail : linkAsPacket s.store.bufferQueueTail = (cells m.buffer).getLast?.map Prod.fst := by
    rw [h.bufferTail, linkAsPacket_after]
  obtain ⟨last, hlast⟩ : ∃ last, (cells m.buffer).getLast? = some last := by
    cases hlast : (cells m.buffer).getLast? with
    | none =>
        rw [List.getLast?_eq_none_iff] at hlast
        exact absurd (List.map_eq_nil_iff.mp hlast) hbuffer
    | some last => exact ⟨last, rfl⟩
  rw [hlast, Option.map_some] at htail
  obtain ⟨session, hcontinue, hsent, hsize, hheap⟩ :=
    @continueSendMessages_linked π _
      { s.session with
        messageStore :=
          { s.session.messageStore with
            sendingQueueHead := s.store.bufferQueueHead
            sendingQueueTail := some last.1
            pendingPointer := none } }
      m.window (cells m.buffer) (fun _ => isPublish_cells) h.buffer
      (by rw [map_fst_cells]; exact h.buffer_nodup) (by rw [hlast]; rfl) hlinked.windowSize
      hlinked.inflight_zero rfl
  refine ⟨_, by simp only [MongodbSession.sendBufferedMessages, MongodbSession.useBufferedMessages,
    htail, Option.bind_eq_bind, Option.bind_some, hcontinue]; rfl, ?_⟩
  refine ⟨hsent, ?_, rfl, rfl, rfl, h.trigger, h.clock, ?_, ?_, h.documents, ?_, ?_, ?_⟩
  · have htotal := h.totalSize
    simp only [MongodbQueues.total, MongodbQueues.sendBuffered, hsending, List.length_nil,
      Nat.zero_add, length_cells, Nat.add_zero] at htotal ⊢
    exact hsize.trans htotal
  · intro packet hmem
    exact h.timestamps packet (List.mem_append_right _ hmem)
  · rw [MongodbQueues.sendBuffered, h.states]
  · rw [hheap]
    exact h.task
  · have hnodup := h.nodup
    simpa [MongodbQueues.addrs, MongodbQueues.sendBuffered, hsending] using hnodup
  · have hfits := h.fits
    simpa [MongodbQueues.total, MongodbQueues.sendBuffered, hsending] using hfits

/-- The fetched messages take the place of an empty sending queue; with none
left in the database the buffer queue does. -/
theorem takeFetchedMessages (h : StoreHolds s m) {messages : List (Addr × TimedPkt π)}
    (htask : m.task = .fetched messages) {messagesHead : Option Addr}
    (hseg : Segment s.session.heap messagesHead (cells messages) none)
    (hplace : m.sending = [] ∨ (messages = [] ∧ m.buffer = []))
    (hfits : m.total + messages.length < 65536) :
    ∃ next, { s with tasks := [] }.takeFetchedMessages messages.length messagesHead
        ((cells messages).getLast?.map Prod.fst) = some next ∧
      StoreHolds next ({ m with task := .none }.takeFetched messages) := by
  unfold MongodbSession.takeFetchedMessages MongodbQueues.takeFetched
  by_cases hmessages : 0 < messages.length
  · have hsending : m.sending = [] := by
      rcases hplace with hsending | ⟨rfl, -⟩
      · exact hsending
      · simp at hmessages
    have hlinked := h.sending
    rw [hsending] at hlinked
    have hnodup : ((cells messages).map Prod.fst).Nodup := by
      have htaskNodup := h.task_nodup
      rw [map_fst_cells]
      simpa [htask, QueueTask.batch, QueueTask.messages] using htaskNodup
    obtain ⟨session, hcontinue, hsent, hsize, hheap⟩ :=
      @continueSendMessages_linked π _
        { s.session with
          messageStore :=
            { totalSize := s.session.messageStore.totalSize + UInt16.ofNat messages.length
              sendingQueueHead := messagesHead
              sendingQueueTail := (cells messages).getLast?.map Prod.fst
              pendingPointer := none } }
        m.window (cells messages) (fun _ => isPublish_cells) hseg hnodup rfl hlinked.windowSize
        hlinked.inflight_zero rfl
    rw [if_pos hmessages, if_pos hmessages]
    refine ⟨{ s with tasks := [], session := session }, by
      simp only [hcontinue, Option.bind_eq_bind, Option.bind_some], ?_⟩
    refine ⟨hsent, ?_, ?_, h.bufferTail, h.bufferSize, h.trigger, h.clock, ?_, h.states,
      h.documents, rfl, ?_, ?_⟩
    · dsimp only
      rw [hsize, h.totalSize, ← UInt16.ofNat_add]
      simp [MongodbQueues.total, hsending, Nat.add_comm]
    · rw [hheap]
      exact h.buffer
    · intro packet hmem
      exact h.timestamps packet (List.mem_append_left _ (by simpa [QueueTask.batch] using hmem))
    · have hall := h.nodup
      simp only [MongodbQueues.addrs, hsending, htask, QueueTask.batch, QueueTask.messages,
        List.map_nil, List.nil_append, List.append_nil, map_fst_cells] at hall ⊢
      exact List.perm_append_comm.nodup_iff.mp hall
    · simp only [MongodbQueues.total, hsending, List.length_nil, length_cells] at hfits ⊢
      omega
  · obtain rfl : messages = [] := List.length_eq_zero_iff.mp (by omega)
    rw [if_neg hmessages, if_neg hmessages]
    have hcleared := h.dropTask.setStates { m.states with hasStoredMessages := false }
    have hstates := h.states
    have hpos : 0 < s.store.bufferSize ↔ 0 < m.buffer.length := h.bufferSize_pos
    simp only [MongodbSession.setStates, hstates] at hcleared ⊢
    by_cases hbuffer : 0 < m.buffer.length
    · rw [if_pos (hpos.mpr hbuffer), if_pos hbuffer]
      have hne : m.buffer ≠ [] := List.ne_nil_of_length_pos hbuffer
      have hsending : m.sending = [] := by
        rcases hplace with hsending | ⟨-, hempty⟩
        · exact hsending
        · exact absurd hempty hne
      exact hcleared.sendBufferedMessages hsending hne
    · rw [if_neg (mt hpos.mp hbuffer), if_neg hbuffer]
      exact ⟨_, rfl, hcleared.setStates
        { m.states with hasStoredMessages := false, hasBufferedMessages := false }⟩

theorem fetchMessageDone (h : StoreHolds s m) {messages : List (Addr × TimedPkt π)}
    (htask : m.task = .fetched messages) {messagesHead : Option Addr}
    (hseg : Segment s.session.heap messagesHead (cells messages) none)
    (hplace : m.sending = [] ∨ (messages = [] ∧ m.buffer = []))
    (hfits : m.total + messages.length < 65536) :
    ∃ next, { s with tasks := [] }.fetchMessageDone messages.length messagesHead
        ((cells messages).getLast?.map Prod.fst) = some next ∧
      StoreHolds next (m.fetchDone messages) := by
  obtain ⟨taken, htaken, hholds⟩ :=
    (h.setStates { m.states with fetching := false }).takeFetchedMessages htask hseg hplace hfits
  have hidle : (({ m with states := { m.states with fetching := false }, task := .none } :
      MongodbQueues π).takeFetched messages).task = .none := by
    unfold MongodbQueues.takeFetched MongodbQueues.sendBuffered
    dsimp only
    split
    · rfl
    · split <;> rfl
  have hstates := hholds.states
  have hpos := hholds.bufferSize_pos
  unfold MongodbSession.fetchMessageDone MongodbQueues.fetchDone MongodbQueues.startNext
  simp only [MongodbSession.setStates, h.states] at htaken ⊢
  rw [htaken, Option.bind_eq_bind, Option.bind_some]
  refine ⟨_, rfl, ?_⟩
  rw [hstates]
  split
  · by_cases hbuffer : 0 < taken.store.bufferSize
    · rw [if_pos hbuffer, if_pos (hpos.mp hbuffer)]
      exact hholds.initiateStoringTask hidle
    · rw [if_neg hbuffer, if_neg (mt hpos.mpr hbuffer)]
      exact hholds.setStates _
  · split
    · exact hholds.initiateFetchingTask hidle
    · exact hholds

theorem nodup_cons_of_free (h : StoreHolds s m) {malloc : Addr}
    (hfree : s.session.heap malloc = none) : (malloc :: m.addrs).Nodup :=
  List.nodup_cons.mpr ⟨h.not_mem_of_free hfree, h.nodup⟩

/-- The timestamp of a new packet is none of the others'. -/
theorem timestamps_update (h : StoreHolds s m) {malloc : Addr}
    (hfree : s.session.heap malloc = none) (timestamp : Nat) {packet : Addr × TimedPkt π}
    (hmem : packet ∈ m.buffer ++ m.task.batch) :
    Function.update s.timestamps malloc timestamp packet.1 = packet.2.timestamp := by
  have hne : packet.1 ≠ malloc := by
    rintro rfl
    apply h.not_mem_of_free hfree
    simp only [MongodbQueues.addrs, List.mem_append, List.map_append] at hmem ⊢
    rcases hmem with hmem | hmem
    · exact .inl (.inr (List.mem_map_of_mem hmem))
    · exact .inr (.inl (List.mem_map_of_mem hmem))
  rw [Function.update_of_ne hne]
  exact h.timestamps packet hmem

/-- A packet that goes to the sending queue. -/
theorem sendMessage (h : StoreHolds s m) {malloc : Addr} (hfree : s.session.heap malloc = none)
    (hroom : m.total + 1 < 65536) (stored : StoredPacket π) :
    ∃ sendNow session, memoryStoreStoreMessage
        (s.session.sendingPacketNew malloc stored.packetId stored.packet) malloc
          = some (sendNow, session) ∧
      StoreHolds { s with
        session := session
        storeTimestamp := s.storeTimestamp + 1
        timestamps := Function.update s.timestamps malloc s.storeTimestamp }
        (m.send malloc stored) := by
  obtain ⟨sendNow, session, hstore, hlinked, hsize, hheap⟩ := h.sending.storeMessage hfree stored
  have hfresh := h.not_mem_of_free hfree
  simp only [MongodbQueues.addrs, List.mem_append, not_or] at hfresh
  refine ⟨sendNow, session, hstore, hlinked, ?_, ?_, h.bufferTail, h.bufferSize, h.trigger, ?_,
    fun packet => h.timestamps_update hfree _, h.states, h.documents, ?_, ?_, ?_⟩
  · dsimp only
    rw [hsize, h.totalSize]
    simp only [MongodbQueues.total, MongodbQueues.send, List.length_append, List.length_singleton]
    rw [Nat.add_right_comm]
    exact (UInt16.ofNat_add _ 1).symm
  · refine hheap.segment h.buffer ?_
    rw [map_fst_cells]
    refine List.disjoint_cons_right.mpr ⟨hfresh.1.2, h.buffer_disjoint_sending⟩
  · rw [MongodbQueues.send, h.clock]
  · refine h.task.of_same hheap (List.disjoint_cons_right.mpr ⟨hfresh.2, ?_⟩)
    exact (List.disjoint_append_right.mp h.task_disjoint).1
  · refine (List.Perm.nodup_iff ?_).mp (h.nodup_cons_of_free hfree)
    simp only [MongodbQueues.addrs, MongodbQueues.send, List.map_append, List.map_singleton,
      List.append_assoc, List.singleton_append]
    exact List.perm_middle.symm
  · simp only [MongodbQueues.total, MongodbQueues.send, List.length_append, List.length_singleton]
      at hroom ⊢
    omega

/-- The store starts a task, or asks for one, when the buffer queue is full. -/
theorem startIfFull (h : StoreHolds s m)
    (hidle : (m.states.fetching || m.states.storing) = false → m.task = .none) :
    StoreHolds
      (if s.store.trigger ≤ s.session.messageStore.totalSize then
        if s.store.states.fetching || s.store.states.storing then
          s.setStates { s.store.states with needStore := true }
        else s.initiateStoringTask
      else s) m.startIfFull := by
  have hfull : s.store.trigger ≤ s.session.messageStore.totalSize ↔ m.trigger.toNat ≤ m.total := by
    rw [UInt16.le_iff_toNat_le, h.trigger, h.toNat_totalSize]
  unfold MongodbQueues.startIfFull
  rw [h.states]
  by_cases hmany : m.trigger.toNat ≤ m.total
  · rw [if_pos (hfull.mpr hmany), if_pos hmany]
    by_cases hbusy : (m.states.fetching || m.states.storing) = true
    · rw [if_pos hbusy, if_pos hbusy]
      exact h.setStates _
    · rw [if_neg hbusy, if_neg hbusy]
      exact h.initiateStoringTask (hidle (Bool.eq_false_iff.mpr hbusy))
  · rw [if_neg (mt hfull.mp hmany), if_neg hmany]
    exact h

/-- A packet that goes to the buffer queue. -/
theorem bufferMessage (h : StoreHolds s m) {malloc : Addr} (hfree : s.session.heap malloc = none)
    (hroom : m.total + 1 < 65536) (pkt : CopiedPkt π)
    (hidle : (m.states.fetching || m.states.storing) = false → m.task = .none) :
    ∃ next, MongodbSession.bufferMessage { s with
        session := s.session.sendingPacketNew malloc pkt.1.packetId (.publish pkt)
        storeTimestamp := s.storeTimestamp + 1
        timestamps := Function.update s.timestamps malloc s.storeTimestamp } malloc = some next ∧
      StoreHolds next (m.keep malloc ⟨m.clock, pkt⟩).startIfFull := by
  have hfresh := h.not_mem_of_free hfree
  simp only [MongodbQueues.addrs, List.mem_append, not_or] at hfresh
  have hcells : malloc ∉ (cells m.buffer).map Prod.fst := by
    rw [map_fst_cells]
    exact hfresh.1.2
  have hnodup : ((cells m.buffer).map Prod.fst).Nodup := by
    rw [map_fst_cells]
    exact h.buffer_nodup
  obtain ⟨heap, head, hwrite, hseg, hother⟩ := writeLink_after
    (segment_update h.buffer hcells (some ⟨none, ⟨pkt.1.packetId, .publish pkt⟩⟩)) hnodup
    (some malloc)
  have hheap : SameOutside (malloc :: m.buffer.map Prod.fst) s.session.heap heap := by
    intro addr haddr
    simp only [List.mem_cons, not_or] at haddr
    rw [hother addr (by rw [map_fst_cells]; exact haddr.2), Function.update_of_ne haddr.1]
  have hkept : StoreHolds { s with
      session :=
        { s.session with
          heap := heap
          messageStore := { s.session.messageStore with
            totalSize := s.session.messageStore.totalSize + 1 } }
      store :=
        { s.store with
          bufferSize := s.store.bufferSize + 1
          bufferQueueHead := head
          bufferQueueTail := .next malloc
          states := { s.store.states with hasBufferedMessages := true } }
      storeTimestamp := s.storeTimestamp + 1
      timestamps := Function.update s.timestamps malloc s.storeTimestamp }
      (m.keep malloc ⟨m.clock, pkt⟩) := by
    refine ⟨?_, ?_, ?_, ?_, ?_, h.trigger, ?_, ?_, ?_, h.documents, ?_, ?_, ?_⟩
    · have hlinked := h.sending.linked
      refine { h.sending with linked := hheap.segment hlinked ?_ }
      exact List.disjoint_cons_right.mpr ⟨hfresh.1.1, h.buffer_disjoint_sending.symm⟩
    · dsimp only
      rw [h.totalSize]
      simp only [MongodbQueues.total, MongodbQueues.keep, List.length_append,
        List.length_singleton]
      rw [← Nat.add_assoc]
      exact (UInt16.ofNat_add _ 1).symm
    · have hlast : heap malloc = some ⟨none, ⟨pkt.1.packetId, .publish pkt⟩⟩ := by
        rw [hother malloc hcells, Function.update_self]
      simp only [MongodbQueues.keep, cells, List.map_append, List.map_singleton]
      exact segment_append.mpr ⟨some malloc, hseg, rfl, none, hlast, rfl⟩
    · simp [MongodbQueues.keep, cells]
    · dsimp only
      rw [h.bufferSize, MongodbQueues.keep, List.length_append, UInt16.ofNat_add]
      rfl
    · rw [MongodbQueues.keep, h.clock]
    · intro packet hmem
      simp only [MongodbQueues.keep, List.append_assoc, List.singleton_append, List.mem_append,
        List.mem_cons] at hmem
      rcases hmem with hmem | rfl | hmem
      · exact h.timestamps_update hfree _ (List.mem_append_left _ hmem)
      · dsimp only
        rw [Function.update_self, h.clock]
      · exact h.timestamps_update hfree _ (List.mem_append_right _ hmem)
    · rw [MongodbQueues.keep, h.states]
    · refine h.task.of_same hheap (List.disjoint_cons_right.mpr ⟨hfresh.2, ?_⟩)
      exact (List.disjoint_append_right.mp h.task_disjoint).2
    · refine (List.Perm.nodup_iff ?_).mp (h.nodup_cons_of_free hfree)
      simp only [MongodbQueues.addrs, MongodbQueues.keep, List.map_append, List.map_singleton,
        List.append_assoc, List.singleton_append]
      rw [← List.append_assoc, ← List.append_assoc (m.sending.map Prod.fst)]
      exact List.perm_middle.symm
    · simp only [MongodbQueues.total, MongodbQueues.keep, List.length_append,
        List.length_singleton] at hroom ⊢
      omega
  refine ⟨_, by
    simp only [MongodbSession.bufferMessage, Session.sendingPacketNew, h.bufferTail, hwrite,
      Option.bind_eq_bind, Option.bind_some]; rfl, ?_⟩
  exact hkept.startIfFull hidle

theorem storePublish (h : StoreHolds s m) {malloc : Addr} (hfree : s.session.heap malloc = none)
    (hroom : m.total + 1 < 65536) (pkt : CopiedPkt π)
    (hidle : (m.states.fetching || m.states.storing) = false → m.task = .none) :
    ∃ next, s.step (.storePublish malloc pkt) = some next ∧
      StoreHolds next (m.storePublish malloc pkt) := by
  obtain ⟨sendNow, session, hstore, hsent⟩ := h.sendMessage hfree hroom ⟨pkt.1.packetId, .publish pkt⟩
  obtain ⟨buffered, hbuffer, hkept⟩ := h.bufferMessage hfree hroom pkt hidle
  have hcell : (s.session.sendingPacketNew malloc pkt.1.packetId (.publish pkt)).heap malloc
      = some ⟨none, ⟨pkt.1.packetId, .publish pkt⟩⟩ := Function.update_self _ _ _
  have hsmall : (s.session.messageStore.totalSize < s.store.trigger / 2 ∧
      s.store.states.hasBufferedMessages = false) ↔
        (m.total < m.trigger.toNat / 2 ∧ m.states.hasBufferedMessages = false) := by
    rw [UInt16.lt_iff_toNat_lt, h.toNat_totalSize, h.trigger, h.states, UInt16.toNat_div]
    rfl
  have htype : (Packet.publish pkt.1).packetType ≠ .pubrel := by nofun
  simp only [MongodbSession.step, MongodbSession.storePacket,
    MongodbSession.mongodbStoreStoreMessage, hcell, Option.bind_eq_bind, Option.bind_some]
  unfold MongodbQueues.storePublish
  by_cases hdirect : m.total < m.trigger.toNat / 2 ∧ m.states.hasBufferedMessages = false
  · rw [if_pos hdirect, if_pos (.inl (hsmall.mpr hdirect)), hstore]
    exact ⟨_, rfl, hsent⟩
  · have hbuffered : ¬ ((s.session.sendingPacketNew malloc pkt.1.packetId
        (.publish pkt)).messageStore.totalSize < s.store.trigger / 2 ∧
          s.store.states.hasBufferedMessages = false ∨
        (Packet.publish pkt.1).packetType = .pubrel) := not_or.mpr ⟨mt hsmall.mp hdirect, htype⟩
    rw [if_neg hdirect, if_neg hbuffered, hbuffer]
    exact ⟨buffered, rfl, hkept⟩

theorem storePubrel (h : StoreHolds s m) {malloc : Addr} (hfree : s.session.heap malloc = none)
    (hroom : m.total + 1 < 65536) (packetId : UInt16) :
    ∃ next, s.step (.storePubrel malloc packetId) = some next ∧
      StoreHolds next (m.send malloc ⟨packetId, .pubrel packetId⟩) := by
  obtain ⟨sendNow, session, hstore, hsent⟩ := h.sendMessage hfree hroom ⟨packetId, .pubrel packetId⟩
  have hcell : (s.session.sendingPacketNew malloc packetId (.pubrel packetId)).heap malloc
      = some ⟨none, ⟨packetId, .pubrel packetId⟩⟩ := Function.update_self _ _ _
  simp only [MongodbSession.step, MongodbSession.storePacket,
    MongodbSession.mongodbStoreStoreMessage, hcell, Option.bind_eq_bind, Option.bind_some]
  rw [if_pos (.inr rfl), hstore]
  exact ⟨_, rfl, hsent⟩

/-- The memory store's part in an acknowledgement. -/
theorem removePacket (h : StoreHolds s m) (packetId : UInt16) (type : PacketType) (qos : Int) :
    ∃ pending session, memoryStoreAcknowledge s.session packetId type qos
        = some (pending, session) ∧
      StoreHolds { s with session := session } (m.remove packetId type qos) := by
  unfold MongodbQueues.remove
  dsimp only
  cases hany : WindowedFifo.inflight ⟨m.window, m.sending, [], []⟩ |>.any
      fun queued => queued.2.acknowledgedBy packetId type qos with
  | false =>
      rw [WindowedFifo.acknowledge_of_none hany]
      refine ⟨none, s.session, h.sending.acknowledge_invalid ?_, h⟩
      intro queued hmem
      simpa using List.any_eq_false.mp hany queued hmem
  | true =>
      obtain ⟨before, queued, after, hqueue, hlength, hbefore, hqueued, -⟩ :=
        WindowedFifo.exists_acked hany
      rw [WindowedFifo.acknowledge_of_acked hqueue hlength hbefore hqueued]
      dsimp only at hqueue hlength ⊢
      have hsub : (before ++ after).Sublist m.sending := by
        rw [hqueue]
        exact (List.sublist_cons_self queued after).append_left before
      have hlinked := h.sending
      rw [hqueue] at hlinked
      obtain ⟨pending, session, hack, hnext, hsize, hheap⟩ :=
        hlinked.acknowledge_valid hlength hbefore hqueued
      have hlen : m.total = before.length + after.length + m.buffer.length + 1 := by
        rw [MongodbQueues.total, hqueue, List.length_append, List.length_cons]
        omega
      rw [← hqueue] at hheap
      refine ⟨pending, session, hack, hnext, ?_, ?_, h.bufferTail, h.bufferSize, h.trigger, h.clock,
        h.timestamps, h.states, h.documents, ?_, ?_, ?_⟩
      · dsimp only
        rw [hsize, h.totalSize, hlen, UInt16.ofNat_add, MongodbQueues.total, List.length_append]
        exact UInt16.add_sub_cancel _ _
      · refine hheap.segment h.buffer ?_
        rw [map_fst_cells]
        exact h.buffer_disjoint_sending
      · exact h.task.of_same hheap (List.disjoint_append_right.mp h.task_disjoint).1
      · refine h.nodup.sublist ?_
        exact ((hsub.map _).append_right _).append_right _
      · have hfits := h.fits
        simp only [MongodbQueues.total, List.length_append] at hlen hfits ⊢
        omega

/-- What follows an acknowledgement when the sending queue is empty. -/
theorem refillSendingQueue (h : StoreHolds s m)
    (hidle : (m.states.fetching || m.states.storing) = false → m.task = .none)
    (hbuffered : m.states.hasBufferedMessages = true → m.states.hasStoredMessages = false →
      m.buffer ≠ []) :
    ∃ next, s.refillSendingQueue = some next ∧ StoreHolds next m.refill := by
  have hempty : s.session.messageStore.totalSize = s.store.bufferSize ↔ m.sending = [] := by
    rw [← UInt16.toNat_inj, h.toNat_totalSize, h.toNat_bufferSize, MongodbQueues.total,
      ← List.length_eq_zero_iff]
    exact Nat.add_eq_right
  unfold MongodbSession.refillSendingQueue MongodbQueues.refill
  simp only [hempty, h.states]
  by_cases hdrained : m.sending = [] ∧ m.states.hasBufferedMessages = true
  · rw [if_pos hdrained, if_pos hdrained]
    by_cases hstored : m.states.hasStoredMessages = true
    · rw [if_pos hstored, if_pos hstored]
      by_cases hbusy : (m.states.fetching || m.states.storing) = true
      · rw [if_pos hbusy, if_pos hbusy]
        exact ⟨_, rfl, h.setStates { m.states with needFetch := true }⟩
      · rw [if_neg hbusy, if_neg hbusy]
        exact ⟨_, rfl, h.initiateFetchingTask (hidle (Bool.eq_false_iff.mpr hbusy))⟩
    · rw [if_neg hstored, if_neg hstored]
      exact h.sendBufferedMessages hdrained.1
        (hbuffered hdrained.2 (Bool.eq_false_iff.mpr hstored))
  · rw [if_neg hdrained, if_neg hdrained]
    exact ⟨s, rfl, h⟩

theorem acknowledge (h : StoreHolds s m) (packetId : UInt16) (type : PacketType) (qos : Int)
    (hidle : (m.states.fetching || m.states.storing) = false → m.task = .none)
    (hbuffered : m.states.hasBufferedMessages = true → m.states.hasStoredMessages = false →
      m.buffer ≠ []) :
    ∃ next, s.step (.acknowledge packetId type qos) = some next ∧
      StoreHolds next (m.remove packetId type qos).refill := by
  obtain ⟨pending, session, hack, hremoved⟩ := h.removePacket packetId type qos
  obtain ⟨next, hfill, hholds⟩ := hremoved.refillSendingQueue hidle hbuffered
  refine ⟨next, ?_, hholds⟩
  simp only [MongodbSession.step, MongodbSession.mongodbStoreAcknowledge, hack, hfill,
    Option.bind_eq_bind, Option.bind_some]

/-- The storing task: the documents of its batch are appended. -/
theorem progress_storing (h : StoreHolds s m) {batch : List (Addr × TimedPkt π)}
    (htask : m.task = .storing batch) {index : Nat} (hindex : index < s.tasks.length)
    (malloc : Nat → Addr) :
    ∃ next, s.step (.progress index malloc) = some next ∧ StoreHolds next (m.progress malloc) := by
  obtain ⟨packets, htasks, hseg⟩ : ∃ packets, s.tasks = [.storeMessages packets batch.length] ∧
      Segment s.session.heap packets (cells batch) none := by
    have hholds := h.task
    rwa [htask] at hholds
  obtain rfl : index = 0 := by simpa [htasks] using hindex
  have hnodup : (batch.map Prod.fst).Nodup := by
    have htaskNodup := h.task_nodup
    simpa [htask, QueueTask.batch, QueueTask.messages] using htaskNodup
  have hdisjoint : (batch.map Prod.fst).Disjoint
      (m.sending.map Prod.fst ++ m.buffer.map Prod.fst) := by
    have htaskDisjoint := h.task_disjoint
    simpa [htask, QueueTask.batch, QueueTask.messages] using htaskDisjoint
  obtain ⟨heap, hstore, hheap⟩ := storeMessagesToMongodb_eq
    (fun packet hmem => h.timestamps packet (by rw [htask]; exact List.mem_append_right _ hmem))
    hnodup hseg
  refine ⟨{ s with
    session := { s.session with heap := heap }
    documents := s.documents ++ batch.map fun packet => packet.2.document
    tasks := [.storeReceipt] }, ?_, ?_⟩
  · simp only [MongodbSession.step, htasks, MongodbSession.progress, hstore, List.getElem?_cons_zero,
      List.eraseIdx_cons_zero, Option.bind_eq_bind, Option.bind_some, List.nil_append]
  · simp only [MongodbQueues.progress, htask]
    obtain ⟨hsending, hbuffer⟩ := List.disjoint_append_right.mp hdisjoint
    refine ⟨{ h.sending with linked := hheap.segment h.sending.linked hsending.symm }, h.totalSize,
      hheap.segment h.buffer (by rw [map_fst_cells]; exact hbuffer.symm), h.bufferTail,
      h.bufferSize, h.trigger, h.clock, ?_, h.states, ?_, rfl, ?_, h.fits⟩
    · intro packet hmem
      exact h.timestamps packet (List.mem_append_left _ (by simpa [QueueTask.batch] using hmem))
    · simp [h.documents, Function.comp_def]
    · refine h.nodup.sublist ?_
      simp [MongodbQueues.addrs, QueueTask.batch, QueueTask.messages]

/-- The fetching task: the first documents are taken out. -/
theorem progress_fetching (h : StoreHolds s m) (htask : m.task = .fetching) {index : Nat}
    (hindex : index < s.tasks.length) {malloc : Nat → Addr} (hmalloc : Function.Injective malloc)
    (hfree : ∀ i, s.session.heap (malloc i) = none)
    (hsorted : m.documents.Pairwise fun first second => first.timestamp ≤ second.timestamp) :
    ∃ next, s.step (.progress index malloc) = some next ∧ StoreHolds next (m.progress malloc) := by
  have htasks : s.tasks = [.fetchMessages 50] := by
    have hholds := h.task
    rwa [htask] at hholds
  obtain rfl : index = 0 := by simpa [htasks] using hindex
  have hsort : sortedDocuments s.documents = m.documents.map TimedPkt.document := by
    rw [h.documents]
    refine List.Pairwise.insertionSort_eq (List.pairwise_map.mpr (hsorted.imp ?_))
    intro first second hle
    exact hle
  obtain ⟨heap, head, hloop, hseg, hnodup, hheap⟩ := @fetchMessagesLoop_eq π _ malloc hmalloc
    (m.documents.take 50) 0 s.session.heap none [] rfl (by simp) (by simp)
  rw [List.nil_append] at hloop hseg hnodup
  rw [Link.after_nil, List.map_take] at hloop
  have hfresh : ∀ addr ∈ m.addrs, ∀ i, addr ≠ malloc i := by
    rintro addr hmem i rfl
    exact h.not_mem_of_free (hfree i) hmem
  have hkeep : ∀ {start : Option Addr} {cells : List (QueuedPacket π)},
      (∀ addr ∈ cells.map Prod.fst, addr ∈ m.addrs) → Segment s.session.heap start cells none →
        Segment heap start cells none := by
    intro start cells hmem hsegment
    exact segment_congr hsegment fun addr haddr => hheap addr (hfresh addr (hmem addr haddr))
  refine ⟨{ s with
    session := { s.session with heap := heap }
    documents := (m.documents.map TimedPkt.document).drop 50
    tasks := [.fetchReceipt ((m.documents.map TimedPkt.document).take 50).length head
      ((cells (placed malloc 0 (m.documents.take 50))).getLast?.map Prod.fst)] }, ?_, ?_⟩
  · simp only [MongodbSession.step, htasks, MongodbSession.progress, hsort, hloop, linkAsPacket_after,
      List.getElem?_cons_zero, List.eraseIdx_cons_zero, Option.bind_eq_bind, Option.bind_some,
      List.nil_append]
  · simp only [MongodbQueues.progress, htask]
    refine ⟨{ h.sending with linked := hkeep ?_ h.sending.linked }, h.totalSize,
      hkeep ?_ h.buffer, h.bufferTail, h.bufferSize, h.trigger, h.clock, ?_, h.states, ?_,
      ⟨head, ?_, hseg⟩, ?_, h.fits⟩
    · intro addr hmem
      exact List.mem_append_left _ (List.mem_append_left _ hmem)
    · intro addr hmem
      rw [map_fst_cells] at hmem
      exact List.mem_append_left _ (List.mem_append_right _ hmem)
    · intro packet hmem
      exact h.timestamps packet (List.mem_append_left _ (by simpa [QueueTask.batch] using hmem))
    · simp
    · simp
    · rw [map_fst_cells] at hnodup
      have hbefore : m.addrs = m.sending.map Prod.fst ++ m.buffer.map Prod.fst := by
        simp [MongodbQueues.addrs, htask, QueueTask.batch, QueueTask.messages]
      have hold := h.nodup
      rw [hbefore] at hold
      simp only [MongodbQueues.addrs, QueueTask.batch, QueueTask.messages, List.nil_append]
      refine List.nodup_append.mpr ⟨hold, hnodup, ?_⟩
      rintro addr hmem other hother rfl
      obtain ⟨i, hi⟩ := mem_placed hother
      exact hfresh addr (hbefore ▸ hmem) i hi

end StoreHolds

end TinyMqtt
