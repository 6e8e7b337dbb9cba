import TinyMqtt.Lib.Run
import TinyMqtt.Store.MongodbQueues

/-!
What a MongoDB store keeps. Packets move between the sending queue, the
database and the buffer queue without being lost, repeated or reordered, as
long as a fetched batch meets an empty sending queue and the 16-bit counters do
not overflow. With a trigger of at least two the store moreover never waits for
a task that nobody starts.
-/

namespace TinyMqtt

open LinkedList

variable {π : Type} [TmqString π]

namespace MongodbQueues

/-- The packets on their way from the database to the buffer queue, oldest
first. -/
def later (m : MongodbQueues π) : List (TimedPkt π) :=
  m.documents ++ (m.task.batch ++ m.buffer).map Prod.snd

/-- What the bits say about the places, and the order of the timestamps. -/
structure Ordered (m : MongodbQueues π) : Prop where
  storing : m.states.storing = m.task.stores
  fetching : m.states.fetching = m.task.fetches
  unbuffered : m.states.hasBufferedMessages = false →
    m.buffer = [] ∧ m.states.hasStoredMessages = false
  unstored : m.states.hasStoredMessages = false →
    m.documents = [] ∧ m.task.stores = false ∧ m.task.messages = []
  buffered : m.states.hasBufferedMessages = true → m.states.hasStoredMessages = false →
    m.buffer ≠ []
  drained : m.task = .fetched [] → m.documents = []
  ascending : m.later.Pairwise fun first second => first.timestamp < second.timestamp
  past : ∀ timed ∈ m.later, timed.timestamp < m.clock

theorem ordered_empty (window : Nat) (trigger : UInt16) :
    Ordered (empty window trigger : MongodbQueues π) := by
  refine ⟨rfl, rfl, fun _ => ⟨rfl, rfl⟩, fun _ => ⟨rfl, rfl, rfl⟩, nofun, nofun, ?_, ?_⟩
  · exact List.Pairwise.nil
  · intro timed hmem
    cases hmem

namespace Ordered

variable {m : MongodbQueues π}

theorem idle (h : Ordered m) (hbits : (m.states.fetching || m.states.storing) = false) :
    m.task = .none := by
  rw [h.storing, h.fetching] at hbits
  cases htask : m.task with
  | none => rfl
  | _ => simp [htask, QueueTask.stores, QueueTask.fetches] at hbits

theorem batch_eq_nil {task : QueueTask π} (h : task.stores = false) : task.batch = [] := by
  cases task with
  | storing batch => cases h
  | _ => rfl

/-- Nothing is stored or on its way while the bit is not set. -/
theorem elsewhere (h : Ordered m) (hstored : m.states.hasStoredMessages = false) :
    m.documents = [] ∧ m.task.batch = [] ∧ m.task.messages = [] :=
  ⟨(h.unstored hstored).1, batch_eq_nil (h.unstored hstored).2.1, (h.unstored hstored).2.2⟩

theorem buffered_of_stored (h : Ordered m) (hstored : m.states.hasStoredMessages = true) :
    m.states.hasBufferedMessages = true := by
  by_contra hbuffered
  rw [Bool.not_eq_true] at hbuffered
  rw [(h.unbuffered hbuffered).2] at hstored
  cases hstored

theorem stored_of_stores (h : Ordered m) (hstores : m.task.stores = true) :
    m.states.hasStoredMessages = true := by
  by_contra hstored
  rw [Bool.not_eq_true] at hstored
  rw [(h.unstored hstored).2.1] at hstores
  cases hstores

/-- The timestamps stay in order where no packet joins those on their way. -/
theorem order_of_sublist (h : Ordered m) {next : MongodbQueues π}
    (hlater : next.later.Sublist m.later) (hclock : next.clock = m.clock) :
    (next.later.Pairwise fun first second => first.timestamp < second.timestamp) ∧
      ∀ timed ∈ next.later, timed.timestamp < next.clock := by
  refine ⟨h.ascending.sublist hlater, ?_⟩
  intro timed hmem
  rw [hclock]
  exact h.past timed (hlater.subset hmem)

theorem startStoring (h : Ordered m) (htask : m.task = .none)
    (hbuffered : m.states.hasBufferedMessages = true) : Ordered m.startStoring := by
  have hlater : m.startStoring.later.Sublist m.later := by
    simp [later, MongodbQueues.startStoring, htask, QueueTask.batch]
  obtain ⟨hascending, hpast⟩ := h.order_of_sublist hlater rfl
  refine ⟨rfl, ?_, ?_, ?_, ?_, ?_, hascending, hpast⟩
  · exact h.fetching.trans (by rw [htask]; rfl)
  · intro hunbuffered
    rw [show m.startStoring.states.hasBufferedMessages = m.states.hasBufferedMessages from rfl,
      hbuffered] at hunbuffered
    cases hunbuffered
  · intro hunstored
    cases hunstored
  · intro _ hunstored
    cases hunstored
  · intro hdrained
    cases hdrained

theorem startFetching (h : Ordered m) (htask : m.task = .none) : Ordered m.startFetching := by
  have hlater : m.startFetching.later.Sublist m.later := by
    simp [later, MongodbQueues.startFetching, htask, QueueTask.batch]
  obtain ⟨hascending, hpast⟩ := h.order_of_sublist hlater rfl
  refine ⟨?_, rfl, h.unbuffered, ?_, h.buffered, ?_, hascending, hpast⟩
  · exact h.storing.trans (by rw [htask]; rfl)
  · intro hstored
    exact ⟨(h.unstored hstored).1, rfl, rfl⟩
  · intro hdrained
    cases hdrained

/-- The bits that ask for a task say nothing about the places. -/
theorem setNeeds (h : Ordered m) (needStore needFetch : Bool) :
    Ordered { m with states := { m.states with needStore := needStore, needFetch := needFetch } } :=
  ⟨h.storing, h.fetching, h.unbuffered, h.unstored, h.buffered, h.drained, h.ascending, h.past⟩

theorem setSending (h : Ordered m) (sending : List (QueuedPacket π)) :
    Ordered { m with sending := sending } :=
  ⟨h.storing, h.fetching, h.unbuffered, h.unstored, h.buffered, h.drained, h.ascending, h.past⟩

theorem sendBuffered (h : Ordered m) (hstored : m.states.hasStoredMessages = false) :
    Ordered m.sendBuffered := by
  obtain ⟨hdocuments, hbatch, -⟩ := h.elsewhere hstored
  have hlater : m.sendBuffered.later = [] := by
    simp [later, MongodbQueues.sendBuffered, hdocuments, hbatch]
  refine ⟨h.storing, h.fetching, fun _ => ⟨rfl, hstored⟩, h.unstored, ?_, h.drained, ?_, ?_⟩
  · intro hbuffered
    cases hbuffered
  · rw [hlater]
    exact List.Pairwise.nil
  · rw [hlater]
    intro timed hmem
    cases hmem

/-- The task has come to its end: its receipt holds no packet any more. -/
theorem dropStored (h : Ordered m) (htask : m.task = .stored) :
    Ordered { m with task := .none, states := { m.states with storing := false } } := by
  have hlater : (later { m with
      task := .none, states := { m.states with storing := false } }).Sublist m.later := by
    simp [later, htask, QueueTask.batch]
  obtain ⟨hascending, hpast⟩ := h.order_of_sublist hlater rfl
  refine ⟨rfl, ?_, h.unbuffered, ?_, h.buffered, ?_, hascending, hpast⟩
  · exact h.fetching.trans (by rw [htask]; rfl)
  · intro hstored
    exact ⟨(h.unstored hstored).1, rfl, rfl⟩
  · intro hdrained
    cases hdrained

theorem storeDone (h : Ordered m) (htask : m.task = .stored) : Ordered m.storeDone := by
  have hdone := h.dropStored htask
  have hstored : m.states.hasStoredMessages = true := h.stored_of_stores (by rw [htask]; rfl)
  unfold MongodbQueues.storeDone
  dsimp only
  split
  · exact hdone.startStoring rfl (h.buffered_of_stored hstored)
  · split
    · exact hdone.startFetching rfl
    · exact hdone

/-- The receipt of a fetching task is taken away, and its messages with it. -/
theorem dropFetched (h : Ordered m) {messages : List (Addr × TimedPkt π)}
    (htask : m.task = .fetched messages) :
    Ordered { m with task := .none, states := { m.states with fetching := false } } := by
  have hlater : (later { m with
      task := .none, states := { m.states with fetching := false } }).Sublist m.later := by
    simp [later, htask, QueueTask.batch]
  obtain ⟨hascending, hpast⟩ := h.order_of_sublist hlater rfl
  refine ⟨?_, rfl, h.unbuffered, ?_, h.buffered, ?_, hascending, hpast⟩
  · exact h.storing.trans (by rw [htask]; rfl)
  · intro hstored
    exact ⟨(h.unstored hstored).1, rfl, rfl⟩
  · intro hdrained
    cases hdrained

theorem takeFetched (h : Ordered m) (htask : m.task = .none)
    {messages : List (Addr × TimedPkt π)} (hdrained : messages = [] → m.documents = []) :
    Ordered (m.takeFetched messages) ∧ (m.takeFetched messages).task = .none := by
  unfold MongodbQueues.takeFetched
  split
  · exact ⟨h.setSending _, htask⟩
  · rename_i hmessages
    have hnil : messages = [] := List.length_eq_zero_iff.mp (by omega)
    have hdocuments := hdrained hnil
    dsimp only
    split
    · -- the buffer queue is sent, so that nothing is stored or buffered
      refine ⟨⟨h.storing, h.fetching, fun _ => ⟨rfl, rfl⟩, ?_, ?_, ?_, ?_, ?_⟩, htask⟩
      · intro _
        exact ⟨hdocuments, by simp [MongodbQueues.sendBuffered, htask, QueueTask.stores],
          by simp [MongodbQueues.sendBuffered, htask, QueueTask.messages]⟩
      · intro hbuffered
        cases hbuffered
      · intro _
        exact hdocuments
      · simp [later, MongodbQueues.sendBuffered, hdocuments, htask, QueueTask.batch]
      · simp [later, MongodbQueues.sendBuffered, hdocuments, htask, QueueTask.batch]
    · rename_i hbuffer
      have hempty : m.buffer = [] := List.length_eq_zero_iff.mp (by omega)
      refine ⟨⟨h.storing, h.fetching, fun _ => ⟨hempty, rfl⟩, ?_, ?_, ?_, ?_, ?_⟩, htask⟩
      · intro _
        exact ⟨hdocuments, by simp [htask, QueueTask.stores], by simp [htask, QueueTask.messages]⟩
      · intro hbuffered
        cases hbuffered
      · intro _
        exact hdocuments
      · exact h.ascending
      · exact h.past

theorem startNext (h : Ordered m) (htask : m.task = .none) : Ordered m.startNext := by
  unfold MongodbQueues.startNext
  split
  · split
    · rename_i hbuffer
      refine h.startStoring htask ?_
      by_contra hunbuffered
      rw [Bool.not_eq_true] at hunbuffered
      rw [(h.unbuffered hunbuffered).1] at hbuffer
      cases hbuffer
    · exact h.setNeeds false m.states.needFetch
  · split
    · exact h.startFetching htask
    · exact h

theorem fetchDone (h : Ordered m) {messages : List (Addr × TimedPkt π)}
    (htask : m.task = .fetched messages) : Ordered (m.fetchDone messages) := by
  have hdrained : messages = [] → m.documents = [] := by
    rintro rfl
    exact h.drained htask
  obtain ⟨htaken, hidle⟩ := (h.dropFetched htask).takeFetched rfl hdrained
  exact htaken.startNext hidle

/-- Packets stored later have later timestamps. -/
theorem keep (h : Ordered m) (addr : Addr) (pkt : CopiedPkt π) :
    Ordered (m.keep addr ⟨m.clock, pkt⟩) := by
  have hlater : (m.keep addr ⟨m.clock, pkt⟩).later = m.later ++ [⟨m.clock, pkt⟩] := by
    simp [later, MongodbQueues.keep]
  refine ⟨h.storing, h.fetching, ?_, h.unstored, ?_, h.drained, ?_, ?_⟩
  · intro hunbuffered
    cases hunbuffered
  · intro _ _
    simp [MongodbQueues.keep]
  · rw [hlater]
    refine List.pairwise_append.mpr ⟨h.ascending, List.pairwise_singleton _ _, ?_⟩
    intro first hfirst second hsecond
    obtain rfl := List.mem_singleton.mp hsecond
    exact h.past first hfirst
  · rw [hlater]
    intro timed hmem
    rcases List.mem_append.mp hmem with hmem | hmem
    · exact Nat.lt_succ_of_lt (h.past timed hmem)
    · obtain rfl := List.mem_singleton.mp hmem
      exact Nat.lt_succ_self _

theorem startIfFull (h : Ordered m) (hbuffered : m.states.hasBufferedMessages = true) :
    Ordered m.startIfFull := by
  unfold MongodbQueues.startIfFull
  split
  · split
    · exact h.setNeeds true m.states.needFetch
    · rename_i hbusy
      exact h.startStoring (h.idle (Bool.eq_false_iff.mpr hbusy)) hbuffered
  · exact h

theorem send (h : Ordered m) (addr : Addr) (stored : StoredPacket π) :
    Ordered (m.send addr stored) :=
  ⟨h.storing, h.fetching, h.unbuffered, h.unstored, h.buffered, h.drained, h.ascending,
    fun timed hmem => Nat.lt_succ_of_lt (h.past timed hmem)⟩

theorem refill (h : Ordered m) : Ordered m.refill := by
  unfold MongodbQueues.refill
  split
  · split
    · split
      · exact h.setNeeds m.states.needStore true
      · rename_i hbusy
        exact h.startFetching (h.idle (Bool.eq_false_iff.mpr hbusy))
    · rename_i hstored
      exact h.sendBuffered (Bool.eq_false_iff.mpr hstored)
  · exact h

theorem progress (h : Ordered m) (malloc : Nat → Addr) : Ordered (m.progress malloc) := by
  unfold MongodbQueues.progress
  cases htask : m.task with
  | none => exact h
  | storing batch =>
      dsimp only
      have hlater : (later { m with
          documents := m.documents ++ batch.map Prod.snd, task := .stored }).Sublist m.later := by
        simp [later, htask, QueueTask.batch]
      have hstored : m.states.hasStoredMessages = true := h.stored_of_stores (by rw [htask]; rfl)
      obtain ⟨hascending, hpast⟩ := h.order_of_sublist hlater rfl
      refine ⟨?_, ?_, h.unbuffered, ?_, h.buffered, ?_, hascending, hpast⟩
      · exact h.storing.trans (by rw [htask]; rfl)
      · exact h.fetching.trans (by rw [htask]; rfl)
      · intro hunstored
        dsimp only at hunstored
        rw [hstored] at hunstored
        cases hunstored
      · intro hdrained
        cases hdrained
  | stored => exact h.storeDone htask
  | fetching =>
      dsimp only
      have hsub : (later { m with
          documents := m.documents.drop 50
          task := .fetched (placed malloc 0 (m.documents.take 50)) }).Sublist m.later := by
        simp only [later, htask, QueueTask.batch]
        exact (List.drop_sublist 50 m.documents).append_right _
      obtain ⟨hascending, hpast⟩ := h.order_of_sublist hsub rfl
      refine ⟨?_, ?_, h.unbuffered, ?_, h.buffered, ?_, hascending, hpast⟩
      · exact h.storing.trans (by rw [htask]; rfl)
      · exact h.fetching.trans (by rw [htask]; rfl)
      · intro hstored
        have hdocuments := (h.unstored hstored).1
        exact ⟨by simp [hdocuments], rfl, by simp [hdocuments, QueueTask.messages, placed]⟩
      · intro hnone
        have hlength : (placed malloc 0 (m.documents.take 50)).length = 0 := by
          rw [QueueTask.fetched.inj hnone]
          rfl
        rw [length_placed, List.length_take] at hlength
        have hzero : m.documents.length = 0 := by omega
        simp [List.length_eq_zero_iff.mp hzero]
  | fetched messages => exact h.fetchDone htask

theorem step (h : Ordered m) (call : MongodbCall π) : Ordered (m.step call) := by
  cases call with
  | storePublish malloc pkt =>
      change Ordered (m.storePublish malloc pkt)
      unfold MongodbQueues.storePublish
      split
      · exact h.send malloc _
      · exact (h.keep malloc pkt).startIfFull rfl
  | storePubrel malloc packetId => exact h.send malloc _
  | acknowledge packetId type qos => exact (h.setSending _).refill
  | progress index malloc => exact h.progress malloc

end Ordered

/-! ### All the packets of the store -/

/-- The packets of all places, in the order in which they are to be sent. -/
def contents (m : MongodbQueues π) : List (StoredPacket π) :=
  m.sending.map Prod.snd ++ (m.task.messages.map (TimedPkt.stored ∘ Prod.snd) ++
    m.later.map TimedPkt.stored)

theorem map_snd_cells (packets : List (Addr × TimedPkt π)) :
    (cells packets).map Prod.snd = packets.map (TimedPkt.stored ∘ Prod.snd) := by
  simp [cells, Function.comp_def]

/-- Where nothing is stored, a sending queue that was empty and the buffer queue
change places. -/
theorem contents_sendBuffered {m : MongodbQueues π} (h : Ordered m) (hsending : m.sending = [])
    (hstored : m.states.hasStoredMessages = false) : m.sendBuffered.contents = m.contents := by
  obtain ⟨hdocuments, hbatch, hmessages⟩ := h.elsewhere hstored
  simp [contents, later, sendBuffered, hsending, hdocuments, hbatch, hmessages, map_snd_cells]

theorem contents_startStoring {m : MongodbQueues π} (htask : m.task = .none) :
    m.startStoring.contents = m.contents := by
  simp [contents, later, startStoring, htask, QueueTask.batch, QueueTask.messages]

theorem contents_startFetching {m : MongodbQueues π} (htask : m.task = .none) :
    m.startFetching.contents = m.contents := by
  simp [contents, later, startFetching, htask, QueueTask.batch, QueueTask.messages]

theorem contents_startIfFull {m : MongodbQueues π} (h : Ordered m) :
    m.startIfFull.contents = m.contents := by
  unfold startIfFull
  split
  · split
    · rfl
    · rename_i hbusy
      exact contents_startStoring (h.idle (Bool.eq_false_iff.mpr hbusy))
  · rfl

theorem contents_refill {m : MongodbQueues π} (h : Ordered m) : m.refill.contents = m.contents := by
  unfold refill
  split
  · rename_i hdrained
    split
    · split
      · rfl
      · rename_i hbusy
        exact contents_startFetching (h.idle (Bool.eq_false_iff.mpr hbusy))
    · rename_i hstored
      exact contents_sendBuffered h hdrained.1 (Bool.eq_false_iff.mpr hstored)
  · rfl

theorem contents_storeDone {m : MongodbQueues π} (htask : m.task = .stored) :
    m.storeDone.contents = m.contents := by
  have hdrop : contents { m with task := .none, states := { m.states with storing := false } }
      = m.contents := by
    simp [contents, later, htask, QueueTask.batch, QueueTask.messages]
  unfold storeDone
  dsimp only
  split
  · exact (contents_startStoring rfl).trans hdrop
  · split
    · exact (contents_startFetching rfl).trans hdrop
    · exact hdrop

theorem contents_startNext {m : MongodbQueues π} (htask : m.task = .none) :
    m.startNext.contents = m.contents := by
  unfold startNext
  split
  · split
    · exact contents_startStoring htask
    · rfl
  · split
    · exact contents_startFetching htask
    · rfl

/-- A fetched batch takes its place in front of the documents. -/
theorem contents_fetchDone {m : MongodbQueues π} (h : Ordered m)
    {messages : List (Addr × TimedPkt π)} (htask : m.task = .fetched messages)
    (hplace : m.sending = [] ∨ (messages = [] ∧ m.buffer = [])) :
    (m.fetchDone messages).contents = m.contents := by
  have hdrained : messages = [] → m.documents = [] := by
    rintro rfl
    exact h.drained htask
  have hidle := ((h.dropFetched htask).takeFetched rfl hdrained).2
  refine (contents_startNext hidle).trans ?_
  unfold takeFetched
  split
  · rename_i hmessages
    have hsending : m.sending = [] := by
      rcases hplace with hsending | ⟨rfl, -⟩
      · exact hsending
      · cases hmessages
    simp [contents, later, hsending, htask, QueueTask.batch, QueueTask.messages, map_snd_cells]
  · rename_i hmessages
    have hnil : messages = [] := List.length_eq_zero_iff.mp (by omega)
    subst hnil
    have hdocuments := h.drained htask
    dsimp only
    split
    · rename_i hbuffer
      have hsending : m.sending = [] := by
        rcases hplace with hsending | ⟨-, hempty⟩
        · exact hsending
        · rw [hempty] at hbuffer
          cases hbuffer
      simp [contents, later, sendBuffered, hsending, htask, hdocuments, QueueTask.batch,
        QueueTask.messages, map_snd_cells]
    · simp [contents, later, htask, QueueTask.batch, QueueTask.messages]

theorem contents_progress {m : MongodbQueues π} (h : Ordered m) (malloc : Nat → Addr)
    (hplace : ∀ messages, m.task = .fetched messages →
      m.sending = [] ∨ (messages = [] ∧ m.buffer = [])) :
    (m.progress malloc).contents = m.contents := by
  unfold progress
  cases htask : m.task with
  | none => rfl
  | storing batch => simp [contents, later, htask, QueueTask.batch, QueueTask.messages]
  | stored => exact contents_storeDone htask
  | fetching =>
      have hfetched : (placed malloc 0 (m.documents.take 50)).map (TimedPkt.stored ∘ Prod.snd)
          = (m.documents.take 50).map TimedPkt.stored := by
        rw [← List.map_map, map_snd_placed]
      have hdocuments : (m.documents.take 50).map TimedPkt.stored ++
          (m.documents.drop 50).map TimedPkt.stored = m.documents.map TimedPkt.stored := by
        rw [← List.map_append, List.take_append_drop]
      simp only [contents, later, htask, QueueTask.batch, QueueTask.messages, hfetched,
        List.map_append, List.map_nil, List.nil_append]
      rw [← List.append_assoc (List.map TimedPkt.stored (m.documents.take 50)), hdocuments]
  | fetched messages => exact contents_fetchDone h htask (hplace messages htask)

/-! ### Somebody moves the packets -/

/-- While the sending queue is empty, nothing is left elsewhere, or a task is
under way that will be followed by a fetching task. -/
structure Live (m : MongodbQueues π) : Prop where
  idle : m.task = .none → m.sending = [] → m.states.hasBufferedMessages = false
  storing : m.task.stores = true → m.sending = [] → m.states.needFetch = true

theorem live_empty (window : Nat) (trigger : UInt16) :
    Live (empty window trigger : MongodbQueues π) :=
  ⟨fun _ _ => rfl, nofun⟩

namespace Live

variable {m : MongodbQueues π}

theorem of_sending (hsending : m.sending ≠ []) : Live m :=
  ⟨fun _ hempty => absurd hempty hsending, fun _ hempty => absurd hempty hsending⟩

theorem of_fetches (hfetches : m.task.fetches = true) : Live m := by
  refine ⟨?_, ?_⟩
  · intro htask
    rw [htask] at hfetches
    cases hfetches
  · intro hstores
    cases htask : m.task with
    | fetching => simp [htask, QueueTask.stores] at hstores
    | fetched messages => simp [htask, QueueTask.stores] at hstores
    | _ => simp [htask, QueueTask.fetches] at hfetches

/-- With room for a packet in the sending queue, a packet is buffered only when
the queue is not empty or a task is under way. -/
theorem storePublish (h : Live m) (hordered : Ordered m) (htrigger : 2 ≤ m.trigger.toNat)
    (addr : Addr) (pkt : CopiedPkt π) : Live (m.storePublish addr pkt) := by
  unfold MongodbQueues.storePublish
  split
  · refine of_sending ?_
    simp [send]
  · rename_i hbuffered
    have hwaits : m.task = .none → m.sending ≠ [] := by
      intro htask hempty
      apply hbuffered
      have hunbuffered := h.idle htask hempty
      refine ⟨?_, hunbuffered⟩
      rw [total, hempty, (hordered.unbuffered hunbuffered).1]
      simp only [List.length_nil]
      omega
    unfold startIfFull
    split
    · split
      · refine ⟨?_, h.storing⟩
        intro htask hempty
        exact absurd hempty (hwaits htask)
      · rename_i hbusy
        exact of_sending (hwaits (hordered.idle (Bool.eq_false_iff.mpr hbusy)))
    · refine ⟨?_, h.storing⟩
      intro htask hempty
      exact absurd hempty (hwaits htask)

theorem refill (hordered : Ordered m) : Live m.refill := by
  unfold MongodbQueues.refill
  split
  · split
    · split
      · rename_i hbusy
        refine ⟨?_, fun _ _ => rfl⟩
        intro htask
        rw [hordered.storing, hordered.fetching, show m.task = .none from htask] at hbusy
        cases hbusy
      · exact of_fetches rfl
    · rename_i hstored
      refine ⟨fun _ _ => rfl, ?_⟩
      intro hstores
      exact absurd (hordered.stored_of_stores hstores) hstored
  · rename_i hdrained
    refine ⟨?_, ?_⟩
    · intro _ hempty
      by_contra hbuffered
      exact hdrained ⟨hempty, Bool.not_eq_false _ ▸ hbuffered⟩
    · intro hstores hempty
      refine absurd ⟨hempty, ?_⟩ hdrained
      exact hordered.buffered_of_stored (hordered.stored_of_stores hstores)

theorem storeDone (h : Live m) (htask : m.task = .stored) : Live m.storeDone := by
  have hneeds : m.sending = [] → m.states.needFetch = true := h.storing (by rw [htask]; rfl)
  unfold MongodbQueues.storeDone
  dsimp only
  split
  · exact ⟨nofun, fun _ => hneeds⟩
  · split
    · exact of_fetches rfl
    · rename_i hfetch
      refine of_sending ?_
      intro hempty
      exact hfetch (hneeds hempty)

theorem fetchDone {messages : List (Addr × TimedPkt π)} : Live (m.fetchDone messages) := by
  -- packets are sent, or nothing is left in the other places
  have htaken : ∀ m : MongodbQueues π, (m.takeFetched messages).sending ≠ [] ∨
      ((m.takeFetched messages).states.hasBufferedMessages = false ∧
        (m.takeFetched messages).buffer = []) := by
    intro m
    unfold MongodbQueues.takeFetched
    split
    · rename_i hmessages
      refine .inl ?_
      simpa [cells] using List.ne_nil_of_length_pos hmessages
    · dsimp only
      split
      · rename_i hbuffer
        refine .inl ?_
        simpa [MongodbQueues.sendBuffered, cells] using List.ne_nil_of_length_pos hbuffer
      · rename_i hbuffer
        exact .inr ⟨rfl, List.length_eq_zero_iff.mp (Nat.eq_zero_of_not_pos hbuffer)⟩
  have hnext : ∀ m : MongodbQueues π, m.task = .none →
      (m.sending ≠ [] ∨ (m.states.hasBufferedMessages = false ∧ m.buffer = [])) →
        Live m.startNext := by
    intro m htask hcases
    unfold MongodbQueues.startNext
    split
    · split
      · rename_i hbuffer
        rcases hcases with hsending | ⟨-, hempty⟩
        · exact of_sending hsending
        · rw [hempty] at hbuffer
          cases hbuffer
      · rcases hcases with hsending | ⟨hunbuffered, -⟩
        · exact of_sending hsending
        · refine ⟨fun _ _ => hunbuffered, ?_⟩
          intro hstores
          rw [show m.task = .none from htask] at hstores
          cases hstores
    · split
      · exact of_fetches rfl
      · rcases hcases with hsending | ⟨hunbuffered, -⟩
        · exact of_sending hsending
        · refine ⟨fun _ _ => hunbuffered, ?_⟩
          intro hstores
          rw [htask] at hstores
          cases hstores
  refine hnext _ ?_ (htaken _)
  unfold MongodbQueues.takeFetched
  split
  · rfl
  · dsimp only
    split <;> rfl

theorem progress (h : Live m) (malloc : Nat → Addr) : Live (m.progress malloc) := by
  unfold MongodbQueues.progress
  cases htask : m.task with
  | none => exact h
  | storing batch =>
      refine ⟨nofun, ?_⟩
      intro _
      exact h.storing (by rw [htask]; rfl)
  | stored => exact h.storeDone htask
  | fetching => exact of_fetches rfl
  | fetched messages => exact fetchDone

theorem step (h : Live m) (hordered : Ordered m) (htrigger : 2 ≤ m.trigger.toNat)
    (call : MongodbCall π) : Live (m.step call) := by
  cases call with
  | storePublish malloc pkt => exact h.storePublish hordered htrigger malloc pkt
  | storePubrel malloc packetId =>
      refine of_sending ?_
      simp [MongodbQueues.step, send]
  | acknowledge packetId type qos => exact refill (hordered.setSending _)
  | progress index malloc => exact h.progress malloc

end Live

theorem trigger_startIfFull (m : MongodbQueues π) : m.startIfFull.trigger = m.trigger := by
  unfold startIfFull
  split
  · split <;> rfl
  · rfl

theorem trigger_refill (m : MongodbQueues π) : m.refill.trigger = m.trigger := by
  unfold refill
  split
  · split
    · split <;> rfl
    · rfl
  · rfl

theorem trigger_storeDone (m : MongodbQueues π) : m.storeDone.trigger = m.trigger := by
  unfold storeDone
  dsimp only
  split
  · rfl
  · split <;> rfl

theorem trigger_takeFetched (m : MongodbQueues π) (messages : List (Addr × TimedPkt π)) :
    (m.takeFetched messages).trigger = m.trigger := by
  unfold takeFetched
  split
  · rfl
  · dsimp only
    split <;> rfl

theorem trigger_startNext (m : MongodbQueues π) : m.startNext.trigger = m.trigger := by
  unfold startNext
  split
  · split <;> rfl
  · split <;> rfl

/-- The trigger never changes. -/
theorem trigger_step (m : MongodbQueues π) (call : MongodbCall π) :
    (m.step call).trigger = m.trigger := by
  cases call with
  | storePublish malloc pkt =>
      change (m.storePublish malloc pkt).trigger = m.trigger
      unfold storePublish
      split
      · rfl
      · exact trigger_startIfFull _
  | storePubrel malloc packetId => rfl
  | acknowledge packetId type qos => exact trigger_refill _
  | progress index malloc =>
      change (m.progress malloc).trigger = m.trigger
      unfold progress
      cases m.task with
      | none => rfl
      | storing batch => rfl
      | stored => exact trigger_storeDone m
      | fetching => rfl
      | fetched messages => exact (trigger_startNext _).trans (trigger_takeFetched _ messages)

end MongodbQueues

end TinyMqtt
