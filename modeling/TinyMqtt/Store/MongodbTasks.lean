import TinyMqtt.Store.Mongodb
import TinyMqtt.Lib.Run

/-!
The tasks of a MongoDB store. Whatever a store, an acknowledgement or a
completion does, a task is started only when none is under way, and the two
bits tell which kind it is.
-/

namespace TinyMqtt

open LinkedList

def DbTask.stores : DbTask → Bool
  | .storeMessages _ _ | .storeReceipt => true
  | .fetchMessages _ | .fetchReceipt _ _ _ => false

def DbTask.fetches (task : DbTask) : Bool := !task.stores

variable {π : Type}

namespace MongodbSession

/-- At most one task is under way, and STORING and FETCHING tell of which kind. -/
structure OneTask (s : MongodbSession π) : Prop where
  atMostOne : s.tasks.length ≤ 1
  storing : s.store.states.storing = true ↔ ∃ task ∈ s.tasks, task.stores = true
  fetching : s.store.states.fetching = true ↔ ∃ task ∈ s.tasks, task.fetches = true

/-- No task is under way, and the bits say so. -/
structure Idle (s : MongodbSession π) : Prop where
  tasks : s.tasks = []
  storing : s.store.states.storing = false
  fetching : s.store.states.fetching = false

structure SameTasks (before after : MongodbSession π) : Prop where
  tasks : after.tasks = before.tasks
  storing : after.store.states.storing = before.store.states.storing
  fetching : after.store.states.fetching = before.store.states.fetching

theorem OneTask.of_same {before after : MongodbSession π} (hone : OneTask before)
    (h : SameTasks before after) : OneTask after := by
  refine ⟨?_, ?_, ?_⟩
  · rw [h.tasks]
    exact hone.atMostOne
  · rw [h.tasks, h.storing]
    exact hone.storing
  · rw [h.tasks, h.fetching]
    exact hone.fetching

theorem SameTasks.idle {before after : MongodbSession π} (h : SameTasks before after)
    (hidle : Idle before) : Idle after :=
  ⟨h.tasks.trans hidle.tasks, h.storing.trans hidle.storing, h.fetching.trans hidle.fetching⟩

theorem Idle.oneTask {s : MongodbSession π} (h : Idle s) : OneTask s := by
  refine ⟨?_, ?_, ?_⟩
  · simp [h.tasks]
  · simp [h.tasks, h.storing]
  · simp [h.tasks, h.fetching]

/-- The guard under which the store starts a task. -/
theorem OneTask.idle {s : MongodbSession π} (h : OneTask s)
    (hbits : (s.store.states.fetching || s.store.states.storing) = false) : Idle s := by
  obtain ⟨hfetching, hstoring⟩ := Bool.or_eq_false_iff.mp hbits
  refine ⟨?_, hstoring, hfetching⟩
  rw [List.eq_nil_iff_forall_not_mem]
  intro task hmem
  cases hkind : task.stores with
  | true => simp [h.storing.mpr ⟨task, hmem, hkind⟩] at hstoring
  | false =>
      have hfetches : task.fetches = true := by simp [DbTask.fetches, hkind]
      simp [h.fetching.mpr ⟨task, hmem, hfetches⟩] at hfetching

theorem Idle.initiateStoringTask {s : MongodbSession π} (h : Idle s) :
    OneTask s.initiateStoringTask := by
  refine ⟨?_, ?_, ?_⟩
  · simp [MongodbSession.initiateStoringTask, setTotalSize, h.tasks]
  · simp [MongodbSession.initiateStoringTask, setTotalSize, h.tasks, DbTask.stores]
  · simp [MongodbSession.initiateStoringTask, setTotalSize, h.tasks, h.fetching, DbTask.fetches,
      DbTask.stores]

theorem Idle.initiateFetchingTask {s : MongodbSession π} (h : Idle s) :
    OneTask s.initiateFetchingTask := by
  refine ⟨?_, ?_, ?_⟩
  · simp [MongodbSession.initiateFetchingTask, setStates, h.tasks]
  · simp [MongodbSession.initiateFetchingTask, setStates, h.tasks, h.storing, DbTask.stores]
  · simp [MongodbSession.initiateFetchingTask, setStates, h.tasks, DbTask.fetches, DbTask.stores]

/-- The task that is under way is taken out of the list. -/
theorem OneTask.only {s : MongodbSession π} (h : OneTask s) {index : Nat} {task : DbTask}
    (htask : s.tasks[index]? = some task) :
    s.tasks = [task] ∧ s.tasks.eraseIdx index = [] ∧ s.store.states.storing = task.stores ∧
      s.store.states.fetching = task.fetches := by
  have hone := h.atMostOne
  obtain ⟨hindex, hget⟩ := List.getElem?_eq_some_iff.mp htask
  obtain ⟨only, honly⟩ : ∃ only, s.tasks = [only] := List.length_eq_one_iff.mp (by omega)
  have hzero : index = 0 := by omega
  subst hzero
  obtain rfl : only = task := by simpa [honly] using htask
  have hstoring := h.storing
  have hfetching := h.fetching
  simp only [honly, List.mem_singleton, exists_eq_left] at hstoring hfetching
  exact ⟨honly, by simp [honly], Bool.eq_iff_iff.mpr hstoring, Bool.eq_iff_iff.mpr hfetching⟩

theorem sameTasks_useBufferedMessages {s next : MongodbSession π}
    (hstep : s.useBufferedMessages = some next) : SameTasks s next := by
  obtain ⟨tail, -, hnext⟩ := Option.bind_eq_some_iff.mp hstep
  obtain rfl := Option.some.inj hnext
  exact ⟨rfl, rfl, rfl⟩

variable [TmqString π]

theorem sameTasks_sendBufferedMessages {s next : MongodbSession π}
    (hstep : s.sendBufferedMessages = some next) : SameTasks s next := by
  obtain ⟨used, hused, hsend⟩ := Option.bind_eq_some_iff.mp hstep
  obtain ⟨session, -, hnext⟩ := Option.bind_eq_some_iff.mp hsend
  obtain rfl := Option.some.inj hnext
  have hsame := sameTasks_useBufferedMessages hused
  exact ⟨hsame.tasks, hsame.storing, hsame.fetching⟩

theorem sameTasks_takeFetchedMessages {s next : MongodbSession π} {nMessages : Nat}
    {messagesHead messagesTail : Option Addr}
    (hstep : s.takeFetchedMessages nMessages messagesHead messagesTail = some next) :
    SameTasks s next := by
  unfold takeFetchedMessages at hstep
  by_cases hmessages : 0 < nMessages
  · rw [if_pos hmessages] at hstep
    obtain ⟨session, -, hnext⟩ := Option.bind_eq_some_iff.mp hstep
    obtain rfl := Option.some.inj hnext
    exact ⟨rfl, rfl, rfl⟩
  · rw [if_neg hmessages] at hstep
    dsimp only at hstep
    split at hstep
    · have hsame := sameTasks_sendBufferedMessages hstep
      exact ⟨hsame.tasks, hsame.storing, hsame.fetching⟩
    · obtain rfl := Option.some.inj hstep
      exact ⟨rfl, rfl, rfl⟩

omit [TmqString π] in
theorem oneTask_storeMessageDone {s : MongodbSession π} (htasks : s.tasks = [])
    (hfetching : s.store.states.fetching = false) : OneTask s.storeMessageDone := by
  have hidle : Idle (s.setStates { s.store.states with storing := false }) :=
    ⟨htasks, rfl, hfetching⟩
  unfold storeMessageDone
  dsimp only
  split
  · exact hidle.initiateStoringTask
  · split
    · exact hidle.initiateFetchingTask
    · exact hidle.oneTask

theorem oneTask_fetchMessageDone {s next : MongodbSession π} {nMessages : Nat}
    {messagesHead messagesTail : Option Addr} (htasks : s.tasks = [])
    (hstoring : s.store.states.storing = false)
    (hstep : s.fetchMessageDone nMessages messagesHead messagesTail = some next) :
    OneTask next := by
  have hidle : Idle (s.setStates { s.store.states with fetching := false }) :=
    ⟨htasks, hstoring, rfl⟩
  obtain ⟨taken, htaken, hnext⟩ := Option.bind_eq_some_iff.mp hstep
  have hidle' := (sameTasks_takeFetchedMessages htaken).idle hidle
  obtain rfl := Option.some.inj hnext
  split
  · split
    · exact hidle'.initiateStoringTask
    · exact Idle.oneTask ⟨hidle'.tasks, hidle'.storing, hidle'.fetching⟩
  · split
    · exact hidle'.initiateFetchingTask
    · exact hidle'.oneTask

omit [TmqString π] in
theorem oneTask_bufferMessage {s next : MongodbSession π} {sendingPkt : Addr}
    (hstep : s.bufferMessage sendingPkt = some next) (h : OneTask s) : OneTask next := by
  obtain ⟨⟨heap, head⟩, -, hnext⟩ := Option.bind_eq_some_iff.mp hstep
  obtain rfl := Option.some.inj hnext
  have hbuffered : ∀ buffered : MongodbSession π, SameTasks s buffered →
      OneTask (if buffered.store.trigger ≤ buffered.session.messageStore.totalSize then
        if buffered.store.states.fetching || buffered.store.states.storing then
          buffered.setStates { buffered.store.states with needStore := true }
        else buffered.initiateStoringTask
      else buffered) := by
    intro buffered hsame
    split
    · split
      · exact h.of_same ⟨hsame.tasks, hsame.storing, hsame.fetching⟩
      · rename_i hbits
        exact ((h.of_same hsame).idle (Bool.eq_false_iff.mpr hbits)).initiateStoringTask
    · exact h.of_same hsame
  exact hbuffered _ ⟨rfl, rfl, rfl⟩

omit [TmqString π] in
theorem oneTask_storePacket {s next : MongodbSession π} (h : OneTask s) {malloc : Addr}
    {stored : StoredPacket π} (hstep : s.storePacket malloc stored = some next) :
    OneTask next := by
  obtain ⟨⟨sendNow, after⟩, hstore, hnext⟩ := Option.bind_eq_some_iff.mp hstep
  obtain rfl := Option.some.inj hnext
  obtain ⟨cell, -, hstore⟩ := Option.bind_eq_some_iff.mp hstore
  split at hstore
  · obtain ⟨⟨sendNow, session⟩, -, hnext⟩ := Option.bind_eq_some_iff.mp hstore
    obtain ⟨-, rfl⟩ : _ ∧ _ := by simpa using hnext
    exact h.of_same ⟨rfl, rfl, rfl⟩
  · obtain ⟨buffered, hbuffer, hnext⟩ := Option.bind_eq_some_iff.mp hstore
    obtain ⟨-, rfl⟩ : _ ∧ _ := by simpa using hnext
    exact oneTask_bufferMessage hbuffer (h.of_same ⟨rfl, rfl, rfl⟩)

theorem oneTask_refillSendingQueue {s next : MongodbSession π}
    (hstep : s.refillSendingQueue = some next) (h : OneTask s) : OneTask next := by
  unfold refillSendingQueue at hstep
  dsimp only at hstep
  split at hstep
  · split at hstep
    · split at hstep
      · obtain rfl := Option.some.inj hstep
        exact h.of_same ⟨rfl, rfl, rfl⟩
      · rename_i hbits
        obtain rfl := Option.some.inj hstep
        exact (h.idle (Bool.eq_false_iff.mpr hbits)).initiateFetchingTask
    · exact h.of_same (sameTasks_sendBufferedMessages hstep)
  · obtain rfl := Option.some.inj hstep
    exact h

theorem oneTask_mongodbStoreAcknowledge {s after : MongodbSession π} (h : OneTask s)
    {packetId : UInt16} {type : PacketType} {qos : Int} {next : Option Addr}
    (hstep : s.mongodbStoreAcknowledge packetId type qos = some (next, after)) :
    OneTask after := by
  obtain ⟨⟨pending, session⟩, -, hstep⟩ := Option.bind_eq_some_iff.mp hstep
  obtain ⟨filled, hfill, hnext⟩ := Option.bind_eq_some_iff.mp hstep
  obtain ⟨-, rfl⟩ : _ ∧ _ := by simpa using hnext
  exact oneTask_refillSendingQueue hfill (h.of_same ⟨rfl, rfl, rfl⟩)

/-- A task that goes on leaves a receipt of its kind; a receipt may start the
next task. -/
theorem oneTask_progress {s next : MongodbSession π} {task : DbTask} {malloc : Nat → Addr}
    (hstep : s.progress malloc task = some next) (htasks : s.tasks = [])
    (hstoring : s.store.states.storing = task.stores)
    (hfetching : s.store.states.fetching = task.fetches) : OneTask next := by
  cases task with
  | storeMessages packets nPackets =>
      obtain ⟨⟨documents, heap⟩, -, hnext⟩ := Option.bind_eq_some_iff.mp hstep
      obtain rfl := Option.some.inj hnext
      refine ⟨?_, ?_, ?_⟩ <;> simp [htasks, hstoring, hfetching, DbTask.fetches, DbTask.stores]
  | storeReceipt =>
      obtain rfl := Option.some.inj hstep
      exact oneTask_storeMessageDone htasks hfetching
  | fetchMessages limit =>
      obtain ⟨⟨heap, head, p⟩, -, hnext⟩ := Option.bind_eq_some_iff.mp hstep
      obtain rfl := Option.some.inj hnext
      refine ⟨?_, ?_, ?_⟩ <;> simp [htasks, hstoring, hfetching, DbTask.fetches, DbTask.stores]
  | fetchReceipt nMessages messagesHead messagesTail =>
      exact oneTask_fetchMessageDone htasks hstoring hstep

theorem oneTask_step {s next : MongodbSession π} (h : OneTask s) (call : MongodbCall π)
    (hstep : s.step call = some next) : OneTask next := by
  cases call with
  | storePublish malloc pkt => exact oneTask_storePacket h hstep
  | storePubrel malloc packetId => exact oneTask_storePacket h hstep
  | acknowledge packetId type qos =>
      obtain ⟨⟨pending, after⟩, hack, hnext⟩ := Option.bind_eq_some_iff.mp hstep
      obtain rfl := Option.some.inj hnext
      exact oneTask_mongodbStoreAcknowledge h hack
  | progress index malloc =>
      obtain ⟨task, htask, hprogress⟩ := Option.bind_eq_some_iff.mp hstep
      obtain ⟨-, hrest, hstoring, hfetching⟩ := h.only htask
      exact oneTask_progress hprogress hrest hstoring hfetching

/-- At most one database task per session: in every state a new session with a
MongoDB store reaches. -/
theorem oneTask_of_runs (onPublishFinish : Bool) (nextPacketId : UInt16) (maxInflight : UInt8)
    (trigger : UInt16) (calls : List (MongodbCall π)) (final : MongodbSession π)
    (hrun : Run.runs step (new onPublishFinish nextPacketId maxInflight trigger) calls
      = some final) : OneTask final := by
  have hnew : Idle (new onPublishFinish nextPacketId maxInflight trigger : MongodbSession π) :=
    ⟨rfl, rfl, rfl⟩
  refine Run.runs_maintains ?_ hnew.oneTask hrun
  intro s call next h hstep
  exact oneTask_step h call hstep

def samplePkt (packetId : UInt16) : CopiedPkt Bytes := ⟨⟨2, [97], packetId, [112]⟩, rfl⟩

/-- With a trigger of two the first packet stays in the sending queue, the
second is buffered and stored; an acknowledgement of the first then asks for the
documents. -/
def sampleStoreCalls : List (MongodbCall Bytes) :=
  [.storePublish 1 (samplePkt 1), .storePublish 2 (samplePkt 2), .acknowledge 1 .publish 1,
    .progress 0 id, .progress 0 id]

theorem oneTask_sampleStoreCalls :
    ∃ final, Run.runs step (new false 1 4 2) sampleStoreCalls = some final ∧
      final.tasks = [.fetchMessages 50] ∧ OneTask final := by
  refine ⟨_, rfl, rfl, ?_⟩
  exact oneTask_of_runs false 1 4 2 sampleStoreCalls _ rfl

end MongodbSession

end TinyMqtt
