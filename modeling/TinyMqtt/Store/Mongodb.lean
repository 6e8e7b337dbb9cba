import Mathlib.Data.List.Sort
import TinyMqtt.Session.Session

/-!
The message store backed by MongoDB (`store/mqtt_msg_store.c` and
`db/mqtt_db.c`). Packets beyond a threshold are kept in a second linked list,
the buffer queue, and move to the database and back through tasks of the thread
pool. A task ends with a receipt, which the session's IO thread runs later. A
step that follows a null or freed pointer, or reads a PUBREL as a PUBLISH, has
no result.

The collection holds the documents of one session: storing appends to it, and
fetching returns and deletes those with the lowest timestamps. The timestamps
are a 64-bit counter, a natural number here.
-/

namespace TinyMqtt

open LinkedList

/-- The bits of `states`. -/
structure MongodbStates where
  hasBufferedMessages : Bool
  hasStoredMessages : Bool
  storing : Bool
  fetching : Bool
  needStore : Bool
  needFetch : Bool
  deriving DecidableEq, Repr

/-- `message_store_mongodb_t` without the public members. -/
structure MongodbStore where
  bufferQueueHead : Option Addr
  bufferQueueTail : Link
  trigger : UInt16
  bufferSize : UInt16
  states : MongodbStates
  deriving DecidableEq, Repr

/-- A document of the collection, without the client it belongs to. -/
structure Document (π : Type) where
  timestamp : Nat
  packetId : UInt16
  flags : UInt8
  topic : Bytes
  payload : π
  deriving DecidableEq, Repr

inductive DbTask where
  | storeMessages (packets : Option Addr) (nPackets : Nat)
  | storeReceipt
  | fetchMessages (limit : Nat)
  | fetchReceipt (nMessages : Nat) (messagesHead messagesTail : Option Addr)
  deriving DecidableEq, Repr

/-- A session with a MongoDB store, its documents and the tasks under way. -/
structure MongodbSession (π : Type) where
  session : Session π
  store : MongodbStore
  storeTimestamp : Nat
  /-- the field `store_timestamp` of the cells of the heap -/
  timestamps : Addr → Nat
  documents : List (Document π)
  tasks : List DbTask

variable {π : Type}

namespace MongodbSession

/-- A new session with `tmq_message_store_mongodb_new`. -/
def new (onPublishFinish : Bool) (nextPacketId : UInt16) (maxInflight : UInt8) (trigger : UInt16) :
    MongodbSession π where
  session := tmqSessionNew onPublishFinish nextPacketId maxInflight
  store := ⟨none, .head, trigger, 0, ⟨false, false, false, false, false, false⟩⟩
  storeTimestamp := 0
  timestamps := fun _ => 0
  documents := []
  tasks := []

def setStates (s : MongodbSession π) (states : MongodbStates) : MongodbSession π :=
  { s with store := { s.store with states := states } }

def setTotalSize (s : MongodbSession π) (totalSize : UInt16) : MongodbSession π :=
  { s with
    session :=
      { s.session with
        messageStore := { s.session.messageStore with totalSize := totalSize } } }

def initiateStoringTask (s : MongodbSession π) : MongodbSession π :=
  let totalSize := s.session.messageStore.totalSize - s.store.bufferSize
  { s.setTotalSize totalSize with
    store :=
      { s.store with
        bufferSize := 0
        bufferQueueHead := none
        bufferQueueTail := .head
        states := { s.store.states with
          needStore := false, storing := true, hasStoredMessages := true } }
    tasks := s.tasks ++ [.storeMessages s.store.bufferQueueHead s.store.bufferSize.toNat] }

def initiateFetchingTask (s : MongodbSession π) : MongodbSession π :=
  { s.setStates { s.store.states with fetching := true, needFetch := false } with
    tasks := s.tasks ++ [.fetchMessages 50] }

def storeMessageDone (s : MongodbSession π) : MongodbSession π :=
  let s := s.setStates { s.store.states with storing := false }
  if s.store.states.needStore then s.initiateStoringTask
  else if s.store.states.needFetch then s.initiateFetchingTask
  else s

/-- `use_buffered_messages`. The link behind the last packet is read as a
pointer to that packet; behind none it is no packet. -/
def useBufferedMessages (s : MongodbSession π) : Option (MongodbSession π) := do
  let tail ← linkAsPacket s.store.bufferQueueTail
  some { s with
    session :=
      { s.session with
        messageStore :=
          { s.session.messageStore with
            sendingQueueHead := s.store.bufferQueueHead
            sendingQueueTail := some tail
            pendingPointer := none } }
    store :=
      { s.store with
        bufferQueueHead := none
        bufferQueueTail := .head
        bufferSize := 0
        states := { s.store.states with hasBufferedMessages := false } } }

end MongodbSession

section Send

variable [TmqString π]

/-- The loop of `continue_send_messages` from `p` on, with room for so many
packets: the packet it stops at. -/
def continueSendFrom : Nat → Session π → Option Addr → Option (Option Addr × Session π)
  | 0, session, p => some (p, session)
  | _ + 1, session, none => some (none, session)
  | room + 1, session, some addr => do
      let cell ← session.heap addr
      match cell.value.packet with
      | .publish pkt =>
          let session := tmqSessionSendPacket session (.publish (tmqPublishPktClone pkt))
          continueSendFrom room
            { session with inflightPackets := session.inflightPackets + 1 } cell.next
      | _ => none

def continueSendMessages (session : Session π) : Option (Session π) := do
  let (p, session) ← continueSendFrom
    (session.inflightWindowSize.toNat - session.inflightPackets.toNat) session
    session.messageStore.sendingQueueHead
  some { session with
    messageStore :=
      { session.messageStore with pendingPointer := p.or session.messageStore.pendingPointer } }

namespace MongodbSession

/-- `use_buffered_messages` followed by `continue_send_messages`. -/
def sendBufferedMessages (s : MongodbSession π) : Option (MongodbSession π) := do
  let s ← s.useBufferedMessages
  let session ← continueSendMessages s.session
  some { s with session := session }

/-- The messages a fetching task has returned, in `fetch_message_done`. -/
def takeFetchedMessages (s : MongodbSession π) (nMessages : Nat)
    (messagesHead messagesTail : Option Addr) : Option (MongodbSession π) :=
  if 0 < nMessages then do
    let session ← continueSendMessages
      { s.session with
        messageStore :=
          { totalSize := s.session.messageStore.totalSize + UInt16.ofNat nMessages
            sendingQueueHead := messagesHead
            sendingQueueTail := messagesTail
            pendingPointer := none } }
    some { s with session := session }
  else
    let s := s.setStates { s.store.states with hasStoredMessages := false }
    if 0 < s.store.bufferSize then s.sendBufferedMessages
    else some (s.setStates { s.store.states with hasBufferedMessages := false })

def fetchMessageDone (s : MongodbSession π) (nMessages : Nat)
    (messagesHead messagesTail : Option Addr) : Option (MongodbSession π) := do
  let s := s.setStates { s.store.states with fetching := false }
  let s ← s.takeFetchedMessages nMessages messagesHead messagesTail
  some (if s.store.states.needStore then
      if 0 < s.store.bufferSize then s.initiateStoringTask
      else s.setStates { s.store.states with needStore := false }
    else if s.store.states.needFetch then s.initiateFetchingTask
    else s)

/-- A packet that `mongodb_store_store_message` puts into the buffer queue. -/
def bufferMessage (s : MongodbSession π) (sendingPkt : Addr) : Option (MongodbSession π) := do
  let (heap, head) ← writeLink s.session.heap s.store.bufferQueueHead s.store.bufferQueueTail
    (some sendingPkt)
  let totalSize := s.session.messageStore.totalSize + 1
  let s := { s.setTotalSize totalSize with
    store :=
      { s.store with
        bufferSize := s.store.bufferSize + 1
        bufferQueueHead := head
        bufferQueueTail := .next sendingPkt
        states := { s.store.states with hasBufferedMessages := true } } }
  let s := { s with session := { s.session with heap := heap } }
  some (if s.store.trigger ≤ totalSize then
      if s.store.states.fetching || s.store.states.storing then
        s.setStates { s.store.states with needStore := true }
      else s.initiateStoringTask
    else s)

def mongodbStoreStoreMessage (s : MongodbSession π) (sendingPkt : Addr) :
    Option (Bool × MongodbSession π) := do
  let s := { s with
    storeTimestamp := s.storeTimestamp + 1
    timestamps := Function.update s.timestamps sendingPkt s.storeTimestamp }
  let cell ← s.session.heap sendingPkt
  if (s.session.messageStore.totalSize < s.store.trigger / 2 ∧
      s.store.states.hasBufferedMessages = false) ∨ cell.value.packet.packetType = .pubrel then do
    let (sendNow, session) ← memoryStoreStoreMessage s.session sendingPkt
    some (sendNow, { s with session := session })
  else do
    let s ← s.bufferMessage sendingPkt
    some (false, s)

/-- What `mongodb_store_acknowledge` does when the sending queue is empty and
there are messages elsewhere. -/
def refillSendingQueue (s : MongodbSession π) : Option (MongodbSession π) :=
  let states := s.store.states
  if s.session.messageStore.totalSize = s.store.bufferSize ∧ states.hasBufferedMessages = true then
    if states.hasStoredMessages then
      if states.fetching || states.storing then
        some (s.setStates { states with needFetch := true })
      else some s.initiateFetchingTask
    else s.sendBufferedMessages
  else some s

def mongodbStoreAcknowledge (s : MongodbSession π) (packetId : UInt16) (type : PacketType)
    (qos : Int) : Option (Option Addr × MongodbSession π) := do
  let (next, session) ← memoryStoreAcknowledge s.session packetId type qos
  let s ← { s with session := session }.refillSendingQueue
  some (next, s)

end MongodbSession

/-! ### The tasks of the thread pool -/

/-- The document of a packet of the buffer queue, which is read as a PUBLISH.
Strings are stored as C strings. -/
def Document.ofPacket (timestamp : Nat) (stored : StoredPacket π) : Option (Document π) :=
  match stored.packet with
  | .publish pkt =>
      some
        { timestamp := timestamp, packetId := stored.packetId, flags := pkt.flags,
          topic := tmqStrNew pkt.topic, payload := tmqStrNew pkt.payload }
  | _ => none

/-- The packet made from a document. -/
def Document.toPacket (document : Document π) : StoredPacket π :=
  { packetId := document.packetId
    packet := .publish
      { flags := document.flags, topic := tmqStrNew document.topic, packetId := document.packetId
        payload := tmqStrNew document.payload } }

/-- The loop of `store_messages_to_mongodb`, which frees the packets it has
read: the documents and the heap. -/
def storeMessagesToMongodb (timestamps : Addr → Nat) :
    Nat → Heap (StoredPacket π) → Option Addr → Option (List (Document π) × Heap (StoredPacket π))
  | 0, heap, _ => some ([], heap)
  | n + 1, heap, p => do
      let addr ← p
      let cell ← heap addr
      let document ← Document.ofPacket (timestamps addr) cell.value
      let (documents, heap) ← storeMessagesToMongodb timestamps n
        (Function.update heap addr none) cell.next
      some (document :: documents, heap)

/-- The loop of `fetch_messages_from_mongodb`, with the link `p` at which the
next packet is hung. The packets are created at the addresses that `malloc`
returns, one after the other. -/
def fetchMessagesLoop (malloc : Nat → Addr) :
    List (Document π) → Nat → Heap (StoredPacket π) × Option Addr × Link →
      Option (Heap (StoredPacket π) × Option Addr × Link)
  | [], _, result => some result
  | document :: documents, cnt, (heap, head, p) => do
      let (heap, head) ← writeLink heap head p (some (malloc cnt))
      fetchMessagesLoop malloc documents (cnt + 1)
        (Function.update heap (malloc cnt) (some ⟨none, document.toPacket⟩), head,
          .next (malloc cnt))

def sortedDocuments (documents : List (Document π)) : List (Document π) :=
  documents.insertionSort fun first second => first.timestamp ≤ second.timestamp

namespace MongodbSession

/-- A task of the thread pool that runs, or the IO thread that runs the receipt
of one: `store_messages_in_thread_pool`, `fetch_messages_in_thread_pool`, and
the two receipt routines. -/
def progress (s : MongodbSession π) (malloc : Nat → Addr) : DbTask → Option (MongodbSession π)
  | .storeMessages packets nPackets => do
      let (documents, heap) ← storeMessagesToMongodb s.timestamps nPackets s.session.heap packets
      some { s with
        session := { s.session with heap := heap }
        documents := s.documents ++ documents
        tasks := s.tasks ++ [.storeReceipt] }
  | .storeReceipt => some s.storeMessageDone
  | .fetchMessages limit => do
      let documents := sortedDocuments s.documents
      let fetched := documents.take limit
      let (heap, head, p) ← fetchMessagesLoop malloc fetched 0 (s.session.heap, none, .head)
      some { s with
        session := { s.session with heap := heap }
        documents := documents.drop limit
        tasks := s.tasks ++ [.fetchReceipt fetched.length head (linkAsPacket p)] }
  | .fetchReceipt nMessages messagesHead messagesTail =>
      s.fetchMessageDone nMessages messagesHead messagesTail

end MongodbSession

/-- A PUBLISH packet whose strings are C strings, as in every copy. -/
abbrev CopiedPkt (π : Type) [TmqString π] := { pkt : PublishPkt π // tmqPublishPktClone pkt = pkt }

/-- What happens to a session with a MongoDB store. -/
inductive MongodbCall (π : Type) [TmqString π] where
  | storePublish (malloc : Addr) (pkt : CopiedPkt π)
  | storePubrel (malloc : Addr) (packetId : UInt16)
  | acknowledge (packetId : UInt16) (type : PacketType) (qos : Int)
  /-- the task, or receipt, with this index goes on -/
  | progress (index : Nat) (malloc : Nat → Addr)

namespace MongodbSession

def storePacket (s : MongodbSession π) (malloc : Addr) (stored : StoredPacket π) :
    Option (MongodbSession π) := do
  let session := s.session.sendingPacketNew malloc stored.packetId stored.packet
  let (_, s) ← { s with session := session }.mongodbStoreStoreMessage malloc
  some s

def step (s : MongodbSession π) : MongodbCall π → Option (MongodbSession π)
  | .storePublish malloc pkt => s.storePacket malloc ⟨pkt.1.packetId, .publish pkt⟩
  | .storePubrel malloc packetId => s.storePacket malloc ⟨packetId, .pubrel packetId⟩
  | .acknowledge packetId type qos => do
      let (_, s) ← s.mongodbStoreAcknowledge packetId type qos
      some s
  | .progress index malloc => do
      let task ← s.tasks[index]?
      { s with tasks := s.tasks.eraseIdx index }.progress malloc task

end MongodbSession

end Send

end TinyMqtt
