import Mathlib.Data.Fintype.Basic
import TinyMqtt.Lib.LinkChain
import TinyMqtt.Lib.Run

/-!
The message queue of the thread pool (`thrdpool/msgqueue.c`). Any number of
threads put and get messages, one statement at a time and in any order. A
message is linked through a pointer in itself; the queue has two lists, one to
put to and one to get from, which are swapped when the second one is empty.

A condition variable keeps no count: a signal wakes the threads that wait, and a
thread may wake without one. Only the thread that holds `get_mutex` waits for
`get_cond`, so a signal for one thread and one for all wake the same.
-/

namespace TinyMqtt

/-- A place that holds a pointer to a link: `head1`, `head2` or the link in a
message. -/
inductive MsgLink (M : Type) where
  | head1 | head2
  | of (msg : M)
  deriving DecidableEq, Repr

/-- The head that is not this one. -/
def MsgLink.other {M : Type} : MsgLink M → MsgLink M
  | head1 => head2
  | head2 => head1
  | of msg => of msg

/-- The statement that a thread executes next. -/
inductive MsgqueuePc (M : Type) where
  /-- in no function of the queue -/
  | idle
  /-- `msgqueue_put` -/
  | putLock (msg : M)
  | putTest (msg : M)
  | putWait (msg : M)
  | putStore (msg : M)
  | putAdvance (msg : M)
  | putCount
  | putUnlock
  | putSignal
  /-- `msgqueue_get` -/
  | getLock
  | getTest
  /-- `__msgqueue_swap`, with its variables `get_head` and `cnt` -/
  | swapBegin
  | swapLock (getHead : MsgLink M)
  | swapTest (getHead : MsgLink M)
  | swapWait (getHead : MsgLink M)
  | swapCount (getHead : MsgLink M)
  | swapPutHead (getHead : MsgLink M) (cnt : Nat)
  | swapPutTail (getHead : MsgLink M) (cnt : Nat)
  | swapReset (cnt : Nat)
  | swapUnlock (cnt : Nat)
  /-- `msgqueue_get` again, with its variable `msg` -/
  | getTake
  | getUnlink (msg : M)
  | getUnlock (msg : Option M)
  /-- `msgqueue_set_nonblock` -/
  | nonblockLock
  | nonblockSignal
  | nonblockBroadcast
  | nonblockUnlock
  deriving DecidableEq, Repr

/-- `struct __msgqueue` with the links of the messages and the threads: where
each of them stands and whether one that waits was woken. `puts` and `gots` are
the messages stored and unlinked so far. -/
structure Msgqueue (T M : Type) where
  msgMax : Nat
  msgCnt : Nat
  nonblock : Bool
  links : MsgLink M → Option M
  getHead : MsgLink M
  putHead : MsgLink M
  putTail : MsgLink M
  getMutex : Option T
  putMutex : Option T
  pc : T → MsgqueuePc M
  woken : T → Bool
  puts : List M
  gots : List M

namespace Msgqueue

open MsgqueuePc

variable {T M : Type}

def msgqueueCreate (maxlen : Nat) : Msgqueue T M :=
  { msgMax := maxlen, msgCnt := 0, nonblock := false, links := fun _ => none, getHead := .head1,
    putHead := .head2, putTail := .head2, getMutex := none, putMutex := none, pc := fun _ => idle,
    woken := fun _ => false, puts := [], gots := [] }

/-- `queue->msg_cnt > queue->msg_max - 1` in numbers of 64 bits. -/
def full (queue : Msgqueue T M) : Bool := (queue.msgMax + (2 ^ 64 - 1)) % 2 ^ 64 < queue.msgCnt

variable [DecidableEq T] [DecidableEq M]

def goto (queue : Msgqueue T M) (t : T) (pc : MsgqueuePc M) : Msgqueue T M :=
  { queue with pc := Function.update queue.pc t pc }

def sleep (queue : Msgqueue T M) (t : T) : Msgqueue T M :=
  { queue with woken := Function.update queue.woken t false }

def isSwapWait : MsgqueuePc M → Bool
  | swapWait _ => true
  | _ => false

def isPutWait : MsgqueuePc M → Bool
  | putWait _ => true
  | _ => false

def signalGet (queue : Msgqueue T M) : Msgqueue T M :=
  { queue with woken := fun t => queue.woken t || isSwapWait (queue.pc t) }

def broadcastPut (queue : Msgqueue T M) : Msgqueue T M :=
  { queue with woken := fun t => queue.woken t || isPutWait (queue.pc t) }

def lockPut (queue : Msgqueue T M) (t : T) (pc : MsgqueuePc M) : Option (Msgqueue T M) :=
  if queue.putMutex = none then some ({ queue with putMutex := some t }.goto t pc) else none

/-- One statement of a thread. A thread that waits for a mutex or for a signal
does none, and a null pointer is not followed. -/
def advance (queue : Msgqueue T M) (t : T) : Option (Msgqueue T M) :=
  match queue.pc t with
  | idle => none
  | putLock msg => queue.lockPut t (putTest msg)
  | putTest msg =>
      if queue.full ∧ queue.nonblock = false then
        some (({ queue with putMutex := none }.sleep t).goto t (putWait msg))
      else some (queue.goto t (putStore msg))
  | putWait msg => if queue.woken t then queue.lockPut t (putTest msg) else none
  | putStore msg =>
      some ({ queue with
        links := Function.update queue.links queue.putTail (some msg)
        puts := queue.puts ++ [msg] }.goto t (putAdvance msg))
  | putAdvance msg => some ({ queue with putTail := .of msg }.goto t putCount)
  | putCount => some ({ queue with msgCnt := queue.msgCnt + 1 }.goto t putUnlock)
  | putUnlock => some ({ queue with putMutex := none }.goto t putSignal)
  | putSignal => some (queue.signalGet.goto t idle)
  | getLock =>
      if queue.getMutex = none then some ({ queue with getMutex := some t }.goto t getTest)
      else none
  | getTest =>
      if (queue.links queue.getHead).isSome then some (queue.goto t getTake)
      else some (queue.goto t swapBegin)
  | swapBegin =>
      some ({ queue with getHead := queue.putHead }.goto t (swapLock queue.getHead))
  | swapLock getHead => queue.lockPut t (swapTest getHead)
  | swapTest getHead =>
      if queue.msgCnt = 0 ∧ queue.nonblock = false then
        some (({ queue with putMutex := none }.sleep t).goto t (swapWait getHead))
      else some (queue.goto t (swapCount getHead))
  | swapWait getHead => if queue.woken t then queue.lockPut t (swapTest getHead) else none
  | swapCount getHead =>
      some ((if queue.full then queue.broadcastPut else queue).goto t
        (swapPutHead getHead queue.msgCnt))
  | swapPutHead getHead cnt =>
      some ({ queue with putHead := getHead }.goto t (swapPutTail getHead cnt))
  | swapPutTail getHead cnt => some ({ queue with putTail := getHead }.goto t (swapReset cnt))
  | swapReset cnt => some ({ queue with msgCnt := 0 }.goto t (swapUnlock cnt))
  | swapUnlock cnt =>
      some ({ queue with putMutex := none }.goto t (if 0 < cnt then getTake else getUnlock none))
  | getTake => (queue.links queue.getHead).map fun msg => queue.goto t (getUnlink msg)
  | getUnlink msg =>
      (queue.links queue.getHead).map fun first =>
        { queue with
          links := Function.update queue.links queue.getHead (queue.links (.of first))
          gots := queue.gots ++ [msg] }.goto t (getUnlock (some msg))
  | getUnlock _ => some ({ queue with getMutex := none }.goto t idle)
  | nonblockLock => queue.lockPut t nonblockSignal
  | nonblockSignal => some (queue.signalGet.goto t nonblockBroadcast)
  | nonblockBroadcast => some (queue.broadcastPut.goto t nonblockUnlock)
  | nonblockUnlock => some ({ queue with putMutex := none }.goto t idle)

/-- What may happen: a thread calls a function, goes on, or wakes without a
signal. -/
inductive Action (T M : Type) where
  | put (t : T) (msg : M)
  | get (t : T)
  | setNonblock (t : T)
  | setBlock (t : T)
  | run (t : T)
  | wake (t : T)

/-- A call begins with the statements before its first lock. -/
def step (queue : Msgqueue T M) : Action T M → Option (Msgqueue T M)
  | .put t msg =>
      if queue.pc t = idle then
        some ({ queue with links := Function.update queue.links (.of msg) none }.goto t (putLock msg))
      else none
  | .get t => if queue.pc t = idle then some (queue.goto t getLock) else none
  | .setNonblock t =>
      if queue.pc t = idle then some ({ queue with nonblock := true }.goto t nonblockLock)
      else none
  | .setBlock t => if queue.pc t = idle then some { queue with nonblock := false } else none
  | .run t => queue.advance t
  | .wake t =>
      if isSwapWait (queue.pc t) ∨ isPutWait (queue.pc t) then
        some { queue with woken := Function.update queue.woken t true }
      else none

/-- The messages stored and not unlinked. -/
def queued (queue : Msgqueue T M) : List M := queue.puts.drop queue.gots.length

/-- The message that a call has and the queue does not. -/
def held : MsgqueuePc M → Option M
  | putLock msg => some msg
  | putTest msg => some msg
  | putWait msg => some msg
  | putStore msg => some msg
  | getUnlock msg => msg
  | _ => none

/-- A message is put when it is neither in the queue nor in another call. -/
def Allowed (queue : Msgqueue T M) : Action T M → Prop
  | .put _ msg => msg ∉ queue.queued ∧ ∀ t, held (queue.pc t) ≠ some msg
  | _ => True

instance [Fintype T] (queue : Msgqueue T M) (action : Action T M) :
    Decidable (queue.Allowed action) :=
  match action with
  | .put _ msg =>
      inferInstanceAs (Decidable (msg ∉ queue.queued ∧ ∀ t, held (queue.pc t) ≠ some msg))
  | .get _ => inferInstanceAs (Decidable True)
  | .setNonblock _ => inferInstanceAs (Decidable True)
  | .setBlock _ => inferInstanceAs (Decidable True)
  | .run _ => inferInstanceAs (Decidable True)
  | .wake _ => inferInstanceAs (Decidable True)

end Msgqueue

end TinyMqtt
