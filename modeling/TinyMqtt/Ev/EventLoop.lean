import TinyMqtt.Lib.FiniteMap
import TinyMqtt.Lib.LinkedList
import TinyMqtt.Lib.Run

/-!
The event loop (`ev/mqtt_event.c`). A handler asks for events of a descriptor;
the handlers of one descriptor share a channel, and the channel's address is
what `epoll` returns. A pass collects the handlers that the events are for and
calls them one after the other. The callbacks register and unregister handlers
while the pass goes on, and other threads take and release references at any
moment.

The memory of a handler that is tied to an object is the object's: the cleaner
of a connection frees the handlers of the connection and closes its
descriptor. A step that reads a handler or an object that is not allocated, or
that `epoll_ctl` refuses, is undefined. The memory of the channels and of the
map's entries is left out.
-/

namespace TinyMqtt

open FiniteMap LinkedList

/-- `tmq_event_handler_t`. Its link is in the list of its channel. -/
structure EventHandler where
  fd : Int
  events : BitVec 32
  rEvents : BitVec 32
  arg : Option Addr
  cb : Option Addr
  canceled : Bool
  tied : Bool
  deriving DecidableEq, Repr

/-- `tmq_event_handler_new`. The events are a `short` first. -/
def tmqEventHandlerNew (fd : Int) (events : BitVec 16) (cb arg : Option Addr) (tie : Bool) :
    EventHandler :=
  { fd := fd, events := events.signExtend 32, rEvents := 0, arg := arg, cb := cb,
    canceled := false, tied := tie }

/-- `epoll_channel_t`, with its handlers from the head of the list on. -/
structure EpollChannel where
  handlers : List Addr
  allEvents : BitVec 32
  deriving DecidableEq, Repr

/-- `tmq_ref_counted_t`, with the handlers that its cleaner frees and the
descriptor that it closes. -/
structure RefCounted where
  refCnt : Int
  handlers : List Addr
  fd : Int
  deriving DecidableEq, Repr

structure HandlerCall where
  handler : Addr
  fd : Int
  events : BitVec 32
  arg : Option Addr
  deriving DecidableEq, Repr

/-- Where `tmq_event_loop_run` stands. -/
inductive LoopPhase where
  /-- in `epoll_wait` -/
  | polling
  /-- among the active handlers: the one whose callback runs, and those that come after it -/
  | calling (running : Option Addr) (rest : List Addr)
  /-- among the handlers that were unregistered: the index of the next one -/
  | releasing (it : Nat)
  deriving DecidableEq, Repr

/-- `tmq_event_loop_t` with the handlers and the objects in memory, what `epoll`
watches for, and the callbacks so far. -/
structure EventLoop where
  handlers : Addr → Option EventHandler
  objects : Addr → Option RefCounted
  channels : Int → Option EpollChannel
  epoll : Int → Option (BitVec 32)
  removingHandlers : List Addr
  phase : LoopPhase
  calls : List HandlerCall

namespace EventLoop

def tmqEventLoopInit : EventLoop where
  handlers := fun _ => none
  objects := fun _ => none
  channels := fun _ => none
  epoll := fun _ => none
  removingHandlers := []
  phase := .polling
  calls := []

/-! ### References -/

def getRef (loop : EventLoop) : Option Addr → Option EventLoop
  | none => some loop
  | some obj => do
      let counted ← loop.objects obj
      some { loop with
        objects := set loop.objects obj { counted with refCnt := counted.refCnt + 1 } }

/-- The cleaner of a connection and the `free` of the connection. -/
def cleanUp (loop : EventLoop) (obj : Addr) (counted : RefCounted) : Option EventLoop :=
  if counted.handlers.all fun a => (loop.handlers a).isSome then
    some { loop with
      handlers := fun a => if counted.handlers.contains a then none else loop.handlers a
      epoll := unset loop.epoll counted.fd
      objects := unset loop.objects obj }
  else none

def releaseRef (loop : EventLoop) : Option Addr → Option EventLoop
  | none => some loop
  | some obj => do
      let counted ← loop.objects obj
      let n := counted.refCnt - 1
      if n = 0 then loop.cleanUp obj counted
      else some { loop with objects := set loop.objects obj { counted with refCnt := n } }

/-! ### Registrations -/

/-- The list can be followed up to a handler: those before it are in memory. -/
def reaches (loop : EventLoop) (channel : EpollChannel) (a : Addr) : Bool :=
  (channel.handlers.takeWhile (· != a)).all fun b => (loop.handlers b).isSome

/-- `epoll_ctl` with `EPOLL_CTL_ADD`, and with `EPOLL_CTL_MOD` and `EPOLL_CTL_DEL`. -/
def epollAdd (loop : EventLoop) (fd : Int) (events : BitVec 32) : Option EventLoop :=
  if loop.epoll fd = none then some { loop with epoll := set loop.epoll fd events } else none

def epollMod (loop : EventLoop) (fd : Int) (events : BitVec 32) : Option EventLoop :=
  if loop.epoll fd = none then none else some { loop with epoll := set loop.epoll fd events }

def epollDel (loop : EventLoop) (fd : Int) : Option EventLoop :=
  if loop.epoll fd = none then none else some { loop with epoll := unset loop.epoll fd }

/-- The handler goes to the head of the list of its channel. One that is in
the list already makes it a circle. -/
def link (loop : EventLoop) (a : Addr) (handler : EventHandler) : Option EventLoop :=
  let handlers := set loop.handlers a { handler with canceled := false }
  match loop.channels handler.fd with
  | none =>
      let channels := set loop.channels handler.fd ⟨[a], handler.events⟩
      epollAdd { loop with channels := channels, handlers := handlers } handler.fd handler.events
  | some channel =>
      if channel.handlers.contains a then none
      else
        let allEvents := channel.allEvents ||| handler.events
        let channels := set loop.channels handler.fd ⟨a :: channel.handlers, allEvents⟩
        epollMod { loop with channels := channels, handlers := handlers } handler.fd allEvents

/-- `tmq_handler_register`. For a new channel its `channel` points to a variable
whose block has ended; the channel is followed from the map here. -/
def tmqHandlerRegister (loop : EventLoop) (a : Addr) : Option EventLoop := do
  let handler ← loop.handlers a
  (if handler.tied then loop.getRef handler.arg else some loop).bind fun loop =>
    loop.link a handler

/-- `tmq_handler_unregister`. The list of the removing handlers may move when
it grows, and must not be under way. Of the last handler of a channel the source
erases the map's entry first and then reads the channel from it for `free`; the
entry's memory is not modelled. -/
def tmqHandlerUnregister (loop : EventLoop) (a : Addr) : Option EventLoop := do
  let handler ← loop.handlers a
  match loop.channels handler.fd with
  | none => some loop
  | some channel =>
      if !loop.reaches channel a then none
      else if !channel.handlers.contains a then some loop
      else
        match loop.phase with
        | .releasing _ => none
        | _ =>
            let removed := { loop with
              handlers := set loop.handlers a { handler with canceled := true }
              removingHandlers := loop.removingHandlers ++ [a] }
            let others := channel.handlers.erase a
            if others = [] then
              epollDel { removed with channels := unset loop.channels handler.fd } handler.fd
            else
              let allEvents := channel.allEvents &&& ~~~handler.events
              epollMod { removed with
                channels := set loop.channels handler.fd ⟨others, allEvents⟩ } handler.fd allEvents

def tmqHandlerIsRegistered (loop : EventLoop) : Option Addr → Option Bool
  | none => some false
  | some a => do
      let handler ← loop.handlers a
      match loop.channels handler.fd with
      | none => some false
      | some channel => if loop.reaches channel a then some (channel.handlers.contains a) else none

/-! ### The loop -/

/-- The handlers of a channel that the events are for. Each of them keeps what
was returned. -/
def activate (events : BitVec 32) :
    (Addr → Option EventHandler) → List Addr → Option ((Addr → Option EventHandler) × List Addr)
  | handlers, [] => some (handlers, [])
  | handlers, a :: rest => do
      let handler ← handlers a
      if handler.events &&& events = 0 then activate events handlers rest
      else
        let (handlers, active) ← activate events
          (set handlers a { handler with rEvents := events }) rest
        some (handlers, a :: active)

/-- The same for everything that `epoll_wait` returned. -/
def activateAll (channels : Int → Option EpollChannel) :
    (Addr → Option EventHandler) → List (Int × BitVec 32) →
      Option ((Addr → Option EventHandler) × List Addr)
  | handlers, [] => some (handlers, [])
  | handlers, (fd, events) :: rest => do
      let channel ← channels fd
      let (handlers, first) ← activate events handlers channel.handlers
      let (handlers, others) ← activateAll channels handlers rest
      some (handlers, first ++ others)

/-- `epoll_wait` returns, and the active handlers are collected. -/
def poll (loop : EventLoop) (returned : List (Int × BitVec 32)) : Option EventLoop :=
  match loop.phase with
  | .polling =>
      if returned = [] then some loop
      else do
        let (handlers, active) ← activateAll loop.channels loop.handlers returned
        some { loop with
          handlers := handlers, removingHandlers := [], phase := .calling none active }
  | _ => none

/-- The loop goes on: to the next active handler, or to the next one that was
unregistered. -/
def advance (loop : EventLoop) : Option EventLoop :=
  match loop.phase with
  | .polling => none
  | .calling _ [] => some { loop with phase := .releasing 0 }
  | .calling _ (a :: rest) => do
      let handler ← loop.handlers a
      if !handler.canceled && handler.cb.isSome then
        some { loop with
          phase := .calling (some a) rest
          calls := loop.calls ++ [⟨a, handler.fd, handler.rEvents, handler.arg⟩] }
      else some { loop with phase := .calling none rest }
  | .releasing it =>
      match loop.removingHandlers[it]? with
      | none => some { loop with phase := .polling }
      | some a => do
          let handler ← loop.handlers a
          let loop := { loop with phase := .releasing (it + 1) }
          if handler.tied then loop.releaseRef handler.arg else some loop

/-- `malloc` of an object that is not counted yet. -/
def create (loop : EventLoop) (obj : Addr) (fd : Int) : Option EventLoop :=
  if loop.objects obj = none then
    some { loop with objects := set loop.objects obj ⟨0, [], fd⟩ }
  else none

/-- `tmq_event_handler_new` at an address. A tied handler is stored in its
object. -/
def handlerNew (loop : EventLoop) (a : Addr) (handler : EventHandler) : Option EventLoop :=
  if loop.handlers a = none then do
    let loop := { loop with handlers := set loop.handlers a handler }
    match handler.tied, handler.arg with
    | true, some obj => do
        let counted ← loop.objects obj
        some { loop with
          objects := set loop.objects obj { counted with handlers := a :: counted.handlers } }
    | _, _ => some loop
  else none

end EventLoop

end TinyMqtt
