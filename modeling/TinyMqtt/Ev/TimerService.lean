import TinyMqtt.Ev.TimerHeap
import TinyMqtt.Lib.Run

/-!
The timers of an event loop (`tmq_timer_heap_t`): the heap, the map from ids to
timers, and the time for which the timerfd was armed last. A timeout goes over
the expired timers three times: they are taken out of the heap, the callbacks
run, and then each is put back or freed. Callbacks may add, cancel and resume
timers, so the second pass changes what the third one finds.

Kept beside the state are a number for each timer that was ever added, as
addresses and ids are used again, and the callbacks that ran.
-/

namespace TinyMqtt

open BinaryHeap LinkedList Run

structure TimerId where
  addr : Addr
  timestamp : Int
  deriving DecidableEq, Repr

/-- `tmq_timer_t`. `interval` is `timeout_ms` in whole microseconds, which
`tmq_timer_new` does not let be negative. -/
structure Timer where
  expire : Int
  interval : Nat
  repeats : Bool
  canceled : Bool
  timerId : TimerId
  serial : Nat
  deriving DecidableEq, Repr

/-- A callback that ran, with its timer as it was then and the time of the
timeout. -/
structure Fired where
  timer : Timer
  now : Int
  deriving DecidableEq, Repr

/-- `tmq_timer_heap_t` with the timers that are allocated. `armed` is what
`timerfd_set_timeout` was last called with. -/
structure TimerService where
  memory : Addr → Option Timer
  heap : TimerHeap
  registered : TimerId → Option Addr
  expired : List Addr
  armed : Option Int
  added : Nat
  fired : List Fired

/-- A call from outside a timeout, or from a callback. `created` is the time at
which the timer that is added was made, `now` the time at which it is added. -/
inductive TimerCall where
  | add (addr : Addr) (interval : Nat) (repeats : Bool) (created now : Int)
  | cancel (timerId : TimerId)
  | resume (timerId : TimerId)
  deriving DecidableEq, Repr

/-- The address that `malloc` returns for the call. -/
def TimerCall.addrs : TimerCall → List Addr
  | .add addr _ _ _ _ => [addr]
  | .cancel _ | .resume _ => []

/-- Calls, and timeouts with what each callback that runs does in turn. -/
inductive TimerOp where
  | call (call : TimerCall)
  | timeout (now : Int) (scripts : List (List TimerCall))
  deriving DecidableEq, Repr

namespace TimerService

/-- `tmq_timer_heap_init`. -/
def init (garbage : Nat → Addr) : TimerService :=
  ⟨fun _ => none, TimerHeap.init garbage, fun _ => none, [], none, 0, []⟩

/-- `timer->expire`. -/
def expireOf (service : TimerService) (timer : Addr) : Option Int :=
  (service.memory timer).map Timer.expire

def modify (service : TimerService) (timer : Addr) (f : Timer → Timer) : Option TimerService := do
  let fields ← service.memory timer
  some { service with memory := Function.update service.memory timer (some (f fields)) }

/-- The call of `timerfd_set_timeout` for the first timer. -/
def arm (service : TimerService) : Option TimerService := do
  let (top, heap) := service.heap.read 1
  let expire ← service.expireOf top
  some { service with heap := heap, armed := some expire }

/-- `tmq_timer_new`, whose `malloc` returns `addr`. The id is not set yet. -/
def tmqTimerNew (service : TimerService) (addr : Addr) (interval : Nat) (repeats : Bool)
    (created : Int) : TimerService :=
  { service with
    memory := Function.update service.memory addr
      (some ⟨created + interval, interval, repeats, false, ⟨0, 0⟩, service.added⟩)
    added := service.added + 1 }

def tmqTimerHeapAdd (service : TimerService) (timer : Addr) (now : Int) : Option TimerService := do
  let (heap, changed) ← TimerHeap.timerHeapInsert service.expireOf service.heap timer
  let service := { service with heap := heap }
  let service ← if changed then service.arm else some service
  let timerId : TimerId := ⟨timer, now⟩
  let service ← service.modify timer fun fields => { fields with timerId := timerId }
  some { service with registered := Function.update service.registered timerId (some timer) }

def tmqCancelTimer (service : TimerService) (timerId : TimerId) : Option TimerService :=
  match service.registered timerId with
  | none => some service
  | some timer => service.modify timer fun fields => { fields with canceled := true }

def tmqResumeTimer (service : TimerService) (timerId : TimerId) : Option TimerService :=
  match service.registered timerId with
  | none => some service
  | some timer => service.modify timer fun fields => { fields with canceled := false }

def callStep (service : TimerService) : TimerCall → Option TimerService
  | .add addr interval repeats created now =>
      (service.tmqTimerNew addr interval repeats created).tmqTimerHeapAdd addr now
  | .cancel timerId => service.tmqCancelTimer timerId
  | .resume timerId => service.tmqResumeTimer timerId

/-- The first pass: the timers that are due are moved to `expired_timers`. -/
def expireLoop (now : Int) : Nat → TimerService → Addr → Option TimerService
  | 0, _, _ => none
  | rounds + 1, service, top => do
      if (← service.expireOf top) ≤ now then
        let (heap, _) ← TimerHeap.timerHeapPop service.expireOf service.heap
        let service := { service with heap := heap, expired := service.expired ++ [top] }
        if service.heap.size = 0 then some service
        else
          let (top, heap) := service.heap.read 1
          expireLoop now rounds { service with heap := heap } top
      else some service

def callbackLoop (now : Int) :
    List Addr → List (List TimerCall) → TimerService → Option TimerService
  | [], _, service => some service
  | timer :: timers, scripts, service => do
      let fields ← service.memory timer
      if fields.canceled then callbackLoop now timers scripts service
      else
        let service := { service with fired := service.fired ++ [⟨fields, now⟩] }
        let service ← runs callStep service (scripts.headD [])
        callbackLoop now timers scripts.tail service

/-- The third pass: a timer that repeats and is not canceled is put back, any
other one is freed. -/
def reinsertLoop (now : Int) : List Addr → TimerService → Option TimerService
  | [], service => some service
  | timer :: timers, service => do
      let fields ← service.memory timer
      if fields.repeats && !fields.canceled then
        let service ← service.modify timer fun fields =>
          { fields with expire := now + fields.interval }
        let (heap, _) ← TimerHeap.timerHeapInsert service.expireOf service.heap timer
        reinsertLoop now timers { service with heap := heap }
      else
        reinsertLoop now timers { service with
          registered := Function.update service.registered fields.timerId none
          memory := Function.update service.memory timer none }

/-- The two passes before timers are put back. -/
def expireAndCall (service : TimerService) (now : Int) (scripts : List (List TimerCall)) :
    Option TimerService := do
  let (top, heap) := service.heap.read 1
  let service ← expireLoop now (service.heap.size + 1) { service with heap := heap } top
  callbackLoop now service.expired scripts service

def timerHeapTimeout (service : TimerService) (now : Int) (scripts : List (List TimerCall)) :
    Option TimerService :=
  if service.heap.size < 1 then some service
  else do
    let service ← service.expireAndCall now scripts
    let service ← reinsertLoop now service.expired service
    let service := { service with expired := [] }
    if 0 < service.heap.size then service.arm else some service

end TimerService

def timerStep (service : TimerService) : TimerOp → Option TimerService
  | .call call => service.callStep call
  | .timeout now scripts => service.timerHeapTimeout now scripts

end TinyMqtt
