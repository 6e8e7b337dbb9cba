import TinyMqtt.Ev.TimerService

/-!
What the calls of the timer service keep. The invariant has three parts, about
the heap, the map of ids and the callbacks that ran. It is stated with the
timers that are out of the heap for the time being, as calls also come from
callbacks.
-/

namespace TinyMqtt

open BinaryHeap LinkedList Run

namespace TimerService

/-- The allocated timers are those in the heap and the pending ones, each in
one place, and the heap is in order. -/
structure Stored (service : TimerService) (pending : List Addr) : Prop where
  live : ∀ addr, service.memory addr ≠ none ↔ addr ∈ service.heap.timers ∨ addr ∈ pending
  nodup : service.heap.timers.Nodup
  pendingNodup : pending.Nodup
  apart : ∀ addr ∈ pending, addr ∉ service.heap.timers
  ordered : Ordered (TimerHeap.expireKey service.expireOf) service.heap.slot service.heap.size

structure Registered (service : TimerService) : Prop where
  lookup : ∀ timerId addr, service.registered timerId = some addr ↔
    ∃ timer, service.memory addr = some timer ∧ timer.timerId = timerId
  ids : ∀ addr timer, service.memory addr = some timer → timer.timerId.addr = addr

/-- Timers have numbers of their own, below the next one; the callbacks ran in
time, and those of one-shot timers once. -/
structure Logged (service : TimerService) : Prop where
  numbered : ∀ addr timer, service.memory addr = some timer → timer.serial < service.added
  serials : ∀ addr timer addr' timer', service.memory addr = some timer →
    service.memory addr' = some timer' → timer.serial = timer'.serial → addr = addr'
  firedNumbered : ∀ fired ∈ service.fired, fired.timer.serial < service.added
  inTime : ∀ fired ∈ service.fired,
    fired.timer.canceled = false ∧ fired.timer.expire ≤ fired.now
  once : ((service.fired.filter fun fired => !fired.timer.repeats).map
    fun fired => fired.timer.serial).Nodup

def Unfired (service : TimerService) (addr : Addr) : Prop :=
  ∀ timer, service.memory addr = some timer → timer.repeats = false →
    ∀ fired ∈ service.fired, fired.timer.serial ≠ timer.serial

def Armed (service : TimerService) : Prop :=
  0 < service.heap.size → service.armed = service.expireOf (service.heap.slot 1)

/-- Timers stay as they are but for their flags, and those that are out of the
heap stay there. A timer that is new has a new number. -/
structure KeepsTimers (before after : TimerService) : Prop where
  memory : ∀ addr timer, before.memory addr = some timer →
    ∃ canceled, after.memory addr = some { timer with canceled := canceled }
  fresh : ∀ addr timer, after.memory addr = some timer → before.memory addr = none →
    before.added ≤ timer.serial
  expired : after.expired = before.expired
  added : before.added ≤ after.added

/-- Calls run no callbacks. -/
structure Keeps (before after : TimerService) : Prop extends KeepsTimers before after where
  fired : after.fired = before.fired

theorem KeepsTimers.refl (service : TimerService) : service.KeepsTimers service where
  memory := fun _ timer h => ⟨timer.canceled, h⟩
  fresh := by
    intro addr timer h hnone
    rw [h] at hnone
    exact absurd hnone (Option.some_ne_none timer)
  expired := rfl
  added := le_rfl

theorem KeepsTimers.trans {first second third : TimerService} (h : first.KeepsTimers second)
    (h' : second.KeepsTimers third) : first.KeepsTimers third where
  memory := by
    intro addr timer hmem
    obtain ⟨canceled, hsecond⟩ := h.memory addr timer hmem
    obtain ⟨canceled', hthird⟩ := h'.memory addr _ hsecond
    exact ⟨canceled', hthird⟩
  fresh := by
    intro addr timer hthird hnone
    cases hsecond : second.memory addr with
    | none => exact h.added.trans (h'.fresh addr timer hthird hsecond)
    | some timer' =>
        obtain ⟨canceled, hkept⟩ := h'.memory addr timer' hsecond
        obtain rfl := Option.some.inj (hkept.symm.trans hthird)
        exact h.fresh addr timer' hsecond hnone
  expired := h'.expired.trans h.expired
  added := h.added.trans h'.added

theorem Keeps.refl (service : TimerService) : service.Keeps service :=
  ⟨KeepsTimers.refl service, rfl⟩

theorem Keeps.trans {first second third : TimerService} (h : first.Keeps second)
    (h' : second.Keeps third) : first.Keeps third :=
  ⟨h.toKeepsTimers.trans h'.toKeepsTimers, h'.fired.trans h.fired⟩

variable {service after : TimerService} {pending : List Addr}

/-- A timer that has not run has not run after the call either, and no more has
a new one. -/
theorem Unfired.keeps (hlog : service.Logged) (hkeeps : service.Keeps after) {addr : Addr}
    (h : service.Unfired addr) : after.Unfired addr := by
  intro timer htimer honce fired hfired
  rw [hkeeps.fired] at hfired
  cases hbefore : service.memory addr with
  | none =>
      have hnew := hkeeps.fresh addr timer htimer hbefore
      exact (hlog.firedNumbered fired hfired).trans_le hnew |>.ne
  | some timer' =>
      obtain ⟨canceled, hkept⟩ := hkeeps.memory addr timer' hbefore
      obtain rfl := Option.some.inj (hkept.symm.trans htimer)
      exact h timer' hbefore honce fired hfired

theorem Stored.liveHeap (h : service.Stored pending) :
    TimerHeap.Live service.expireOf service.heap.timers := by
  intro addr hmem
  obtain ⟨timer, htimer⟩ := Option.ne_none_iff_exists'.mp ((h.live addr).mpr (Or.inl hmem))
  exact ⟨timer.expire, by rw [expireOf, htimer, Option.map_some]⟩

/-! ### `tmq_cancel_timer` and `tmq_resume_timer` -/

/-- The same but for the flags of timers. -/
structure SameButFlags (before after : TimerService) : Prop where
  flags : ∀ addr, (after.memory addr).map (fun timer => { timer with canceled := false })
    = (before.memory addr).map fun timer => { timer with canceled := false }
  heap : after.heap = before.heap
  registered : after.registered = before.registered
  expired : after.expired = before.expired
  armed : after.armed = before.armed
  added : after.added = before.added
  fired : after.fired = before.fired

theorem SameButFlags.refl (service : TimerService) : service.SameButFlags service :=
  ⟨fun _ => rfl, rfl, rfl, rfl, rfl, rfl, rfl⟩

theorem SameButFlags.symm (h : service.SameButFlags after) : after.SameButFlags service :=
  ⟨fun addr => (h.flags addr).symm, h.heap.symm, h.registered.symm, h.expired.symm, h.armed.symm,
    h.added.symm, h.fired.symm⟩

theorem SameButFlags.memory (h : service.SameButFlags after) {addr : Addr} {timer : Timer}
    (htimer : service.memory addr = some timer) :
    ∃ canceled, after.memory addr = some { timer with canceled := canceled } := by
  have hflags := h.flags addr
  rw [htimer, Option.map_some] at hflags
  obtain ⟨timer', htimer', hsame⟩ := Option.map_eq_some_iff.mp hflags
  refine ⟨timer'.canceled, ?_⟩
  obtain ⟨expire, interval, repeats, canceled, timerId, serial⟩ := timer
  obtain ⟨expire', interval', repeats', canceled', timerId', serial'⟩ := timer'
  simp only [Timer.mk.injEq, true_and] at hsame
  obtain ⟨rfl, rfl, rfl, rfl, rfl⟩ := hsame
  exact htimer'

theorem SameButFlags.expireOf (h : service.SameButFlags after) : after.expireOf = service.expireOf := by
  funext addr
  have hflags := congrArg (Option.map Timer.expire) (h.flags addr)
  simpa [TimerService.expireOf, Option.map_map, Function.comp_def] using hflags

theorem SameButFlags.keeps (h : service.SameButFlags after) : service.Keeps after where
  memory := fun _ _ htimer => h.memory htimer
  fresh := by
    intro addr timer htimer hnone
    obtain ⟨canceled, hbefore⟩ := h.symm.memory htimer
    rw [hnone] at hbefore
    exact absurd hbefore.symm (Option.some_ne_none _)
  expired := h.expired
  fired := h.fired
  added := h.added.ge

theorem SameButFlags.stored (h : service.SameButFlags after) (hstored : service.Stored pending) :
    after.Stored pending where
  live := by
    intro addr
    rw [h.heap, ← hstored.live addr]
    have hflags := h.flags addr
    cases hbefore : service.memory addr <;> cases hafter : after.memory addr <;>
      simp_all
  nodup := h.heap ▸ hstored.nodup
  pendingNodup := hstored.pendingNodup
  apart := h.heap ▸ hstored.apart
  ordered := by
    rw [h.heap, h.expireOf]
    exact hstored.ordered

theorem SameButFlags.registers (h : service.SameButFlags after) (hreg : service.Registered) :
    after.Registered where
  lookup := by
    intro timerId addr
    rw [h.registered, hreg.lookup]
    constructor
    · rintro ⟨timer, htimer, hid⟩
      obtain ⟨canceled, hafter⟩ := h.memory htimer
      exact ⟨_, hafter, hid⟩
    · rintro ⟨timer, htimer, hid⟩
      obtain ⟨canceled, hbefore⟩ := h.symm.memory htimer
      exact ⟨_, hbefore, hid⟩
  ids := by
    intro addr timer htimer
    obtain ⟨canceled, hbefore⟩ := h.symm.memory htimer
    have hid := hreg.ids addr _ hbefore
    exact hid

theorem SameButFlags.logged (h : service.SameButFlags after) (hlog : service.Logged) :
    after.Logged where
  numbered := by
    intro addr timer htimer
    obtain ⟨canceled, hbefore⟩ := h.symm.memory htimer
    rw [h.added]
    have hlt := hlog.numbered addr _ hbefore
    exact hlt
  serials := by
    intro addr timer addr' timer' htimer htimer' hsame
    obtain ⟨canceled, hbefore⟩ := h.symm.memory htimer
    obtain ⟨canceled', hbefore'⟩ := h.symm.memory htimer'
    exact hlog.serials addr _ addr' _ hbefore hbefore' hsame
  firedNumbered := by
    rw [h.fired, h.added]
    exact hlog.firedNumbered
  inTime := h.fired ▸ hlog.inTime
  once := h.fired ▸ hlog.once

theorem SameButFlags.arms (h : service.SameButFlags after) (harmed : service.Armed) :
    after.Armed := by
  intro hpos
  rw [h.heap] at hpos
  rw [h.armed, h.heap, h.expireOf]
  exact harmed hpos

/-- A flag is written. -/
theorem setCanceled_sameButFlags {addr : Addr} {timer : Timer}
    (htimer : service.memory addr = some timer) (canceled : Bool) :
    ∃ after, service.modify addr (fun fields => { fields with canceled := canceled }) = some after ∧
      service.SameButFlags after := by
  refine ⟨{ service with
      memory := Function.update service.memory addr (some { timer with canceled := canceled }) },
    ?_, ?_, rfl, rfl, rfl, rfl, rfl, rfl⟩
  · simp [modify, htimer]
  · intro other
    by_cases hsame : other = addr
    · subst hsame
      simp [htimer]
    · simp [hsame]

theorem tmqCancelTimer_sameButFlags (hreg : service.Registered) (timerId : TimerId) :
    ∃ after, service.tmqCancelTimer timerId = some after ∧ service.SameButFlags after := by
  unfold tmqCancelTimer
  cases hlookup : service.registered timerId with
  | none => exact ⟨service, rfl, SameButFlags.refl service⟩
  | some addr =>
      obtain ⟨timer, htimer, -⟩ := (hreg.lookup timerId addr).mp hlookup
      exact setCanceled_sameButFlags htimer true

theorem tmqResumeTimer_sameButFlags (hreg : service.Registered) (timerId : TimerId) :
    ∃ after, service.tmqResumeTimer timerId = some after ∧ service.SameButFlags after := by
  unfold tmqResumeTimer
  cases hlookup : service.registered timerId with
  | none => exact ⟨service, rfl, SameButFlags.refl service⟩
  | some addr =>
      obtain ⟨timer, htimer, -⟩ := (hreg.lookup timerId addr).mp hlookup
      exact setCanceled_sameButFlags htimer false

/-! ### `tmq_timer_heap_add` -/

theorem arm_eq {expire : Int} (h : service.expireOf (service.heap.slot 1) = some expire) :
    service.arm = some { service with heap := (service.heap.read 1).2, armed := some expire } := by
  change (service.expireOf (service.heap.slot 1)).bind _ = _
  rw [h]
  rfl

/-- The timer that an `add` makes. -/
def newTimer (service : TimerService) (addr : Addr) (interval : Nat) (repeats : Bool)
    (created now : Int) : Timer :=
  ⟨created + interval, interval, repeats, false, ⟨addr, now⟩, service.added⟩

def withNew (service : TimerService) (heap : TimerHeap) (armed : Option Int) (addr : Addr)
    (timer : Timer) : TimerService :=
  { service with
    memory := Function.update service.memory addr (some timer)
    heap := heap
    registered := Function.update service.registered timer.timerId (some addr)
    armed := armed
    added := service.added + 1 }

/-- The other timers expire when they did. -/
theorem expireOf_withNew_of_ne (service : TimerService) (heap : TimerHeap) (armed : Option Int)
    {addr other : Addr} (timer : Timer) (hne : other ≠ addr) :
    (service.withNew heap armed addr timer).expireOf other = service.expireOf other := by
  simp [expireOf, withNew, hne]

theorem expireOf_withNew_self (service : TimerService) (heap : TimerHeap) (armed : Option Int)
    (addr : Addr) (timer : Timer) :
    (service.withNew heap armed addr timer).expireOf addr = some timer.expire := by
  simp [expireOf, withNew]

theorem tmqTimerHeapAdd_eq {timer : Addr} {fields : Timer} {heap heap' : TimerHeap} {changed : Bool}
    {armed : Option Int} (htimer : service.memory timer = some fields)
    (hinsert : TimerHeap.timerHeapInsert service.expireOf service.heap timer = some (heap, changed))
    (harm : (if changed then { service with heap := heap }.arm else some { service with heap := heap })
      = some { service with heap := heap', armed := armed }) (now : Int) :
    service.tmqTimerHeapAdd timer now = some { service with
      memory := Function.update service.memory timer (some { fields with timerId := ⟨timer, now⟩ })
      heap := heap'
      registered := Function.update service.registered ⟨timer, now⟩ (some timer)
      armed := armed } := by
  cases changed with
  | true =>
      rw [if_pos rfl] at harm
      simp [tmqTimerHeapAdd, hinsert, harm, modify, htimer]
  | false =>
      obtain ⟨rfl, rfl⟩ : heap = heap' ∧ service.armed = armed := by simpa using harm
      simp [tmqTimerHeapAdd, hinsert, modify, htimer]

/-- A timer at an address that is free goes into the heap and into the map, and
the timerfd is armed again if the new timer is the first. -/
theorem callStep_add (hstored : service.Stored pending) {addr : Addr}
    (hfree : service.memory addr = none) (interval : Nat) (repeats : Bool) (created now : Int) :
    ∃ heap armed, service.callStep (.add addr interval repeats created now)
        = some (service.withNew heap armed addr
            (service.newTimer addr interval repeats created now)) ∧
      heap.timers = addr ::ₘ service.heap.timers ∧
      Ordered (TimerHeap.expireKey (service.withNew heap armed addr
        (service.newTimer addr interval repeats created now)).expireOf) heap.slot heap.size ∧
      (service.Armed → (service.withNew heap armed addr
        (service.newTimer addr interval repeats created now)).Armed) := by
  let timer := service.newTimer addr interval repeats created now
  let made := service.tmqTimerNew addr interval repeats created
  have hnew : addr ∉ service.heap.timers := fun hmem =>
    (hstored.live addr).mpr (Or.inl hmem) hfree
  have hexpire : ∀ heap armed, (service.withNew heap armed addr timer).expireOf = made.expireOf := by
    intro heap armed
    funext other
    by_cases hsame : other = addr
    · subst hsame
      simp [expireOf, withNew, made, tmqTimerNew, timer, newTimer]
    · simp [expireOf, withNew, made, tmqTimerNew, hsame]
  have hsame : ∀ other ∈ service.heap.timers, made.expireOf other = service.expireOf other := by
    intro other hmem
    rw [← hexpire service.heap none]
    exact service.expireOf_withNew_of_ne _ _ timer (fun heq => hnew (heq ▸ hmem))
  have hself : made.expireOf addr = some timer.expire := by
    rw [← hexpire service.heap none]
    exact service.expireOf_withNew_self _ _ addr timer
  have hlive : TimerHeap.Live made.expireOf (addr ::ₘ service.heap.timers) := by
    intro other hmem
    rcases Multiset.mem_cons.mp hmem with rfl | hmem
    · exact ⟨_, hself⟩
    · rw [hsame other hmem]
      exact hstored.liveHeap other hmem
  obtain ⟨heap, changed, hinsert, hsize, -, -, htimers, hfirst, horder⟩ :=
    TimerHeap.timerHeapInsert_spec hlive
  have hordered : Ordered (TimerHeap.expireKey made.expireOf) heap.slot heap.size := by
    refine horder (hstored.ordered.congr ?_)
    intro other hmem
    simp only [TimerHeap.expireKey, hsame other hmem]
  have hmade : made.memory addr
      = some ⟨created + interval, interval, repeats, false, ⟨0, 0⟩, service.added⟩ :=
    Function.update_self _ _ _
  have hadd : ∀ {heap' armed}, (if changed then { made with heap := heap }.arm
        else some { made with heap := heap }) = some { made with heap := heap', armed := armed } →
      service.callStep (.add addr interval repeats created now)
        = some (service.withNew heap' armed addr timer) := by
    intro heap' armed harm
    refine (tmqTimerHeapAdd_eq hmade hinsert harm now).trans ?_
    simp [withNew, made, tmqTimerNew, timer, newTimer, Function.update_idem]
  have htop : 0 < heap.size := hsize ▸ Nat.succ_pos _
  obtain ⟨expire, hexpireTop⟩ : ∃ expire, made.expireOf (heap.slot 1) = some expire := by
    apply htimers ▸ hlive
    exact TimerHeap.mem_timers.mpr ⟨1, ⟨le_rfl, htop⟩, rfl⟩
  cases changed with
  | true =>
      refine ⟨(heap.read 1).2, some expire, ?_, htimers, ?_, ?_⟩
      · exact hadd (arm_eq hexpireTop)
      · rw [hexpire]
        exact hordered
      · intro _ _
        rw [hexpire]
        exact hexpireTop.symm
  | false =>
      obtain ⟨hpos, hslot⟩ := hfirst rfl
      refine ⟨heap, service.armed, ?_, htimers, ?_, ?_⟩
      · exact hadd rfl
      · rw [hexpire]
        exact hordered
      · intro harmed _
        have hmem : heap.slot 1 ∈ service.heap.timers := by
          rw [hslot]
          exact TimerHeap.mem_timers.mpr ⟨1, ⟨le_rfl, hpos⟩, rfl⟩
        rw [hexpire]
        change service.armed = made.expireOf (heap.slot 1)
        rw [hsame _ hmem, hslot]
        exact harmed hpos

section WithNew

variable {heap : TimerHeap} {armed : Option Int} {addr : Addr} {timer : Timer}

theorem memory_withNew_self : (service.withNew heap armed addr timer).memory addr = some timer :=
  Function.update_self _ _ _

/-- What is allocated after an `add`. -/
theorem memory_withNew {other : Addr} {timer' : Timer}
    (h : (service.withNew heap armed addr timer).memory other = some timer') :
    (other = addr ∧ timer' = timer) ∨ (other ≠ addr ∧ service.memory other = some timer') := by
  by_cases hsame : other = addr
  · subst hsame
    rw [memory_withNew_self] at h
    exact Or.inl ⟨rfl, (Option.some.inj h).symm⟩
  · exact Or.inr ⟨hsame, (Function.update_of_ne hsame _ _).symm.trans h⟩

theorem memory_withNew_of_ne {other : Addr} (hne : other ≠ addr) :
    (service.withNew heap armed addr timer).memory other = service.memory other :=
  Function.update_of_ne hne _ _

/-- What was allocated is elsewhere. -/
theorem ne_of_memory {other : Addr} {timer' : Timer} (hfree : service.memory addr = none)
    (hother : service.memory other = some timer') : other ≠ addr := by
  rintro rfl
  rw [hfree] at hother
  exact absurd hother.symm (Option.some_ne_none timer')

theorem withNew_keeps (hfree : service.memory addr = none) (hserial : timer.serial = service.added) :
    service.Keeps (service.withNew heap armed addr timer) where
  memory := by
    intro other timer' hother
    exact ⟨timer'.canceled, (memory_withNew_of_ne (ne_of_memory hfree hother)).trans hother⟩
  fresh := by
    intro other timer' hafter hnone
    rcases memory_withNew hafter with ⟨-, rfl⟩ | ⟨-, hbefore⟩
    · exact hserial.ge
    · rw [hnone] at hbefore
      exact absurd hbefore.symm (Option.some_ne_none timer')
  expired := rfl
  fired := rfl
  added := Nat.le_succ _

theorem withNew_stored (hstored : service.Stored pending) (hfree : service.memory addr = none)
    (htimers : heap.timers = addr ::ₘ service.heap.timers)
    (hordered : Ordered (TimerHeap.expireKey (service.withNew heap armed addr timer).expireOf)
      heap.slot heap.size) :
    (service.withNew heap armed addr timer).Stored pending where
  live := by
    intro other
    change _ ↔ other ∈ heap.timers ∨ other ∈ pending
    rw [htimers, Multiset.mem_cons]
    by_cases hsame : other = addr
    · subst hsame
      simp [memory_withNew_self]
    · rw [memory_withNew_of_ne hsame, hstored.live other]
      simp [hsame]
  nodup := by
    change heap.timers.Nodup
    rw [htimers, Multiset.nodup_cons]
    exact ⟨fun hmem => (hstored.live addr).mpr (Or.inl hmem) hfree, hstored.nodup⟩
  pendingNodup := hstored.pendingNodup
  apart := by
    intro other hmem
    change other ∉ heap.timers
    rw [htimers, Multiset.mem_cons, not_or]
    refine ⟨?_, hstored.apart other hmem⟩
    rintro rfl
    exact (hstored.live other).mpr (Or.inr hmem) hfree
  ordered := hordered

theorem withNew_registered (hreg : service.Registered) (hfree : service.memory addr = none)
    (hid : timer.timerId.addr = addr) :
    (service.withNew heap armed addr timer).Registered where
  lookup := by
    intro timerId other
    change Function.update service.registered timer.timerId (some addr) timerId = some other ↔ _
    by_cases hsame : timerId = timer.timerId
    · subst hsame
      rw [Function.update_self]
      constructor
      · intro heq
        obtain rfl := Option.some.inj heq
        exact ⟨timer, memory_withNew_self, rfl⟩
      · rintro ⟨timer', hmem, hid'⟩
        rcases memory_withNew hmem with ⟨rfl, -⟩ | ⟨hne, hbefore⟩
        · rfl
        · have hother := hreg.ids other timer' hbefore
          rw [hid', hid] at hother
          exact absurd hother.symm hne
    · rw [Function.update_of_ne hsame, hreg.lookup]
      constructor
      · rintro ⟨timer', hbefore, hid'⟩
        exact ⟨timer', (memory_withNew_of_ne (ne_of_memory hfree hbefore)).trans hbefore, hid'⟩
      · rintro ⟨timer', hmem, hid'⟩
        rcases memory_withNew hmem with ⟨-, rfl⟩ | ⟨-, hbefore⟩
        · exact absurd hid'.symm hsame
        · exact ⟨timer', hbefore, hid'⟩
  ids := by
    intro other timer' hmem
    rcases memory_withNew hmem with ⟨rfl, rfl⟩ | ⟨-, hbefore⟩
    · exact hid
    · exact hreg.ids other timer' hbefore

theorem withNew_logged (hlog : service.Logged) (hserial : timer.serial = service.added) :
    (service.withNew heap armed addr timer).Logged where
  numbered := by
    intro other timer' hmem
    change timer'.serial < service.added + 1
    rcases memory_withNew hmem with ⟨-, rfl⟩ | ⟨-, hbefore⟩
    · rw [hserial]
      exact Nat.lt_succ_self _
    · exact Nat.lt_succ_of_lt (hlog.numbered other timer' hbefore)
  serials := by
    intro first timer' second timer'' hfirst hsecond hsame
    rcases memory_withNew hfirst with ⟨rfl, rfl⟩ | ⟨-, hbefore⟩ <;>
      rcases memory_withNew hsecond with ⟨rfl, rfl⟩ | ⟨-, hbefore'⟩
    · rfl
    · have hlt := hlog.numbered second timer'' hbefore'
      omega
    · have hlt := hlog.numbered first timer' hbefore
      omega
    · exact hlog.serials first timer' second timer'' hbefore hbefore' hsame
  firedNumbered := fun fired hmem => Nat.lt_succ_of_lt (hlog.firedNumbered fired hmem)
  inTime := hlog.inTime
  once := hlog.once

end WithNew

/-! ### Calls in turn -/

def Free (service : TimerService) (addrs : List Addr) : Prop :=
  addrs.Nodup ∧ ∀ addr ∈ addrs, service.memory addr = none

structure CallKeeps (before after : TimerService) (pending addrs : List Addr) : Prop where
  stored : after.Stored pending
  registered : after.Registered
  logged : after.Logged
  keeps : before.Keeps after
  armed : before.Armed → after.Armed
  allocated : ∀ addr, after.memory addr ≠ none → before.memory addr ≠ none ∨ addr ∈ addrs

theorem SameButFlags.callKeeps (h : service.SameButFlags after) (hstored : service.Stored pending)
    (hreg : service.Registered) (hlog : service.Logged) (addrs : List Addr) :
    service.CallKeeps after pending addrs where
  stored := h.stored hstored
  registered := h.registers hreg
  logged := h.logged hlog
  keeps := h.keeps
  armed := h.arms
  allocated := by
    intro addr hafter
    obtain ⟨timer, htimer⟩ := Option.ne_none_iff_exists'.mp hafter
    obtain ⟨canceled, hbefore⟩ := h.symm.memory htimer
    exact Or.inl (hbefore ▸ Option.some_ne_none _)

/-- Every call with free memory has a result and keeps the invariant. -/
theorem callStep_spec (hstored : service.Stored pending) (hreg : service.Registered)
    (hlog : service.Logged) (call : TimerCall) (hfree : service.Free call.addrs) :
    ∃ after, service.callStep call = some after ∧
      service.CallKeeps after pending call.addrs := by
  cases call with
  | add addr interval repeats created now =>
      have hnone : service.memory addr = none := hfree.2 addr (List.mem_singleton_self addr)
      obtain ⟨heap, armed, hstep, htimers, hordered, harmed⟩ :=
        callStep_add hstored hnone interval repeats created now
      refine ⟨_, hstep, withNew_stored hstored hnone htimers hordered,
        withNew_registered hreg hnone rfl, withNew_logged hlog rfl, withNew_keeps hnone rfl, harmed,
        ?_⟩
      intro other hafter
      obtain ⟨timer, htimer⟩ := Option.ne_none_iff_exists'.mp hafter
      rcases memory_withNew htimer with ⟨rfl, -⟩ | ⟨-, hbefore⟩
      · exact Or.inr (List.mem_singleton_self other)
      · exact Or.inl (hbefore ▸ Option.some_ne_none timer)
  | cancel timerId =>
      obtain ⟨after, hstep, hsame⟩ := tmqCancelTimer_sameButFlags hreg timerId
      exact ⟨after, hstep, hsame.callKeeps hstored hreg hlog []⟩
  | resume timerId =>
      obtain ⟨after, hstep, hsame⟩ := tmqResumeTimer_sameButFlags hreg timerId
      exact ⟨after, hstep, hsame.callKeeps hstored hreg hlog []⟩

/-- Memory that the first calls did not take is still free. -/
theorem Free.rest {first second : List Addr} (hfree : service.Free (first ++ second))
    (halloc : ∀ addr, after.memory addr ≠ none → service.memory addr ≠ none ∨ addr ∈ first) :
    after.Free second := by
  obtain ⟨hnodup, hnone⟩ := hfree
  rw [List.nodup_append] at hnodup
  refine ⟨hnodup.2.1, ?_⟩
  intro addr hmem
  by_contra hused
  rcases halloc addr hused with hbefore | hfirst
  · exact hbefore (hnone addr (List.mem_append_right _ hmem))
  · exact hnodup.2.2 addr hfirst addr hmem rfl

/-- A callback with free memory for the timers it adds. -/
theorem runs_callStep_spec (hstored : service.Stored pending) (hreg : service.Registered)
    (hlog : service.Logged) (script : List TimerCall)
    (hfree : service.Free (script.flatMap TimerCall.addrs)) :
    ∃ after, runs callStep service script = some after ∧
      service.CallKeeps after pending (script.flatMap TimerCall.addrs) := by
  induction script generalizing service with
  | nil => exact ⟨service, rfl, hstored, hreg, hlog, Keeps.refl service, id, fun _ h => Or.inl h⟩
  | cons call script ih =>
      rw [List.flatMap_cons] at hfree
      have hfreeCall : service.Free call.addrs :=
        ⟨(List.nodup_append.mp hfree.1).1,
          fun addr hmem => hfree.2 addr (List.mem_append_left _ hmem)⟩
      obtain ⟨next, hstep, hnext⟩ := callStep_spec hstored hreg hlog call hfreeCall
      obtain ⟨after, hrun, hafter⟩ :=
        ih hnext.stored hnext.registered hnext.logged (hfree.rest hnext.allocated)
      refine ⟨after, ?_, hafter.stored, hafter.registered, hafter.logged,
        hnext.keeps.trans hafter.keeps, hafter.armed ∘ hnext.armed, ?_⟩
      · rw [runs, hstep]
        exact hrun
      · intro addr hused
        rw [List.flatMap_cons, List.mem_append]
        rcases hafter.allocated addr hused with hused | hmem
        · rcases hnext.allocated addr hused with hused | hmem
          · exact Or.inl hused
          · exact Or.inr (Or.inl hmem)
        · exact Or.inr (Or.inr hmem)

end TimerService

end TinyMqtt
