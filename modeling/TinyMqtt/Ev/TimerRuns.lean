import TinyMqtt.Ev.TimerPasses

/-!
What holds of the timer service between calls, whatever the calls and timeouts
before and whatever the callbacks did, and what a timeout does.
-/

namespace TinyMqtt

open BinaryHeap LinkedList Run

/-- The addresses that `malloc` returns in the course of the call. -/
def TimerOp.addrs : TimerOp → List Addr
  | .call action => action.addrs
  | .timeout _ scripts => scripts.flatten.flatMap TimerCall.addrs

def TimerOp.Allowed (service : TimerService) (op : TimerOp) : Prop := service.Free op.addrs

instance (service : TimerService) (addrs : List Addr) : Decidable (service.Free addrs) :=
  inferInstanceAs (Decidable (addrs.Nodup ∧ ∀ addr ∈ addrs, service.memory addr = none))

instance (service : TimerService) (op : TimerOp) : Decidable (op.Allowed service) :=
  inferInstanceAs (Decidable (service.Free op.addrs))

namespace TimerService

/-! ### The properties -/

/-- The timers in the heap are the ones allocated, each once, and the map has
just these, each under its own id. The callbacks of one-shot timers ran once at
most, and all in time and not canceled. Unless the heap is empty, the timerfd
was armed last for the first expiry. -/
structure Invariant (service : TimerService) : Prop where
  live : ∀ addr, addr ∈ service.heap.timers ↔ service.memory addr ≠ none
  distinct : service.heap.timers.Nodup
  registered : ∀ timerId addr, service.registered timerId = some addr ↔
    addr ∈ service.heap.timers ∧
      ∃ timer, service.memory addr = some timer ∧ timer.timerId = timerId
  once : ((service.fired.filter fun fired => !fired.timer.repeats).map
    fun fired => fired.timer.serial).Nodup
  inTime : ∀ fired ∈ service.fired,
    fired.timer.canceled = false ∧ fired.timer.expire ≤ fired.now
  armed : service.heap.timers ≠ 0 → ∃ first ∈ service.heap.timers, ∃ timer,
    service.memory first = some timer ∧ service.armed = some timer.expire ∧
      ∀ other ∈ service.heap.timers, ∀ timer', service.memory other = some timer' →
        timer.expire ≤ timer'.expire

/-- What is left of a timer that was due: of those that were not canceled when
the callbacks were done, the ones that repeat are in the heap, once, and all
others are freed. A timer that is still due is one that repeats without delay. -/
structure TimesOut (before called after : TimerService) (now : Int) : Prop where
  expired : ∀ addr, addr ∈ called.expired ↔ before.Due now addr
  kept : ∀ addr timer, before.memory addr = some timer →
    ∃ canceled, called.memory addr = some { timer with canceled := canceled }
  putBack : ∀ addr ∈ called.expired, ∀ timer, called.memory addr = some timer →
    timer.repeats = true → timer.canceled = false →
    after.memory addr = some { timer with expire := now + timer.interval } ∧
      after.heap.timers.count addr = 1
  freed : ∀ addr ∈ called.expired, ∀ timer, called.memory addr = some timer →
    timer.repeats = false ∨ timer.canceled = true →
    after.memory addr = none ∧ addr ∉ after.heap.timers
  noneDue : ∀ addr timer, after.memory addr = some timer → timer.expire ≤ now →
    (∃ addr' timer', before.memory addr' = some timer' ∧ timer'.serial = timer.serial ∧
      timer'.expire ≤ now) →
    timer.repeats = true ∧ timer.interval = 0 ∧ timer.expire = now

/-- The state between calls. -/
structure Settled (service : TimerService) : Prop where
  stored : service.Stored []
  expired : service.expired = []
  registered : service.Registered
  logged : service.Logged
  unfired : ∀ addr ∈ service.heap.timers, service.Unfired addr
  armed : service.Armed

variable {service : TimerService}

theorem init_settled (garbage : Nat → Addr) : (init garbage).Settled where
  stored := by
    refine ⟨?_, Multiset.nodup_zero, List.nodup_nil, by simp, ordered_of_size_le_one (Nat.zero_le 1)⟩
    intro addr
    simp [init, TimerHeap.timers, TimerHeap.init]
  expired := rfl
  registered := by
    refine ⟨?_, ?_⟩
    · simp [init]
    · simp [init]
  logged := by
    refine ⟨?_, ?_, ?_, ?_, ?_⟩ <;> simp [init]
  unfired := fun _ hmem => absurd hmem (Multiset.notMem_zero _)
  armed := fun hpos => absurd hpos (lt_irrefl 0)

theorem Settled.live_iff (h : service.Settled) (addr : Addr) :
    addr ∈ service.heap.timers ↔ service.memory addr ≠ none := by
  simpa using (h.stored.live addr).symm

theorem timers_ne_zero {heap : TimerHeap} (h : heap.timers ≠ 0) : 0 < heap.size := by
  by_contra hzero
  apply h
  rw [TimerHeap.timers, Nat.eq_zero_of_not_pos hzero, contents_zero]

theorem Settled.invariant (h : service.Settled) : service.Invariant where
  live := h.live_iff
  distinct := h.stored.nodup
  registered := by
    intro timerId addr
    rw [h.registered.lookup]
    constructor
    · rintro ⟨timer, htimer, hid⟩
      exact ⟨(h.live_iff addr).mpr (htimer ▸ Option.some_ne_none timer), timer, htimer, hid⟩
    · exact fun hfound => hfound.2
  once := h.logged.once
  inTime := h.logged.inTime
  armed := by
    intro hne
    have hpos := timers_ne_zero hne
    obtain ⟨hmem, timer, htimer⟩ := h.stored.top hpos
    refine ⟨_, hmem, timer, htimer, ?_, fun other hother timer' htimer' =>
      h.stored.top_le htimer hother htimer'⟩
    rw [h.armed hpos, expireOf, htimer, Option.map_some]

/-! ### Steps -/

theorem Settled.call (h : service.Settled) {call : TimerCall} (hfree : service.Free call.addrs) :
    ∃ after, service.callStep call = some after ∧ after.Settled := by
  obtain ⟨after, hstep, hafter⟩ := callStep_spec h.stored h.registered h.logged call hfree
  refine ⟨after, hstep, hafter.stored, hafter.keeps.expired.trans h.expired, hafter.registered,
    hafter.logged, ?_, hafter.armed h.armed⟩
  intro addr _
  apply Unfired.keeps h.logged hafter.keeps
  cases hbefore : service.memory addr with
  | none =>
      intro timer htimer
      rw [hbefore] at htimer
      exact absurd htimer.symm (Option.some_ne_none timer)
  | some timer => exact h.unfired addr ((h.live_iff addr).mpr (hbefore ▸ Option.some_ne_none timer))

/-- The passes before timers are put back take out the timers that are due. -/
theorem Settled.expireAndCall (h : service.Settled) (hpos : 0 < service.heap.size) (now : Int)
    {scripts : List (List TimerCall)}
    (hfree : service.Free (scripts.flatten.flatMap TimerCall.addrs)) :
    ∃ called, service.expireAndCall now scripts = some called ∧
      (∀ addr, addr ∈ called.expired ↔ service.Due now addr) ∧
      (∀ addr timer, service.memory addr = some timer →
        ∃ canceled, called.memory addr = some { timer with canceled := canceled }) ∧
      (∀ addr timer, called.memory addr = some timer → service.memory addr = none →
        service.added ≤ timer.serial) ∧
      called.Stored called.expired ∧ called.Registered ∧ called.Logged ∧
      ∀ addr ∈ called.heap.timers, called.Unfired addr := by
  let start : TimerService := { service with heap := (service.heap.read 1).2 }
  have hstart : start.Stored start.expired := by
    change start.Stored service.expired
    rw [h.expired]
    exact h.stored.read 1
  obtain ⟨heap, batch, hloop, hstored, hbatch, hleft⟩ :=
    @expireLoop_spec start now hstart hpos (service.heap.size + 1) (Nat.lt_succ_self _)
  let popped : TimerService := { start with heap := heap, expired := start.expired ++ batch }
  have hexpired : popped.expired = batch := by
    change service.expired ++ batch = batch
    rw [h.expired, List.nil_append]
  have hdue : ∀ addr, addr ∈ batch ↔ service.Due now addr := by
    intro addr
    refine ⟨hbatch addr, ?_⟩
    intro hdue
    obtain ⟨timer, htimer, -⟩ := id hdue
    have hlive := (hstored.live addr).mp (show service.memory addr ≠ none from
      htimer ▸ Option.some_ne_none timer)
    rcases hlive with hin | hin
    · exact absurd hdue (hleft addr hin)
    · exact hexpired ▸ hin
  have hunfired : ∀ addr, popped.Unfired addr := by
    intro addr timer htimer
    exact h.unfired addr ((h.live_iff addr).mpr (show service.memory addr ≠ none from
      htimer ▸ Option.some_ne_none timer)) timer htimer
  obtain ⟨called, hcalls, hcalled⟩ := @callbackLoop_spec popped now popped.expired scripts hstored
    ⟨h.registered.lookup, h.registered.ids⟩
    ⟨h.logged.numbered, h.logged.serials, h.logged.firedNumbered, h.logged.inTime, h.logged.once⟩
    hstored.pendingNodup (fun _ hmem => hmem)
    (fun addr hmem => (hdue addr).mp (hexpired ▸ hmem)) (fun addr _ => hunfired addr)
    (fun addr _ => hunfired addr) hfree
  refine ⟨called, ?_, ?_, hcalled.keeps.memory, hcalled.keeps.fresh, hcalled.stored,
    hcalled.registered, hcalled.logged, hcalled.unfired⟩
  · change (expireLoop now (service.heap.size + 1) start (service.heap.slot 1)).bind _ = _
    have hloop' : expireLoop now (service.heap.size + 1) start (service.heap.slot 1) = some popped :=
      hloop
    rw [hloop']
    exact hcalls
  · intro addr
    rw [hcalled.keeps.expired, hexpired]
    exact hdue addr

/-- The last thing a timeout does. -/
theorem arm_settled (h : service.Stored []) (hexpired : service.expired = [])
    (hreg : service.Registered) (hlog : service.Logged)
    (hunfired : ∀ addr ∈ service.heap.timers, service.Unfired addr) :
    ∃ after, (if 0 < service.heap.size then service.arm else some service) = some after ∧
      after.Settled ∧ after.memory = service.memory ∧ after.heap.timers = service.heap.timers := by
  by_cases hpos : 0 < service.heap.size
  · obtain ⟨hmem, timer, htimer⟩ := h.top hpos
    have hexpire : service.expireOf (service.heap.slot 1) = some timer.expire := by
      rw [expireOf, htimer, Option.map_some]
    rw [if_pos hpos]
    refine ⟨_, arm_eq hexpire, ⟨⟨h.live, h.nodup, h.pendingNodup, h.apart, h.ordered⟩, hexpired,
      ⟨hreg.lookup, hreg.ids⟩,
      ⟨hlog.numbered, hlog.serials, hlog.firedNumbered, hlog.inTime, hlog.once⟩, hunfired, ?_⟩,
      rfl, rfl⟩
    intro _
    exact hexpire.symm
  · rw [if_neg hpos]
    exact ⟨service, rfl, ⟨h, hexpired, hreg, hlog, hunfired, fun hsize => absurd hsize hpos⟩, rfl,
      rfl⟩

/-- A timer of the heap that is in there once. -/
theorem Settled.count_eq_one (h : service.Settled) {addr : Addr} {timer : Timer}
    (htimer : service.memory addr = some timer) : service.heap.timers.count addr = 1 :=
  Multiset.count_eq_one_of_mem h.stored.nodup
    ((h.live_iff addr).mpr (htimer ▸ Option.some_ne_none timer))

theorem Settled.timesOut_empty (h : service.Settled) (now : Int)
    (hempty : service.heap.size < 1) : service.TimesOut service service now := by
  have hnone : ∀ addr, service.memory addr = none := by
    intro addr
    by_contra hused
    obtain ⟨i, hi, -⟩ := TimerHeap.mem_timers.mp ((h.live_iff addr).mpr hused)
    omega
  refine ⟨?_, ?_, ?_, ?_, ?_⟩
  · intro addr
    rw [h.expired]
    simp [Due, hnone]
  · intro addr timer htimer
    exact ⟨timer.canceled, htimer⟩
  · intro addr hmem
    simp [h.expired] at hmem
  · intro addr hmem
    simp [h.expired] at hmem
  · intro addr timer htimer
    rw [hnone] at htimer
    exact absurd htimer.symm (Option.some_ne_none timer)

/-- The pass that puts timers back decides what is left of those that were
due. -/
theorem Settled.timesOut_of_reinserted {called after : TimerService} {now : Int}
    (h : service.Settled) (hexpired : ∀ addr, addr ∈ called.expired ↔ service.Due now addr)
    (hkept : ∀ addr timer, service.memory addr = some timer →
      ∃ canceled, called.memory addr = some { timer with canceled := canceled })
    (hfresh : ∀ addr timer, called.memory addr = some timer → service.memory addr = none →
      service.added ≤ timer.serial)
    (hafter : after.Settled)
    (hleft : ∀ addr, after.memory addr = if addr ∈ called.expired
      then (called.memory addr).bind (afterTimeout now) else called.memory addr) :
    service.TimesOut called after now := by
  refine ⟨hexpired, hkept, ?_, ?_, ?_⟩
  · intro addr hmem timer htimer hrepeats hactive
    have hput : after.memory addr = some { timer with expire := now + timer.interval } := by
      rw [hleft, if_pos hmem, htimer, Option.bind_some, afterTimeout, hrepeats, hactive]
      rfl
    exact ⟨hput, hafter.count_eq_one hput⟩
  · intro addr hmem timer htimer hstops
    have hfreed : after.memory addr = none := by
      rw [hleft, if_pos hmem, htimer, Option.bind_some, afterTimeout]
      rcases hstops with hstops | hstops <;> simp [hstops]
    exact ⟨hfreed, fun hin => (hafter.live_iff addr).mp hin hfreed⟩
  · rintro addr timer htimer hle ⟨addr', timer', htimer', hserial, hdue⟩
    rw [hleft] at htimer
    by_cases hmem : addr ∈ called.expired
    · rw [if_pos hmem] at htimer
      obtain ⟨found, -, hputBack⟩ := Option.bind_eq_some_iff.mp htimer
      obtain ⟨hputs, heq⟩ := Option.ite_none_right_eq_some.mp hputBack
      obtain rfl := Option.some.inj heq
      have hrepeats : found.repeats = true := (Bool.and_eq_true_iff.mp hputs).1
      dsimp only at hle ⊢
      exact ⟨hrepeats, by omega, by omega⟩
    · rw [if_neg hmem] at htimer
      exfalso
      cases hbefore : service.memory addr with
      | none =>
          have hnew := hfresh addr timer htimer hbefore
          have hold := h.logged.numbered addr' timer' htimer'
          omega
      | some found =>
          obtain ⟨canceled, hsame⟩ := hkept addr found hbefore
          obtain rfl := Option.some.inj (hsame.symm.trans htimer)
          obtain rfl := h.logged.serials addr' timer' addr found htimer' hbefore hserial
          obtain rfl := Option.some.inj (htimer'.symm.trans hbefore)
          exact hmem ((hexpired addr').mpr ⟨timer', htimer', hdue⟩)

/-- A timeout with free memory for the timers that its callbacks add has a
result and leaves the service settled. -/
theorem Settled.timeout (h : service.Settled) (now : Int) {scripts : List (List TimerCall)}
    (hfree : service.Free (scripts.flatten.flatMap TimerCall.addrs)) :
    ∃ called after, (0 < service.heap.size → service.expireAndCall now scripts = some called) ∧
      service.timerHeapTimeout now scripts = some after ∧ after.Settled ∧
      service.TimesOut called after now := by
  by_cases hempty : service.heap.size < 1
  · exact ⟨service, service, fun hpos => absurd hempty (by omega), if_pos hempty, h,
      h.timesOut_empty now hempty⟩
  have hpos : 0 < service.heap.size := by omega
  obtain ⟨called, hcalls, hexpired, hkept, hfresh, hstored, hreg, hlog, hunfired⟩ :=
    h.expireAndCall hpos now hfree
  obtain ⟨put, hreinsert, hput⟩ := @reinsertLoop_spec called now called.expired hstored hreg hlog
    hunfired
  obtain ⟨after, harm, hsettled, hmemory, htimers⟩ := @arm_settled { put with expired := [] }
    ⟨hput.stored.live, hput.stored.nodup, hput.stored.pendingNodup, hput.stored.apart,
      hput.stored.ordered⟩ rfl ⟨hput.registered.lookup, hput.registered.ids⟩
    ⟨hput.logged.numbered, hput.logged.serials, hput.logged.firedNumbered, hput.logged.inTime,
      hput.logged.once⟩ hput.unfired
  have hleft : ∀ addr, after.memory addr = if addr ∈ called.expired
      then (called.memory addr).bind (afterTimeout now) else called.memory addr := by
    intro addr
    rw [hmemory]
    exact hput.memory addr
  refine ⟨called, after, fun _ => hcalls, ?_, hsettled,
    h.timesOut_of_reinserted hexpired hkept hfresh hsettled hleft⟩
  simp only [timerHeapTimeout, hempty, if_false, hcalls, hreinsert, Option.bind_eq_bind,
    Option.bind_some]
  exact harm

end TimerService

theorem timerStep_settled {service : TimerService} (h : service.Settled) {op : TimerOp}
    (hallowed : op.Allowed service) :
    ∃ after, timerStep service op = some after ∧ after.Settled := by
  cases op with
  | call action => exact h.call hallowed
  | timeout now scripts =>
      obtain ⟨called, after, -, hstep, hafter, -⟩ := h.timeout now hallowed
      exact ⟨after, hstep, hafter⟩

/-- Every sequence of calls and timeouts, with callbacks that add, cancel and
resume timers, leaves the service in order, and so does the next timeout. -/
theorem timerService_invariant (garbage : Nat → Addr) {ops : List TimerOp}
    (hops : Admissible TimerOp.Allowed timerStep (TimerService.init garbage) ops) :
    ∃ service, runs timerStep (TimerService.init garbage) ops = some service ∧
      service.Invariant ∧
      ∀ now scripts, (TimerOp.timeout now scripts).Allowed service →
        ∃ called after,
          (0 < service.heap.size → service.expireAndCall now scripts = some called) ∧
          service.timerHeapTimeout now scripts = some after ∧ after.Invariant ∧
          service.TimesOut called after now := by
  obtain ⟨service, hrun, hsettled⟩ := @runs_invariant _ _ TimerOp.Allowed timerStep
    TimerService.Settled (fun _ _ h hallowed => timerStep_settled h hallowed) ops _
    (TimerService.init_settled garbage) hops
  refine ⟨service, hrun, hsettled.invariant, ?_⟩
  intro now scripts hallowed
  obtain ⟨called, after, hcalls, hstep, hafter, htimes⟩ := hsettled.timeout now hallowed
  exact ⟨called, after, hcalls, hstep, hafter.invariant, htimes⟩

/-- A one-shot timer whose callback adds one that repeats. -/
def oneThenRepeating : List TimerOp :=
  [.call (.add 1 100 false 0 0), .timeout 200 [[.add 2 1000 true 200 201]]]

theorem timerService_invariant_oneThenRepeating :
    ∃ service, runs timerStep (TimerService.init fun _ => 0) oneThenRepeating = some service ∧
      service.Invariant ∧
      ∀ now scripts, (TimerOp.timeout now scripts).Allowed service →
        ∃ called after,
          (0 < service.heap.size → service.expireAndCall now scripts = some called) ∧
          service.timerHeapTimeout now scripts = some after ∧ after.Invariant ∧
          service.TimesOut called after now :=
  timerService_invariant (fun _ => 0) (by decide +kernel)

/-- A timer that repeats without delay is still due when the timeout is over. -/
theorem exists_due_after_timeout : ∃ service after timer timer',
    runs timerStep (TimerService.init fun _ => 0) [.call (.add 1 0 true 0 0)] = some service ∧
      service.timerHeapTimeout 5 [] = some after ∧
      service.memory 1 = some timer ∧ timer.expire ≤ 5 ∧
      after.memory 1 = some timer' ∧ timer'.serial = timer.serial ∧ timer'.expire ≤ 5 := by
  refine ⟨_, _, _, _, rfl, rfl, rfl, ?_, rfl, rfl, ?_⟩
  · decide
  · decide

end TinyMqtt
