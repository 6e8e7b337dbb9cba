import TinyMqtt.Ev.TimerCalls

/-!
The three passes of `timer_heap_timeout`. Each is described by what it does to
the timers that are out of the heap: the first takes out those that are due,
the second runs their callbacks while the rest of the service may change, and
the third puts each back or frees it.
-/

namespace TinyMqtt

open BinaryHeap LinkedList Run

namespace TimerService

variable {service : TimerService} {pending : List Addr} {now : Int}

/-- The timer at this address is due. -/
def Due (service : TimerService) (now : Int) (addr : Addr) : Prop :=
  ∃ timer, service.memory addr = some timer ∧ timer.expire ≤ now

/-! ### The first pass -/

/-- The first timer of a heap that is not empty. -/
theorem Stored.top (h : service.Stored pending) (hpos : 0 < service.heap.size) :
    service.heap.slot 1 ∈ service.heap.timers ∧
      ∃ timer, service.memory (service.heap.slot 1) = some timer := by
  have hmem : service.heap.slot 1 ∈ service.heap.timers :=
    TimerHeap.mem_timers.mpr ⟨1, ⟨le_rfl, hpos⟩, rfl⟩
  exact ⟨hmem, Option.ne_none_iff_exists'.mp ((h.live _).mpr (Or.inl hmem))⟩

/-- No timer of the heap expires before the first one. -/
theorem Stored.top_le (h : service.Stored pending) {top timer : Timer} {addr : Addr}
    (htop : service.memory (service.heap.slot 1) = some top)
    (hmem : addr ∈ service.heap.timers) (htimer : service.memory addr = some timer) :
    top.expire ≤ timer.expire := by
  have hle := h.ordered.root_le_of_mem hmem
  have hkeyTop : service.expireOf (service.heap.slot 1) = some top.expire := by
    rw [expireOf, htop, Option.map_some]
  have hkey : service.expireOf addr = some timer.expire := by
    rw [expireOf, htimer, Option.map_some]
  rwa [TimerHeap.expireKey_eq hkeyTop, TimerHeap.expireKey_eq hkey] at hle

/-- Taking the first timer out makes it pending. -/
theorem Stored.pop (h : service.Stored pending) (hpos : 0 < service.heap.size) :
    ∃ heap, TimerHeap.timerHeapPop service.expireOf service.heap
        = some (heap, some (service.heap.slot 1)) ∧
      heap.size + 1 = service.heap.size ∧
      service.heap.slot 1 ::ₘ heap.timers = service.heap.timers ∧
      ∀ expired, { service with heap := heap, expired := expired }.Stored
        (pending ++ [service.heap.slot 1]) := by
  obtain ⟨heap, hpop, hsize, -, htimers, horder⟩ :=
    TimerHeap.timerHeapPop_spec hpos h.liveHeap
  refine ⟨heap, hpop, hsize, htimers, fun expired => ?_⟩
  have hnodup := h.nodup
  rw [← htimers, Multiset.nodup_cons] at hnodup
  have hmem : ∀ addr, addr ∈ service.heap.timers ↔
      addr = service.heap.slot 1 ∨ addr ∈ heap.timers := by
    intro addr
    rw [← htimers, Multiset.mem_cons]
  refine ⟨?_, hnodup.2, ?_, ?_, horder h.ordered⟩
  · intro addr
    change service.memory addr ≠ none ↔ addr ∈ heap.timers ∨ _
    rw [h.live addr, hmem addr, List.mem_append, List.mem_singleton]
    tauto
  · rw [List.nodup_append]
    refine ⟨h.pendingNodup, List.nodup_singleton _, ?_⟩
    rintro addr hpending other hother rfl
    rw [List.mem_singleton] at hother
    exact h.apart addr hpending ((hmem addr).mpr (Or.inl hother))
  · intro addr haddr
    change addr ∉ heap.timers
    rcases List.mem_append.mp haddr with haddr | haddr
    · exact fun hin => h.apart addr haddr ((hmem addr).mpr (Or.inr hin))
    · rw [List.mem_singleton.mp haddr]
      exact hnodup.1

/-- Looking at a slot changes nothing. -/
theorem Stored.read (h : service.Stored pending) (i : Nat) :
    { service with heap := (service.heap.read i).2 }.Stored pending :=
  ⟨h.live, h.nodup, h.pendingNodup, h.apart, h.ordered⟩

/-- The timers that are due are taken out of the heap, and no others. -/
theorem expireLoop_spec (h : service.Stored service.expired) (hpos : 0 < service.heap.size)
    {rounds : Nat} (hrounds : service.heap.size < rounds) :
    ∃ heap batch, expireLoop now rounds service (service.heap.slot 1)
        = some { service with heap := heap, expired := service.expired ++ batch } ∧
      { service with heap := heap, expired := service.expired ++ batch }.Stored
        (service.expired ++ batch) ∧
      (∀ addr ∈ batch, service.Due now addr) ∧ ∀ addr ∈ heap.timers, ¬ service.Due now addr := by
  induction rounds generalizing service with
  | zero => omega
  | succ rounds ih =>
      obtain ⟨-, timer, htimer⟩ := h.top hpos
      have hexpire : service.expireOf (service.heap.slot 1) = some timer.expire := by
        rw [expireOf, htimer, Option.map_some]
      by_cases hdue : timer.expire ≤ now
      · obtain ⟨popped, hpop, hsize, -, hstored⟩ := h.pop hpos
        have hstored := hstored (service.expired ++ [service.heap.slot 1])
        by_cases hempty : popped.size = 0
        · refine ⟨popped, [service.heap.slot 1], ?_, hstored, ?_, ?_⟩
          · simp [expireLoop, hexpire, hdue, hpop, hempty]
          · intro addr hmem
            rw [List.mem_singleton.mp hmem]
            exact ⟨timer, htimer, hdue⟩
          · intro addr hmem
            obtain ⟨i, hi, -⟩ := TimerHeap.mem_timers.mp hmem
            omega
        · let next : TimerService := { service with
            heap := (popped.read 1).2
            expired := service.expired ++ [service.heap.slot 1] }
          have hnext : next.Stored next.expired := hstored.read 1
          obtain ⟨heap, batch, hloop, hdone, hbatch, hleft⟩ :=
            @ih next hnext (Nat.pos_of_ne_zero hempty) (by
              change popped.size < rounds
              omega)
          refine ⟨heap, service.heap.slot 1 :: batch, ?_, ?_, ?_, hleft⟩
          · simp only [expireLoop, hexpire, Option.bind_eq_bind, Option.bind_some, hdue, if_true,
              hpop, hempty, if_false]
            refine hloop.trans ?_
            simp [next]
          · rw [List.append_cons]
            exact hdone
          · intro addr hmem
            rcases List.mem_cons.mp hmem with rfl | hmem
            · exact ⟨timer, htimer, hdue⟩
            · exact hbatch addr hmem
      · refine ⟨service.heap, [], ?_, ?_, by simp, ?_⟩
        · simp [expireLoop, hexpire, hdue]
        · simpa using h
        · rintro addr hmem ⟨other, hother, hle⟩
          exact hdue ((h.top_le htimer hmem hother).trans hle)

/-! ### The second pass -/

/-- The record of a callback that is about to run. -/
def record (service : TimerService) (timer : Timer) (now : Int) : TimerService :=
  { service with fired := service.fired ++ [⟨timer, now⟩] }

theorem Stored.record (h : service.Stored pending) (timer : Timer) (now : Int) :
    (service.record timer now).Stored pending :=
  ⟨h.live, h.nodup, h.pendingNodup, h.apart, h.ordered⟩

theorem Registered.record (h : service.Registered) (timer : Timer) (now : Int) :
    (service.record timer now).Registered := ⟨h.lookup, h.ids⟩

/-- A callback runs in time, and for the first time if its timer does not
repeat. -/
theorem Logged.record (h : service.Logged) {addr : Addr} {timer : Timer}
    (htimer : service.memory addr = some timer) (hactive : timer.canceled = false)
    (hdue : timer.expire ≤ now) (hunfired : service.Unfired addr) :
    (service.record timer now).Logged where
  numbered := h.numbered
  serials := h.serials
  firedNumbered := by
    intro fired hmem
    rcases List.mem_append.mp hmem with hmem | hmem
    · exact h.firedNumbered fired hmem
    · rw [List.mem_singleton.mp hmem]
      exact h.numbered addr timer htimer
  inTime := by
    intro fired hmem
    rcases List.mem_append.mp hmem with hmem | hmem
    · exact h.inTime fired hmem
    · rw [List.mem_singleton.mp hmem]
      exact ⟨hactive, hdue⟩
  once := by
    change (((service.fired ++ [_]).filter _).map _).Nodup
    rw [List.filter_append, List.map_append]
    cases hrepeats : timer.repeats with
    | true => simpa [hrepeats] using h.once
    | false =>
        simp only [hrepeats, Bool.not_false, List.filter_cons_of_pos, List.filter_nil,
          List.map_cons, List.map_nil]
        rw [List.nodup_append]
        refine ⟨h.once, List.nodup_singleton _, ?_⟩
        rintro serial hserial other hother rfl
        obtain ⟨fired, hfired, hsame⟩ := List.mem_map.mp hserial
        rw [List.mem_singleton] at hother
        exact hunfired timer htimer hrepeats fired (List.mem_of_mem_filter hfired)
          (hsame.trans hother)

/-- The record says nothing about the other timers. -/
theorem Unfired.record (hlog : service.Logged) {addr other : Addr} {timer : Timer}
    (htimer : service.memory addr = some timer) (h : service.Unfired other) (hne : other ≠ addr) :
    (service.record timer now).Unfired other := by
  intro timer' htimer' honce fired hmem
  rcases List.mem_append.mp hmem with hmem | hmem
  · exact h timer' htimer' honce fired hmem
  · rw [List.mem_singleton.mp hmem]
    exact fun hsame => hne (hlog.serials other timer' addr timer htimer' htimer hsame.symm)

theorem record_keepsTimers (service : TimerService) (timer : Timer) (now : Int) :
    service.KeepsTimers (service.record timer now) := by
  have hrefl := KeepsTimers.refl service
  exact ⟨hrefl.memory, hrefl.fresh, rfl, le_rfl⟩

theorem KeepsTimers.due {after : TimerService} (h : service.KeepsTimers after) {addr : Addr}
    (hdue : service.Due now addr) : after.Due now addr := by
  obtain ⟨timer, htimer, hle⟩ := hdue
  obtain ⟨canceled, hafter⟩ := h.memory addr timer htimer
  exact ⟨_, hafter, hle⟩

structure PassKeeps (before after : TimerService) : Prop where
  stored : after.Stored after.expired
  registered : after.Registered
  logged : after.Logged
  keeps : before.KeepsTimers after
  unfired : ∀ addr ∈ after.heap.timers, after.Unfired addr

/-- Callbacks run for timers that are due and not canceled, and those that are
in the heap afterwards have still to run. -/
theorem callbackLoop_spec {timers : List Addr} {scripts : List (List TimerCall)}
    (hstored : service.Stored service.expired) (hreg : service.Registered)
    (hlog : service.Logged) (hnodup : timers.Nodup) (htimers : ∀ addr ∈ timers, addr ∈ service.expired)
    (hdue : ∀ addr ∈ timers, service.Due now addr)
    (hunfired : ∀ addr ∈ service.heap.timers, service.Unfired addr)
    (hunfired' : ∀ addr ∈ timers, service.Unfired addr)
    (hfree : service.Free (scripts.flatten.flatMap TimerCall.addrs)) :
    ∃ after, callbackLoop now timers scripts service = some after ∧ service.PassKeeps after := by
  induction timers generalizing service scripts with
  | nil => exact ⟨service, rfl, hstored, hreg, hlog, KeepsTimers.refl service, hunfired⟩
  | cons timer timers ih =>
      obtain ⟨fields, hfields, hexpire⟩ := hdue timer List.mem_cons_self
      obtain ⟨hnew, hnodup⟩ := List.nodup_cons.mp hnodup
      have hothers : ∀ addr ∈ timers, addr ≠ timer := fun addr hmem heq => hnew (heq ▸ hmem)
      by_cases hcanceled : fields.canceled = true
      · obtain ⟨after, hloop, hafter⟩ := ih hstored hreg hlog hnodup
          (fun addr hmem => htimers addr (List.mem_cons_of_mem _ hmem))
          (fun addr hmem => hdue addr (List.mem_cons_of_mem _ hmem)) hunfired
          (fun addr hmem => hunfired' addr (List.mem_cons_of_mem _ hmem)) hfree
        refine ⟨after, ?_, hafter⟩
        simp [callbackLoop, hfields, hcanceled, hloop]
      rw [Bool.not_eq_true] at hcanceled
      have hrecorded := hlog.record hfields hcanceled hexpire (hunfired' timer List.mem_cons_self)
      -- the script of this callback, and the ones that are left
      have hsplit : scripts.flatten.flatMap TimerCall.addrs
          = (scripts.headD []).flatMap TimerCall.addrs
            ++ scripts.tail.flatten.flatMap TimerCall.addrs := by
        cases scripts <;> simp
      rw [hsplit] at hfree
      have hfreeScript : (service.record fields now).Free
          ((scripts.headD []).flatMap TimerCall.addrs) :=
        ⟨(List.nodup_append.mp hfree.1).1,
          fun addr hmem => hfree.2 addr (List.mem_append_left _ hmem)⟩
      obtain ⟨next, hrun, hnext⟩ := runs_callStep_spec (hstored.record fields now)
        (hreg.record fields now) hrecorded (scripts.headD []) hfreeScript
      have hkeeps := (record_keepsTimers service fields now).trans hnext.keeps.toKeepsTimers
      have hexpired : next.expired = service.expired := hkeeps.expired
      have hnextUnfired : ∀ addr ∈ next.heap.timers, next.Unfired addr := by
        intro addr hmem
        have hout : addr ∉ service.expired := fun hin => hnext.stored.apart addr hin hmem
        have hne : addr ≠ timer := by
          rintro rfl
          exact hout (htimers addr List.mem_cons_self)
        apply Unfired.keeps hrecorded hnext.keeps
        cases hbefore : service.memory addr with
        | none =>
            intro other hother
            rw [show (service.record fields now).memory addr = none from hbefore] at hother
            exact absurd hother.symm (Option.some_ne_none other)
        | some other =>
            have hlive := (hstored.live addr).mp (hbefore ▸ Option.some_ne_none other)
            exact Unfired.record hlog hfields (hunfired addr (hlive.resolve_right hout)) hne
      obtain ⟨after, hloop, hafter⟩ := @ih next scripts.tail (hexpired ▸ hnext.stored)
        hnext.registered hnext.logged hnodup
        (fun addr hmem => hexpired ▸ htimers addr (List.mem_cons_of_mem _ hmem))
        (fun addr hmem => hkeeps.due (hdue addr (List.mem_cons_of_mem _ hmem))) hnextUnfired
        (fun addr hmem => Unfired.keeps hrecorded hnext.keeps (Unfired.record hlog hfields
          (hunfired' addr (List.mem_cons_of_mem _ hmem)) (hothers addr hmem)))
        (Free.rest (hfree : (service.record fields now).Free _) hnext.allocated)
      refine ⟨after, ?_, hafter.stored, hafter.registered, hafter.logged,
        hkeeps.trans hafter.keeps, hafter.unfired⟩
      simp only [callbackLoop, hfields, Option.bind_eq_bind, Option.bind_some, hcanceled,
        Bool.false_eq_true, if_false]
      change (runs callStep (service.record fields now) (scripts.headD [])).bind _ = _
      rw [hrun]
      exact hloop

/-! ### The third pass -/

/-- What becomes of an expired timer: put back with a new expiry, or freed. -/
def afterTimeout (now : Int) (timer : Timer) : Option Timer :=
  if timer.repeats && !timer.canceled then some { timer with expire := now + timer.interval }
  else none

section Rewrite

variable {addr : Addr} {timer timer' : Timer}

theorem memory_update {fields : Option Timer} {other : Addr} {found : Timer}
    (h : Function.update service.memory addr fields other = some found) :
    (other = addr ∧ fields = some found) ∨ (other ≠ addr ∧ service.memory other = some found) := by
  by_cases hsame : other = addr
  · subst hsame
    rw [Function.update_self] at h
    exact Or.inl ⟨rfl, h⟩
  · rw [Function.update_of_ne hsame] at h
    exact Or.inr ⟨hsame, h⟩

/-- A timer that keeps its id keeps its entry. -/
theorem Registered.rewrite (h : service.Registered) (htimer : service.memory addr = some timer)
    (hid : timer'.timerId = timer.timerId) (heap : TimerHeap) :
    { service with
      memory := Function.update service.memory addr (some timer')
      heap := heap }.Registered where
  lookup := by
    intro timerId other
    refine (h.lookup timerId other).trans ?_
    by_cases hsame : other = addr
    · subst hsame
      simp [htimer, hid]
    · simp [hsame]
  ids := by
    intro other found hfound
    rcases memory_update hfound with ⟨rfl, heq⟩ | ⟨-, hbefore⟩
    · obtain rfl := Option.some.inj heq
      rw [hid]
      exact h.ids other timer htimer
    · exact h.ids other found hbefore

/-- A timer that is freed loses its entry. -/
theorem Registered.erase (h : service.Registered) (htimer : service.memory addr = some timer) :
    { service with
      registered := Function.update service.registered timer.timerId none
      memory := Function.update service.memory addr none }.Registered where
  lookup := by
    intro timerId other
    change Function.update service.registered timer.timerId none timerId = some other ↔
      ∃ found, Function.update service.memory addr none other = some found ∧ _
    constructor
    · intro hlookup
      by_cases hsame : timerId = timer.timerId
      · rw [hsame, Function.update_self] at hlookup
        exact absurd hlookup.symm (Option.some_ne_none other)
      · rw [Function.update_of_ne hsame] at hlookup
        obtain ⟨found, hfound, hid⟩ := (h.lookup timerId other).mp hlookup
        have hne : other ≠ addr := by
          rintro rfl
          obtain rfl := Option.some.inj (htimer.symm.trans hfound)
          exact hsame hid.symm
        exact ⟨found, (Function.update_of_ne hne _ _).trans hfound, hid⟩
    · rintro ⟨found, hfound, hid⟩
      rcases memory_update hfound with ⟨-, heq⟩ | ⟨hne, hbefore⟩
      · exact absurd heq.symm (Option.some_ne_none found)
      · have hother : timerId ≠ timer.timerId := by
          rintro rfl
          have hfirst := h.ids other found hbefore
          rw [hid, h.ids addr timer htimer] at hfirst
          exact hne hfirst.symm
        rw [Function.update_of_ne hother]
        exact (h.lookup timerId other).mpr ⟨found, hbefore, hid⟩
  ids := by
    intro other found hfound
    rcases memory_update hfound with ⟨-, heq⟩ | ⟨-, hbefore⟩
    · exact absurd heq.symm (Option.some_ne_none found)
    · exact h.ids other found hbefore

/-- Timers that keep their numbers, or are freed. -/
theorem Logged.rewrite (h : service.Logged) {fields : Option Timer}
    (hfields : ∀ found, fields = some found →
      ∃ timer, service.memory addr = some timer ∧ found.serial = timer.serial)
    (heap : TimerHeap) (registered : TimerId → Option Addr) :
    { service with
      memory := Function.update service.memory addr fields
      heap := heap
      registered := registered }.Logged := by
  have hbefore : ∀ {other : Addr} {found : Timer},
      Function.update service.memory addr fields other = some found →
      ∃ timer, service.memory other = some timer ∧ found.serial = timer.serial := by
    intro other found hfound
    rcases memory_update hfound with ⟨rfl, heq⟩ | ⟨-, hmem⟩
    · exact hfields found heq
    · exact ⟨found, hmem, rfl⟩
  refine ⟨?_, ?_, h.firedNumbered, h.inTime, h.once⟩
  · intro other found hfound
    obtain ⟨timer, htimer, hserial⟩ := hbefore hfound
    rw [hserial]
    exact h.numbered other timer htimer
  · intro first found second found' hfirst hsecond hsame
    obtain ⟨timer, htimer, hserial⟩ := hbefore hfirst
    obtain ⟨timer', htimer', hserial'⟩ := hbefore hsecond
    rw [hserial, hserial'] at hsame
    exact h.serials first timer second timer' htimer htimer' hsame

end Rewrite

/-- A pending timer goes back into the heap with another expiry. -/
theorem Stored.reinsert {timer : Addr} {timers : List Addr} {fields fields' : Timer}
    (h : service.Stored (timer :: timers)) (hfields : service.memory timer = some fields) :
    ∃ heap changed, TimerHeap.timerHeapInsert
        { service with memory := Function.update service.memory timer (some fields') }.expireOf
        service.heap timer = some (heap, changed) ∧
      heap.timers = timer ::ₘ service.heap.timers ∧
      { service with
        memory := Function.update service.memory timer (some fields')
        heap := heap }.Stored timers := by
  obtain ⟨hnew, hnodup⟩ := List.nodup_cons.mp h.pendingNodup
  have hout : timer ∉ service.heap.timers := h.apart timer List.mem_cons_self
  let moved : TimerService :=
    { service with memory := Function.update service.memory timer (some fields') }
  have hsame : ∀ other ∈ service.heap.timers, moved.expireOf other = service.expireOf other := by
    intro other hmem
    have hne : other ≠ timer := fun heq => hout (heq ▸ hmem)
    simp [moved, expireOf, hne]
  have hlive : TimerHeap.Live moved.expireOf (timer ::ₘ service.heap.timers) := by
    intro other hmem
    rcases Multiset.mem_cons.mp hmem with rfl | hmem
    · exact ⟨fields'.expire, by simp [moved, expireOf]⟩
    · rw [hsame other hmem]
      exact h.liveHeap other hmem
  obtain ⟨heap, changed, hinsert, -, -, -, htimers, -, horder⟩ :=
    TimerHeap.timerHeapInsert_spec hlive
  refine ⟨heap, changed, hinsert, htimers, ?_, ?_, hnodup, ?_, ?_⟩
  · intro other
    change Function.update service.memory timer (some fields') other ≠ none ↔
      other ∈ heap.timers ∨ other ∈ timers
    rw [htimers, Multiset.mem_cons]
    by_cases heq : other = timer
    · simp [heq]
    · rw [Function.update_of_ne heq, h.live other, List.mem_cons]
      tauto
  · change heap.timers.Nodup
    rw [htimers, Multiset.nodup_cons]
    exact ⟨hout, h.nodup⟩
  · intro other hmem
    change other ∉ heap.timers
    rw [htimers, Multiset.mem_cons, not_or]
    exact ⟨fun heq => hnew (heq ▸ hmem), h.apart other (List.mem_cons_of_mem _ hmem)⟩
  · refine horder (h.ordered.congr ?_)
    intro other hmem
    simp only [TimerHeap.expireKey, hsame other hmem]

/-- A pending timer is freed. -/
theorem Stored.free {timer : Addr} {timers : List Addr} (h : service.Stored (timer :: timers))
    (registered : TimerId → Option Addr) :
    { service with
      registered := registered
      memory := Function.update service.memory timer none }.Stored timers := by
  obtain ⟨hnew, hnodup⟩ := List.nodup_cons.mp h.pendingNodup
  have hout : timer ∉ service.heap.timers := h.apart timer List.mem_cons_self
  refine ⟨?_, h.nodup, hnodup, fun other hmem => h.apart other (List.mem_cons_of_mem _ hmem), ?_⟩
  · intro other
    change Function.update service.memory timer none other ≠ none ↔
      other ∈ service.heap.timers ∨ other ∈ timers
    by_cases heq : other = timer
    · simp [heq, hout, hnew]
    · rw [Function.update_of_ne heq, h.live other, List.mem_cons]
      tauto
  · refine h.ordered.congr ?_
    intro other hmem
    have hne : other ≠ timer := fun heq => hout (heq ▸ hmem)
    simp [TimerHeap.expireKey, expireOf, hne]

/-- A timer at another address, or one that repeats, runs when it did. -/
theorem Unfired.rewrite {addr other : Addr} {fields : Option Timer} {heap : TimerHeap}
    {registered : TimerId → Option Addr}
    (h : other ≠ addr → service.Unfired other)
    (hrepeats : ∀ found, fields = some found → found.repeats = true) :
    { service with
      memory := Function.update service.memory addr fields
      heap := heap
      registered := registered }.Unfired other := by
  intro found hfound honce
  rcases memory_update hfound with ⟨-, heq⟩ | ⟨hne, hbefore⟩
  · rw [hrepeats found heq] at honce
    exact absurd honce (by simp)
  · exact h hne found hbefore honce

/-- The state after the third pass: every timer that was out of the heap is put
back or freed. -/
structure PutBack (before after : TimerService) (now : Int) (timers : List Addr) : Prop where
  stored : after.Stored []
  registered : after.Registered
  logged : after.Logged
  unfired : ∀ addr ∈ after.heap.timers, after.Unfired addr
  memory : ∀ addr, after.memory addr
    = if addr ∈ timers then (before.memory addr).bind (afterTimeout now) else before.memory addr

theorem reinsertLoop_spec {timers : List Addr} (hstored : service.Stored timers)
    (hreg : service.Registered) (hlog : service.Logged)
    (hunfired : ∀ addr ∈ service.heap.timers, service.Unfired addr) :
    ∃ after, reinsertLoop now timers service = some after ∧ service.PutBack after now timers := by
  induction timers generalizing service with
  | nil => exact ⟨service, rfl, hstored, hreg, hlog, hunfired, fun addr => by simp⟩
  | cons timer timers ih =>
      obtain ⟨hnew, -⟩ := List.nodup_cons.mp hstored.pendingNodup
      obtain ⟨fields, hfields⟩ := Option.ne_none_iff_exists'.mp
        ((hstored.live timer).mpr (Or.inr List.mem_cons_self))
      -- what the loop does to the others is seen through the update for this one
      have hmemory : ∀ {next after : TimerService} {fields' : Option Timer},
          next.memory = Function.update service.memory timer fields' →
          afterTimeout now fields = fields' →
          (∀ addr, after.memory addr = if addr ∈ timers
            then (next.memory addr).bind (afterTimeout now) else next.memory addr) →
          ∀ addr, after.memory addr = if addr ∈ timer :: timers
            then (service.memory addr).bind (afterTimeout now) else service.memory addr := by
        intro next after fields' hnext hput hafter addr
        rw [hafter, hnext]
        by_cases hsame : addr = timer
        · subst hsame
          simp [hnew, hfields, hput]
        · simp [hsame]
      by_cases hputs : (fields.repeats && !fields.canceled) = true
      · let fields' := { fields with expire := now + fields.interval }
        obtain ⟨heap, changed, hinsert, htimers, hnext⟩ :=
          @Stored.reinsert service timer timers fields fields' hstored hfields
        have hrepeats : fields'.repeats = true := (Bool.and_eq_true_iff.mp hputs).1
        let next : TimerService := { service with
          memory := Function.update service.memory timer (some fields')
          heap := heap }
        have hunfired' : ∀ addr ∈ next.heap.timers, next.Unfired addr := by
          intro addr hmem
          refine Unfired.rewrite ?_ (fun found heq => Option.some.inj heq ▸ hrepeats)
          intro hne
          exact hunfired addr ((Multiset.mem_cons.mp (htimers ▸ hmem)).resolve_left hne)
        have hreg' : next.Registered :=
          hreg.rewrite hfields (rfl : fields'.timerId = fields.timerId) heap
        have hlog' : next.Logged := by
          refine @Logged.rewrite service timer hlog (some fields') ?_ heap service.registered
          intro found heq
          obtain rfl := Option.some.inj heq
          exact ⟨fields, hfields, rfl⟩
        obtain ⟨after, hloop, hafter⟩ := @ih next hnext hreg' hlog' hunfired'
        refine ⟨after, ?_, hafter.stored, hafter.registered, hafter.logged, hafter.unfired,
          hmemory rfl (if_pos hputs) hafter.memory⟩
        simp only [reinsertLoop, hfields, Option.bind_eq_bind, Option.bind_some, hputs, if_true,
          modify]
        change (TimerHeap.timerHeapInsert { service with
          memory := Function.update service.memory timer (some fields') }.expireOf service.heap
            timer).bind _ = _
        rw [hinsert]
        exact hloop
      · let next : TimerService := { service with
          registered := Function.update service.registered fields.timerId none
          memory := Function.update service.memory timer none }
        have hunfired' : ∀ addr ∈ next.heap.timers, next.Unfired addr := by
          intro addr hmem
          refine Unfired.rewrite (fun _ => hunfired addr hmem) ?_
          exact fun found heq => absurd heq.symm (Option.some_ne_none found)
        obtain ⟨after, hloop, hafter⟩ := @ih next (hstored.free _) (hreg.erase hfields)
          (hlog.rewrite (fun found heq => absurd heq.symm (Option.some_ne_none found)) _ _)
          hunfired'
        refine ⟨after, ?_, hafter.stored, hafter.registered, hafter.logged, hafter.unfired,
          hmemory rfl (if_neg hputs) hafter.memory⟩
        simp only [reinsertLoop, hfields, Option.bind_eq_bind, Option.bind_some, hputs,
          Bool.false_eq_true, if_false]
        exact hloop

end TimerService

end TinyMqtt
