import TinyMqtt.Ev.HandlerLifetimes

/-!
The steps of the event loop keep what is known of its handlers: `epoll_wait`
returns and the active handlers are collected, the callbacks are made one after
the other, and the handlers that were unregistered give their references back.
So do the steps that make new objects and handlers.
-/

namespace TinyMqtt

open FiniteMap LinkedList

namespace EventLoop

variable {loop : EventLoop} {others : Addr → Nat}

/-! ### Collecting the active handlers -/

def Refreshed (before after : Addr → Option EventHandler) : Prop :=
  ∀ a, ∃ events, after a = (before a).map fun handler => { handler with rEvents := events }

theorem Refreshed.refl (handlers : Addr → Option EventHandler) : Refreshed handlers handlers := by
  intro a
  cases handlers a with
  | none => exact ⟨0, rfl⟩
  | some handler => exact ⟨handler.rEvents, rfl⟩

theorem Refreshed.trans {first second third : Addr → Option EventHandler}
    (h : Refreshed first second) (h' : Refreshed second third) : Refreshed first third := by
  intro a
  obtain ⟨events, hsecond⟩ := h a
  obtain ⟨events', hthird⟩ := h' a
  refine ⟨events', ?_⟩
  rw [hthird, hsecond, Option.map_map]
  rfl

theorem Refreshed.set {handlers : Addr → Option EventHandler} {a : Addr} {handler : EventHandler}
    (hhandler : handlers a = some handler) (events : BitVec 32) :
    Refreshed handlers (set handlers a { handler with rEvents := events }) := by
  intro a'
  by_cases hsame : a = a'
  · subst hsame
    refine ⟨events, ?_⟩
    rw [set_self, hhandler]
    rfl
  · rw [set_of_ne _ hsame]
    exact Refreshed.refl handlers a'

theorem Refreshed.forward {before after : Addr → Option EventHandler} (h : Refreshed before after)
    {a : Addr} {handler : EventHandler} (hhandler : before a = some handler) :
    ∃ events, after a = some { handler with rEvents := events } := by
  obtain ⟨events, heq⟩ := h a
  refine ⟨events, ?_⟩
  rw [heq, hhandler]
  rfl

theorem Refreshed.backward {before after : Addr → Option EventHandler} (h : Refreshed before after)
    {a : Addr} {handler : EventHandler} (hhandler : after a = some handler) :
    ∃ old, before a = some old ∧ handler = { old with rEvents := handler.rEvents } := by
  obtain ⟨events, heq⟩ := h a
  cases hold : before a with
  | none =>
      rw [heq, hold] at hhandler
      cases hhandler
  | some old =>
      rw [heq, hold] at hhandler
      obtain rfl := Option.some.inj hhandler
      exact ⟨old, rfl, rfl⟩

def wants (handlers : Addr → Option EventHandler) (events : BitVec 32) (a : Addr) : Bool :=
  match handlers a with
  | none => false
  | some handler => handler.events &&& events != 0

theorem Refreshed.wants {before after : Addr → Option EventHandler} (h : Refreshed before after)
    (events : BitVec 32) (a : Addr) : wants after events a = wants before events a := by
  obtain ⟨kept, heq⟩ := h a
  unfold EventLoop.wants
  rw [heq]
  cases before a <;> rfl

/-- One channel: the handlers that want the events become active and keep them. -/
theorem activate_eq {events : BitVec 32} {handlers : Addr → Option EventHandler} {list : List Addr}
    (hlist : ∀ a ∈ list, handlers a ≠ none) :
    ∃ after, activate events handlers list = some (after, list.filter (wants handlers events)) ∧
      Refreshed handlers after ∧
      (∀ a ∈ list.filter (wants handlers events),
        ∀ handler, after a = some handler → handler.rEvents = events) ∧
      ∀ a, a ∉ list.filter (wants handlers events) → after a = handlers a := by
  induction list generalizing handlers with
  | nil => exact ⟨handlers, rfl, Refreshed.refl handlers, by simp, fun _ _ => rfl⟩
  | cons a list ih =>
      obtain ⟨hfirst, hrest⟩ := List.forall_mem_cons.mp hlist
      obtain ⟨handler, hhandler⟩ := Option.ne_none_iff_exists'.mp hfirst
      have hwants : wants handlers events a = (handler.events &&& events != 0) := by
        rw [wants, hhandler]
      rw [activate, hhandler, Option.bind_eq_bind, Option.bind_some]
      by_cases hzero : handler.events &&& events = 0
      · have hnot : ¬ wants handlers events a = true := by
          rw [hwants, hzero]
          decide
        rw [if_pos hzero, List.filter_cons_of_neg hnot]
        exact ih hrest
      · have hyes : wants handlers events a = true := by
          rw [hwants, bne_iff_ne]
          exact hzero
        have hset := Refreshed.set hhandler events
        have hrest' : ∀ a' ∈ list,
            FiniteMap.set handlers a { handler with rEvents := events } a' ≠ none := by
          intro a' ha' hnone
          obtain ⟨handler', hhandler'⟩ := Option.ne_none_iff_exists'.mp (hrest a' ha')
          obtain ⟨kept, hkept⟩ := hset.forward hhandler'
          cases hnone.symm.trans hkept
        obtain ⟨after, hactivate, hrefreshed, hevents, hothers⟩ := ih hrest'
        have hfilter : list.filter (wants (FiniteMap.set handlers a
            { handler with rEvents := events }) events) = list.filter (wants handlers events) :=
          List.filter_congr fun a' _ => hset.wants events a'
        rw [hfilter] at hactivate hevents hothers
        rw [if_neg hzero, hactivate, List.filter_cons_of_pos hyes]
        refine ⟨after, rfl, hset.trans hrefreshed, ?_, ?_⟩
        · intro a' ha' kept hkept
          by_cases hin : a' ∈ list.filter (wants handlers events)
          · exact hevents a' hin kept hkept
          · obtain rfl : a' = a := (List.mem_cons.mp ha').resolve_right hin
            rw [hothers a' hin, set_self] at hkept
            obtain rfl := Option.some.inj hkept
            rfl
        · intro a' ha'
          obtain ⟨hne, hin⟩ := not_or.mp (mt List.mem_cons.mpr ha')
          rw [hothers a' hin, set_of_ne _ (Ne.symm hne)]

/-- The events were returned for the channel of the handler, which asks for one
of them. -/
def Reported (channels : Int → Option EpollChannel) (handlers : Addr → Option EventHandler)
    (returned : List (Int × BitVec 32)) (a : Addr) (events : BitVec 32) : Prop :=
  ∃ fd channel, (fd, events) ∈ returned ∧ channels fd = some channel ∧ a ∈ channel.handlers ∧
    wants handlers events a = true

/-- The active handlers are those that something was returned for, and each of
them keeps such events. -/
theorem activateAll_eq {channels : Int → Option EpollChannel}
    {handlers : Addr → Option EventHandler} {returned : List (Int × BitVec 32)}
    (hreturned : ∀ p ∈ returned, ∃ channel, channels p.1 = some channel ∧
      ∀ a ∈ channel.handlers, handlers a ≠ none) :
    ∃ after active, activateAll channels handlers returned = some (after, active) ∧
      Refreshed handlers after ∧
      (∀ a, a ∈ active ↔ ∃ events, Reported channels handlers returned a events) ∧
      (∀ a ∈ active, ∀ handler, after a = some handler →
        Reported channels handlers returned a handler.rEvents) ∧
      ∀ a, a ∉ active → after a = handlers a := by
  induction returned generalizing handlers with
  | nil =>
      refine ⟨handlers, [], rfl, Refreshed.refl handlers, ?_, by simp, fun _ _ => rfl⟩
      intro a
      simp [Reported]
  | cons p returned ih =>
      obtain ⟨fd, events⟩ := p
      obtain ⟨⟨channel, hchannel, hlist⟩, hothers⟩ := List.forall_mem_cons.mp hreturned
      obtain ⟨mid, hactivate, hmid, hkept, hsame⟩ := @activate_eq events _ _ hlist
      have hothers' : ∀ p ∈ returned, ∃ channel, channels p.1 = some channel ∧
          ∀ a ∈ channel.handlers, mid a ≠ none := by
        intro p hp
        obtain ⟨channel', hchannel', hlist'⟩ := hothers p hp
        refine ⟨channel', hchannel', ?_⟩
        intro a ha hnone
        obtain ⟨handler, hhandler⟩ := Option.ne_none_iff_exists'.mp (hlist' a ha)
        obtain ⟨kept, hkept⟩ := hmid.forward hhandler
        cases hnone.symm.trans hkept
      obtain ⟨after, active, hall, hafter, hactive, hreported, hunchanged⟩ := ih hothers'
      have hnow : ∀ a, a ∈ channel.handlers.filter (wants handlers events) ↔
          a ∈ channel.handlers ∧ wants handlers events a = true := fun a => List.mem_filter
      have hlater : ∀ {a ev}, Reported channels mid returned a ev →
          Reported channels handlers ((fd, events) :: returned) a ev := by
        rintro a ev ⟨fd', channel', hin, hchannel', ha, hwanted⟩
        exact ⟨fd', channel', List.mem_cons_of_mem _ hin, hchannel', ha,
          (hmid.wants ev a).symm.trans hwanted⟩
      have hhere : ∀ {a}, a ∈ channel.handlers.filter (wants handlers events) →
          Reported channels handlers ((fd, events) :: returned) a events := by
        intro a ha
        obtain ⟨hmem, hwanted⟩ := (hnow a).mp ha
        exact ⟨fd, channel, List.mem_cons_self, hchannel, hmem, hwanted⟩
      rw [activateAll, hchannel, Option.bind_eq_bind, Option.bind_some, hactivate,
        Option.bind_eq_bind, Option.bind_some]
      dsimp only
      rw [hall]
      refine ⟨after, _, rfl, hmid.trans hafter, ?_, ?_, ?_⟩
      · intro a
        rw [List.mem_append, hactive]
        constructor
        · rintro (hfirst | ⟨ev, hev⟩)
          · exact ⟨events, hhere hfirst⟩
          · exact ⟨ev, hlater hev⟩
        · rintro ⟨ev, fd', channel', hin, hchannel', ha, hwanted⟩
          rcases List.mem_cons.mp hin with hfirst | hin
          · obtain ⟨rfl, rfl⟩ := Prod.mk.inj hfirst
            obtain rfl : channel = channel' := Option.some.inj (hchannel.symm.trans hchannel')
            exact .inl ((hnow a).mpr ⟨ha, hwanted⟩)
          · exact .inr ⟨ev, fd', channel', hin, hchannel', ha, (hmid.wants ev a).trans hwanted⟩
      · intro a ha handler hhandler
        by_cases hin : a ∈ active
        · exact hlater (hreported a hin handler hhandler)
        · have hfirst := (List.mem_append.mp ha).resolve_right hin
          rw [hunchanged a hin] at hhandler
          rw [hkept a hfirst handler hhandler]
          exact hhere hfirst
      · intro a ha
        obtain ⟨hfirst, hin⟩ := not_or.mp (mt List.mem_append.mpr ha)
        rw [hunchanged a hin, hsame a hfirst]

/-! ### The loop -/

/-- The handlers that the pass comes to keep events of their descriptors that
were returned, and each asks for one of them. -/
def Heard (loop : EventLoop) (returned : List (Int × BitVec 32)) : Prop :=
  ∀ running rest, loop.phase = .calling running rest → ∀ a ∈ rest,
    ∀ handler, loop.handlers a = some handler →
      (handler.fd, handler.rEvents) ∈ returned ∧ handler.events &&& handler.rEvents ≠ 0

/-- `epoll_wait` returns what is watched for. -/
theorem Inv.poll (h : loop.Inv others) (hphase : loop.phase = .polling)
    {returned : List (Int × BitVec 32)} (hreturned : ∀ p ∈ returned, loop.epoll p.1 ≠ none) :
    ∃ next, loop.poll returned = some next ∧ next.Inv others ∧ next.Heard returned ∧
      Refreshed loop.handlers next.handlers ∧ next.channels = loop.channels := by
  by_cases hnothing : returned = []
  · refine ⟨loop, ?_, h, ?_, Refreshed.refl loop.handlers, rfl⟩
    · rw [EventLoop.poll, hphase, if_pos hnothing]
    · intro running rest hcalling
      cases hphase.symm.trans hcalling
  have hchannels : ∀ p ∈ returned, ∃ channel, loop.channels p.1 = some channel ∧
      ∀ a ∈ channel.handlers, loop.handlers a ≠ none := by
    intro p hp
    have hwatched := hreturned p hp
    rw [h.watched] at hwatched
    cases hchannel : loop.channels p.1 with
    | none =>
        rw [hchannel] at hwatched
        exact absurd rfl hwatched
    | some channel =>
        refine ⟨channel, rfl, ?_⟩
        intro a ha hnone
        obtain ⟨handler, hhandler, -, -⟩ := (h.listed hchannel).2.2 a ha
        cases hnone.symm.trans hhandler
  obtain ⟨after, active, hall, hafter, hactive, hreported, -⟩ := activateAll_eq hchannels
  have hnone : loop.pending = [] := by rw [pending, hphase]
  refine ⟨{ loop with
    handlers := after, removingHandlers := [], phase := .calling none active }, ?_, ?_, ?_, hafter, rfl⟩
  · rw [EventLoop.poll, hphase]
    simp only
    rw [if_neg hnothing, hall]
    rfl
  rotate_left
  · rintro running rest ⟨⟩ a ha handler hhandler
    obtain ⟨fd, channel, hin, hchannel, hmem, hwanted⟩ := hreported a ha handler hhandler
    obtain ⟨old, hold, heq⟩ := hafter.backward hhandler
    obtain ⟨old', hold', rfl, -⟩ := (h.listed hchannel).2.2 a hmem
    obtain rfl : old = old' := Option.some.inj (hold.symm.trans hold')
    rw [wants, hold, bne_iff_ne] at hwanted
    rw [heq]
    exact ⟨hin, hwanted⟩
  constructor
  · intro obj counted hobj a ha
    obtain ⟨handler, hhandler, htied, hfd⟩ := h.owned hobj a ha
    obtain ⟨kept, hkept⟩ := hafter.forward hhandler
    exact ⟨_, hkept, htied, hfd⟩
  · intro a handler hhandler htied
    obtain ⟨old, hold, heq⟩ := hafter.backward hhandler
    rw [heq] at htied
    obtain ⟨obj, counted, harg, hobj, hmem⟩ := h.owner hold htied
    rw [heq]
    exact ⟨obj, counted, harg, hobj, hmem⟩
  · exact h.oneOwner
  · intro fd channel hchannel
    obtain ⟨hne, hnodup, hlisted⟩ := h.listed hchannel
    refine ⟨hne, hnodup, ?_⟩
    intro a ha
    obtain ⟨handler, hhandler, hfd, hcanceled⟩ := hlisted a ha
    obtain ⟨kept, hkept⟩ := hafter.forward hhandler
    exact ⟨_, hkept, hfd, hcanceled⟩
  · exact h.ofObject
  · exact h.watched
  · intro a ha
    cases ha
  · intro a ha
    obtain ⟨events, fd, channel, -, hchannel, hmem, -⟩ := (hactive a).mp ha
    exact .inl ⟨fd, channel, hchannel, hmem⟩
  · intro obj counted hobj
    have hexact := h.exact hobj
    rw [loopRefs, hnone] at hexact
    exact hexact
  · exact h.dead

/-- The loop goes on, and nothing changes but where it is. -/
theorem Inv.moved (h : loop.Inv others) {phase : LoopPhase} {calls : List HandlerCall}
    {others' : Addr → Nat}
    (hpending : ∀ a ∈ pending { loop with phase := phase, calls := calls }, a ∈ loop.pending)
    (hactive : ∀ a ∈ active { loop with phase := phase, calls := calls },
      loop.Registered a ∨ a ∈ pending { loop with phase := phase, calls := calls })
    (hexact : ∀ obj counted, loop.objects obj = some counted →
      others' obj + loopRefs { loop with phase := phase, calls := calls } counted
        = others obj + loop.loopRefs counted)
    (hdead : ∀ obj, loop.objects obj = none → others' obj = 0) :
    Inv { loop with phase := phase, calls := calls } others' where
  owned := h.owned
  owner := h.owner
  oneOwner := h.oneOwner
  listed := h.listed
  ofObject := h.ofObject
  watched := h.watched
  known := fun a ha => h.known a (hpending a ha)
  reached := hactive
  exact := by
    intro obj counted hobj
    have hsame := hexact obj counted hobj
    rw [h.exact hobj]
    omega
  dead := fun hobj => hdead _ hobj

theorem releaseRef_tiedArg (loop : EventLoop) (handler : EventHandler) :
    (if handler.tied then loop.releaseRef handler.arg else some loop)
      = loop.releaseRef handler.tiedArg := by
  cases htied : handler.tied <;> simp [EventHandler.tiedArg, htied, EventLoop.releaseRef]

/-- A handler is one of an object's just when it is tied to it. -/
theorem Inv.mem_handlers_iff (h : loop.Inv others) {a : Addr} {handler : EventHandler}
    (hhandler : loop.handlers a = some handler) {obj : Addr} {counted : RefCounted}
    (hobj : loop.objects obj = some counted) :
    a ∈ counted.handlers ↔ handler.tiedArg = some obj := by
  constructor
  · intro hmem
    obtain ⟨handler', hhandler', htied, -⟩ := h.owned hobj a hmem
    rwa [Option.some.inj (hhandler.symm.trans hhandler')]
  · intro htied
    obtain ⟨counted', hobj', hmem, -⟩ := h.object_of hhandler htied
    rwa [Option.some.inj (hobj.symm.trans hobj')]

/-- The next one of the active handlers: its callback is made if it is still
registered. -/
theorem Inv.advance_calling (h : loop.Inv others) {running : Option Addr} {a : Addr}
    {rest : List Addr} (hphase : loop.phase = .calling running (a :: rest)) :
    ∃ handler next, loop.handlers a = some handler ∧
      (handler.canceled = false ↔ loop.Registered a) ∧ loop.advance = some next ∧
      next.Inv others ∧
      next.calls = loop.calls ++
        if !handler.canceled && handler.cb.isSome then
          [⟨a, handler.fd, handler.rEvents, handler.arg⟩] else [] := by
  have hin : ∀ a' ∈ a :: rest, a' ∈ loop.active := by
    intro a' ha'
    rw [active, hphase]
    exact List.mem_append_right _ ha'
  obtain ⟨handler, hhandler, hiff⟩ := h.active_handler (hin a List.mem_cons_self)
  have hpend : loop.pending = loop.removingHandlers := by rw [pending, hphase]
  have hgoes : ∀ (running' : Option Addr) (calls : List HandlerCall), (∀ b ∈ running', b = a) →
      Inv { loop with phase := .calling running' rest, calls := calls } others := by
    intro running' calls hrunning
    refine h.moved (fun b hb => hpend ▸ hb) ?_ ?_ fun obj => h.dead
    · intro b hb
      have hb' : b ∈ a :: rest := by
        rcases List.mem_append.mp hb with hb | hb
        · exact List.mem_cons.mpr (.inl (hrunning b (Option.mem_toList.mp hb)))
        · exact List.mem_cons_of_mem a hb
      rcases h.reached b (hin b hb') with hregistered | hpending
      · exact .inl hregistered
      · exact .inr (hpend ▸ hpending)
    · intro obj counted _
      rw [loopRefs, loopRefs, hpend]
      rfl
  by_cases hcall : (!handler.canceled && handler.cb.isSome) = true
  · refine ⟨handler, _, hhandler, hiff, ?_,
      hgoes (some a) (loop.calls ++ [⟨a, handler.fd, handler.rEvents, handler.arg⟩]) ?_, ?_⟩
    · rw [EventLoop.advance, hphase]
      dsimp only
      rw [hhandler, Option.bind_eq_bind, Option.bind_some, if_pos hcall]
    · intro b hb
      exact (Option.mem_some_iff.mp hb).symm
    · rw [if_pos hcall]
  · refine ⟨handler, _, hhandler, hiff, ?_, hgoes none loop.calls ?_, ?_⟩
    · rw [EventLoop.advance, hphase]
      dsimp only
      rw [hhandler, Option.bind_eq_bind, Option.bind_some, if_neg hcall]
    · intro b hb
      cases hb
    · rw [if_neg hcall, List.append_nil]

/-- The next one of the unregistered handlers gives its reference back. -/
theorem Inv.advance_releasing (h : loop.Inv others) {it : Nat}
    (hphase : loop.phase = .releasing it) :
    ∃ next, loop.advance = some next ∧ next.Inv others := by
  have hpend : loop.pending = loop.removingHandlers.drop it := by rw [pending, hphase]
  have hmoved : ∀ (a : Addr), loop.removingHandlers[it]? = some a →
      loop.pending = a :: loop.removingHandlers.drop (it + 1) := by
    intro a ha
    obtain ⟨hlt, heq⟩ := List.getElem?_eq_some_iff.mp ha
    rw [hpend, List.drop_eq_getElem_cons hlt, heq]
  rw [EventLoop.advance, hphase]
  dsimp only
  cases hnext : loop.removingHandlers[it]? with
  | none =>
      have hempty : loop.pending = [] := by
        rw [hpend, List.drop_eq_nil_iff]
        exact List.getElem?_eq_none_iff.mp hnext
      refine ⟨_, rfl, @Inv.moved loop others h .polling loop.calls others ?_ ?_ ?_ fun obj => h.dead⟩
      · intro a ha
        cases ha
      · intro a ha
        cases ha
      · intro obj counted _
        rw [loopRefs, loopRefs, hempty]
        rfl
  | some a =>
      have hpend' := hmoved a hnext
      obtain ⟨handler, hhandler, -⟩ := h.known a (by rw [hpend']; exact List.mem_cons_self)
      have hinv : Inv { loop with phase := .releasing (it + 1) } (bump others handler.tiedArg) := by
        refine @Inv.moved loop others h (.releasing (it + 1)) loop.calls _ ?_ ?_ ?_ ?_
        · intro b hb
          rw [hpend']
          exact List.mem_cons_of_mem a hb
        · intro b hb
          cases hb
        · intro obj counted hobj
          have hone := h.mem_handlers_iff hhandler hobj
          rw [loopRefs, loopRefs, hpend', List.countP_cons, bump]
          change _ + (loop.registrations counted.fd
            + (loop.removingHandlers.drop (it + 1)).countP _) = _
          by_cases htied : handler.tiedArg = some obj
          · rw [if_pos htied, if_pos (List.contains_iff_mem.mpr (hone.mpr htied))]
            omega
          · rw [if_neg htied, if_neg (mt List.contains_iff_mem.mp (mt hone.mp htied))]
            omega
        · intro obj hobj
          have hnot : handler.tiedArg ≠ some obj := by
            intro htied
            obtain ⟨counted, hobj', -, -⟩ := h.object_of hhandler htied
            cases hobj.symm.trans hobj'
          rw [bump, if_neg hnot, h.dead hobj]
      dsimp only
      rw [hhandler, Option.bind_eq_bind, Option.bind_some, releaseRef_tiedArg]
      obtain ⟨next, hrelease, hnextInv, -⟩ := hinv.releaseRef
      exact ⟨next, hrelease, hnextInv⟩

/-- The loop is never stuck but in `epoll_wait`. -/
theorem Inv.advance (h : loop.Inv others) (hphase : loop.phase ≠ .polling) :
    ∃ next, loop.advance = some next ∧ next.Inv others := by
  cases hphase' : loop.phase with
  | polling => exact absurd hphase' hphase
  | releasing it => exact h.advance_releasing hphase'
  | calling running rest =>
      cases rest with
      | cons a rest =>
          obtain ⟨handler, next, -, -, hnext, hinv, -⟩ := h.advance_calling hphase'
          exact ⟨next, hnext, hinv⟩
      | nil =>
          have hpend : loop.pending = loop.removingHandlers := by rw [pending, hphase']
          refine ⟨{ loop with phase := .releasing 0 }, ?_,
            @Inv.moved loop others h (.releasing 0) loop.calls others ?_ ?_ ?_ fun obj => h.dead⟩
          · rw [EventLoop.advance, hphase']
          · intro a ha
            rw [hpend]
            exact ha
          · intro a ha
            cases ha
          · intro obj counted _
            rw [loopRefs, loopRefs, hpend]
            rfl

/-! ### New objects and handlers -/

/-- A new object has a descriptor of its own. -/
theorem Inv.create (h : loop.Inv others) {obj : Addr} {fd : Int} (hobj : loop.objects obj = none)
    (hchannel : loop.channels fd = none)
    (hfd : ∀ obj' counted, loop.objects obj' = some counted → counted.fd ≠ fd) :
    ∃ next, loop.create obj fd = some next ∧ next.Inv others := by
  have hcases : ∀ {obj' counted}, set loop.objects obj ⟨0, [], fd⟩ obj' = some counted →
      (obj' = obj ∧ counted = ⟨0, [], fd⟩) ∨ (obj ≠ obj' ∧ loop.objects obj' = some counted) := by
    intro obj' counted hobj'
    by_cases hsame : obj = obj'
    · subst hsame
      rw [set_self] at hobj'
      exact .inl ⟨rfl, (Option.some.inj hobj').symm⟩
    · exact .inr ⟨hsame, (set_of_ne _ hsame _).symm.trans hobj'⟩
  refine ⟨{ loop with objects := set loop.objects obj ⟨0, [], fd⟩ }, if_pos hobj, ?_⟩
  constructor
  · intro obj' counted hobj' a ha
    rcases hcases hobj' with ⟨-, rfl⟩ | ⟨-, hold⟩
    · cases ha
    · exact h.owned hold a ha
  · intro a handler hhandler htied
    obtain ⟨obj', counted, harg, hobj', hmem⟩ := h.owner hhandler htied
    refine ⟨obj', counted, harg, (set_of_ne _ ?_ _).trans hobj', hmem⟩
    rintro rfl
    cases hobj.symm.trans hobj'
  · intro obj₁ obj₂ counted₁ counted₂ h₁ h₂ hsame
    rcases hcases h₁ with ⟨rfl, rfl⟩ | ⟨-, hold₁⟩
    · rcases hcases h₂ with ⟨rfl, -⟩ | ⟨-, hold₂⟩
      · rfl
      · exact absurd hsame.symm (hfd _ _ hold₂)
    · rcases hcases h₂ with ⟨rfl, rfl⟩ | ⟨-, hold₂⟩
      · exact absurd hsame (hfd _ _ hold₁)
      · exact h.oneOwner hold₁ hold₂ hsame
  · exact h.listed
  · intro obj' counted channel hobj' hlist
    rcases hcases hobj' with ⟨-, rfl⟩ | ⟨-, hold⟩
    · cases hchannel.symm.trans hlist
    · exact h.ofObject hold hlist
  · exact h.watched
  · exact h.known
  · exact h.reached
  · intro obj' counted hobj'
    rcases hcases hobj' with ⟨rfl, rfl⟩ | ⟨-, hold⟩
    · have hzero : loop.loopRefs ⟨0, [], fd⟩ = 0 := by
        simp [loopRefs, registrations, hchannel]
      change (0 : Int) = others obj' + loop.loopRefs ⟨0, [], fd⟩
      rw [hzero, h.dead hobj]
      rfl
    · exact h.exact hold
  · intro obj' hobj'
    by_cases hsame : obj = obj'
    · exact hsame ▸ h.dead hobj
    · exact h.dead ((set_of_ne loop.objects hsame _).symm.trans hobj')

theorem Inv.new_not_pending (h : loop.Inv others) {a : Addr} (hnew : loop.handlers a = none) :
    a ∉ loop.pending := by
  intro hpending
  obtain ⟨handler, hhandler, -⟩ := h.known a hpending
  cases hnew.symm.trans hhandler

/-- A handler at a new address leaves the others. -/
theorem handlers_kept {a : Addr} (hnew : loop.handlers a = none) (handler : EventHandler)
    {a' : Addr} {handler' : EventHandler} (hhandler' : loop.handlers a' = some handler') :
    set loop.handlers a handler a' = some handler' := by
  refine (set_of_ne _ ?_ _).trans hhandler'
  rintro rfl
  cases hnew.symm.trans hhandler'

theorem Inv.listed_new (h : loop.Inv others) {a : Addr} (hnew : loop.handlers a = none)
    (handler : EventHandler) {fd : Int} {channel : EpollChannel}
    (hchannel : loop.channels fd = some channel) :
    channel.handlers ≠ [] ∧ channel.handlers.Nodup ∧ ∀ a' ∈ channel.handlers,
      ∃ handler', set loop.handlers a handler a' = some handler' ∧ handler'.fd = fd ∧
        handler'.canceled = false := by
  obtain ⟨hne, hnodup, hmem⟩ := h.listed hchannel
  refine ⟨hne, hnodup, ?_⟩
  intro a' ha'
  obtain ⟨handler', hhandler', hfd, hcanceled⟩ := hmem a' ha'
  exact ⟨handler', handlers_kept hnew handler hhandler', hfd, hcanceled⟩

theorem Inv.known_new (h : loop.Inv others) {a : Addr} (hnew : loop.handlers a = none)
    (handler : EventHandler) : ∀ a' ∈ loop.pending,
      ∃ handler', set loop.handlers a handler a' = some handler' ∧
        (handler'.canceled = false → loop.Registered a') := by
  intro a' ha'
  obtain ⟨handler', hhandler', hback⟩ := h.known a' ha'
  exact ⟨handler', handlers_kept hnew handler hhandler', hback⟩

/-- A new handler that is tied to no object. -/
theorem Inv.untiedNew (h : loop.Inv others) {a : Addr} (hnew : loop.handlers a = none)
    {handler : EventHandler} (huntied : handler.tied = false) :
    Inv { loop with handlers := set loop.handlers a handler } others where
  owned := by
    intro obj counted hobj a' ha'
    obtain ⟨handler', hhandler', htied', hfd⟩ := h.owned hobj a' ha'
    exact ⟨handler', handlers_kept hnew handler hhandler', htied', hfd⟩
  owner := by
    intro a' handler' hhandler' htied'
    by_cases hsame : a = a'
    · subst hsame
      obtain rfl : handler = handler' := Option.some.inj ((set_self _ _ _).symm.trans hhandler')
      cases huntied.symm.trans htied'
    · exact h.owner ((set_of_ne loop.handlers hsame _).symm.trans hhandler') htied'
  oneOwner := h.oneOwner
  listed := h.listed_new hnew handler
  ofObject := h.ofObject
  watched := h.watched
  known := h.known_new hnew handler
  reached := h.reached
  exact := h.exact
  dead := h.dead

/-- The objects after one of them was given a handler. -/
theorem objects_given {obj : Addr} {counted : RefCounted} (hobj : loop.objects obj = some counted)
    {a : Addr} {obj' : Addr} {counted' : RefCounted}
    (hobj' : set loop.objects obj { counted with handlers := a :: counted.handlers } obj'
      = some counted') :
    ∃ old, loop.objects obj' = some old ∧ counted'.fd = old.fd ∧ counted'.refCnt = old.refCnt ∧
      (∀ b, b ∈ old.handlers → b ∈ counted'.handlers) ∧
      (∀ b, b ∈ counted'.handlers → b ∈ old.handlers ∨ (b = a ∧ obj' = obj)) := by
  by_cases hsame : obj = obj'
  · subst hsame
    rw [set_self] at hobj'
    obtain rfl := Option.some.inj hobj'
    refine ⟨counted, hobj, rfl, rfl, fun b hb => List.mem_cons_of_mem a hb, ?_⟩
    intro b hb
    rcases List.mem_cons.mp hb with rfl | hb
    · exact .inr ⟨rfl, rfl⟩
    · exact .inl hb
  · rw [set_of_ne _ hsame] at hobj'
    exact ⟨counted', hobj', rfl, rfl, fun b hb => hb, fun b hb => .inl hb⟩

/-- A handler that is not pending does not count. -/
theorem loopRefs_given {a : Addr} (hunpending : a ∉ loop.pending) {old counted : RefCounted}
    (hfd : counted.fd = old.fd) (hup : ∀ b, b ∈ old.handlers → b ∈ counted.handlers)
    (hdown : ∀ b, b ∈ counted.handlers → b ∈ old.handlers ∨ b = a) :
    loop.loopRefs counted = loop.loopRefs old := by
  have hcount : loop.pending.countP (counted.handlers.contains ·)
      = loop.pending.countP (old.handlers.contains ·) := by
    refine List.countP_congr fun b hb => ?_
    rw [List.contains_iff_mem, List.contains_iff_mem]
    refine ⟨fun hin => (hdown b hin).resolve_right ?_, hup b⟩
    rintro rfl
    exact hunpending hb
  rw [loopRefs, loopRefs, hfd, hcount]

/-- A new handler that is tied to an object. -/
theorem Inv.tiedNew (h : loop.Inv others) {a : Addr} (hnew : loop.handlers a = none)
    {handler : EventHandler} {obj : Addr} {counted : RefCounted}
    (htied : handler.tiedArg = some obj) (hobj : loop.objects obj = some counted)
    (hfd : counted.fd = handler.fd) :
    Inv { loop with
      handlers := set loop.handlers a handler
      objects := set loop.objects obj { counted with handlers := a :: counted.handlers } }
      others where
  owned := by
    intro obj' counted' hobj' a' ha'
    obtain ⟨old, hold, hfd', -, -, hmem⟩ := objects_given hobj hobj'
    rcases hmem a' ha' with hin | ⟨rfl, rfl⟩
    · obtain ⟨handler', hhandler', htied', heq⟩ := h.owned hold a' hin
      exact ⟨handler', handlers_kept hnew handler hhandler', htied', heq.trans hfd'.symm⟩
    · obtain rfl : counted = old := Option.some.inj (hobj.symm.trans hold)
      exact ⟨handler, set_self _ _ _, htied, (hfd'.trans hfd).symm⟩
  owner := by
    intro a' handler' hhandler' htied'
    by_cases hsame : a = a'
    · subst hsame
      obtain rfl : handler = handler' := Option.some.inj ((set_self _ _ _).symm.trans hhandler')
      exact ⟨obj, _, (tiedArg_eq_some htied).2, set_self _ _ _, List.mem_cons_self⟩
    · obtain ⟨obj', counted', harg', hobj', hmem⟩ :=
        h.owner ((set_of_ne loop.handlers hsame _).symm.trans hhandler') htied'
      by_cases hobj_same : obj = obj'
      · subst hobj_same
        obtain rfl : counted = counted' := Option.some.inj (hobj.symm.trans hobj')
        exact ⟨obj, _, harg', set_self _ _ _, List.mem_cons_of_mem a hmem⟩
      · exact ⟨obj', counted', harg', (set_of_ne _ hobj_same _).trans hobj', hmem⟩
  oneOwner := by
    intro obj₁ obj₂ counted₁ counted₂ h₁ h₂ hsame
    obtain ⟨old₁, hold₁, hfd₁, -⟩ := objects_given hobj h₁
    obtain ⟨old₂, hold₂, hfd₂, -⟩ := objects_given hobj h₂
    exact h.oneOwner hold₁ hold₂ (by rw [← hfd₁, ← hfd₂, hsame])
  listed := h.listed_new hnew handler
  ofObject := by
    intro obj' counted' channel hobj' hchannel a' ha'
    obtain ⟨old, hold, hfd', -, hup, -⟩ := objects_given hobj hobj'
    exact hup a' (h.ofObject hold (hfd' ▸ hchannel) a' ha')
  watched := h.watched
  known := h.known_new hnew handler
  reached := h.reached
  exact := by
    intro obj' counted' hobj'
    obtain ⟨old, hold, hfd', hcnt, hup, hdown⟩ := objects_given hobj hobj'
    change counted'.refCnt = others obj' + loop.loopRefs counted'
    rw [hcnt, loopRefs_given (h.new_not_pending hnew) hfd' hup
      fun b hb => (hdown b hb).imp_right And.left]
    exact h.exact hold
  dead := by
    intro obj' hobj'
    by_cases hsame : obj = obj'
    · subst hsame
      cases (set_self loop.objects obj _).symm.trans hobj'
    · exact h.dead ((set_of_ne loop.objects hsame _).symm.trans hobj')

/-- A new handler, which its object owns if it is tied. -/
theorem Inv.handlerNew (h : loop.Inv others) {a : Addr} (hnew : loop.handlers a = none)
    {handler : EventHandler}
    (htie : handler.tied = true → ∃ obj counted, handler.arg = some obj ∧
      loop.objects obj = some counted ∧ counted.fd = handler.fd) :
    ∃ next, loop.handlerNew a handler = some next ∧ next.Inv others := by
  rw [EventLoop.handlerNew, if_pos hnew]
  dsimp only
  cases htied : handler.tied with
  | true =>
      obtain ⟨obj, counted, harg, hobj, hfd⟩ := htie htied
      have hto : handler.tiedArg = some obj := by
        rw [EventHandler.tiedArg, if_pos htied, harg]
      rw [harg]
      dsimp only
      rw [hobj, Option.bind_eq_bind, Option.bind_some]
      exact ⟨_, rfl, h.tiedNew hnew hto hobj hfd⟩
  | false => exact ⟨_, rfl, h.untiedNew hnew htied⟩

end EventLoop

end TinyMqtt
