import TinyMqtt.Ev.Callbacks

/-!
What `epoll` watches for. A channel keeps the events of all its handlers in one
number; a handler that is unregistered takes its events out, also those that
another handler of the descriptor still wants. As long as the handlers of a
descriptor ask for different events, as those of a connection do, `epoll`
watches for exactly what the registered handlers ask for.
-/

namespace TinyMqtt

open FiniteMap LinkedList Run

namespace EventLoop

/-! ### The events of a list of handlers -/

def eventsOf (handlers : Addr → Option EventHandler) (a : Addr) : BitVec 32 :=
  (handlers a).elim 0 EventHandler.events

def wantedEvents (handlers : Addr → Option EventHandler) (list : List Addr) : BitVec 32 :=
  list.foldr (fun a wanted => eventsOf handlers a ||| wanted) 0

theorem getLsbD_wantedEvents (handlers : Addr → Option EventHandler) (list : List Addr) (i : Nat) :
    (wantedEvents handlers list).getLsbD i
      = list.any fun a => (eventsOf handlers a).getLsbD i := by
  induction list with
  | nil => exact BitVec.getLsbD_zero
  | cons a list ih =>
      rw [List.any_cons, ← ih]
      exact BitVec.getLsbD_or

theorem wantedEvents_congr {handlers handlers' : Addr → Option EventHandler} {list : List Addr}
    (h : ∀ a ∈ list, eventsOf handlers' a = eventsOf handlers a) :
    wantedEvents handlers' list = wantedEvents handlers list := by
  induction list with
  | nil => rfl
  | cons a list ih =>
      obtain ⟨hfirst, hrest⟩ := List.forall_mem_cons.mp h
      change eventsOf handlers' a ||| wantedEvents handlers' list
        = eventsOf handlers a ||| wantedEvents handlers list
      rw [hfirst, ih hrest]

def Separate (handlers : Addr → Option EventHandler) (list : List Addr) : Prop :=
  ∀ a ∈ list, ∀ b ∈ list, a ≠ b → eventsOf handlers a &&& eventsOf handlers b = 0

theorem Separate.congr {handlers handlers' : Addr → Option EventHandler} {list : List Addr}
    (h : ∀ a ∈ list, eventsOf handlers' a = eventsOf handlers a)
    (hseparate : Separate handlers list) : Separate handlers' list := by
  intro a ha b hb hne
  rw [h a ha, h b hb]
  exact hseparate a ha b hb hne

/-- A handler that asks for other events than those of the list joins it. -/
theorem Separate.cons {handlers : Addr → Option EventHandler} {list : List Addr} {a : Addr}
    (hnew : ∀ b ∈ list, eventsOf handlers a &&& eventsOf handlers b = 0)
    (hseparate : Separate handlers list) : Separate handlers (a :: list) := by
  intro b hb c hc hne
  rcases List.mem_cons.mp hb with rfl | hb'
  · exact hnew c ((List.mem_cons.mp hc).resolve_left (Ne.symm hne))
  · rcases List.mem_cons.mp hc with rfl | hc'
    · rw [BitVec.and_comm]
      exact hnew b hb'
    · exact hseparate b hb' c hc' hne

theorem Separate.erase {handlers : Addr → Option EventHandler} {list : List Addr}
    (hseparate : Separate handlers list) (a : Addr) : Separate handlers (list.erase a) := by
  intro b hb c hc hne
  exact hseparate b (List.mem_of_mem_erase hb) c (List.mem_of_mem_erase hc) hne

/-- Taking the events of one handler out leaves those of the others. -/
theorem wantedEvents_erase {handlers : Addr → Option EventHandler} {list : List Addr} {a : Addr}
    (hmem : a ∈ list) (hnodup : list.Nodup) (hseparate : Separate handlers list) :
    wantedEvents handlers list &&& ~~~eventsOf handlers a
      = wantedEvents handlers (list.erase a) := by
  apply BitVec.eq_of_getLsbD_eq
  intro i hi
  rw [BitVec.getLsbD_and, BitVec.getLsbD_not, getLsbD_wantedEvents, getLsbD_wantedEvents,
    decide_eq_true hi, Bool.true_and, Bool.eq_iff_iff, Bool.and_eq_true, List.any_eq_true,
    List.any_eq_true, Bool.not_eq_true']
  constructor
  · rintro ⟨⟨b, hb, hbit⟩, hout⟩
    refine ⟨b, hnodup.mem_erase_iff.mpr ⟨?_, hb⟩, hbit⟩
    rintro rfl
    rw [hout] at hbit
    cases hbit
  · rintro ⟨b, hb, hbit⟩
    obtain ⟨hne, hin⟩ := hnodup.mem_erase_iff.mp hb
    refine ⟨⟨b, hin, hbit⟩, ?_⟩
    have hnone := congrArg (·.getLsbD i) (hseparate b hin a hmem hne)
    simpa [hbit] using hnone

/-- Every channel keeps the events of its handlers, which are different
ones. -/
def Watches (loop : EventLoop) : Prop :=
  ∀ fd channel, loop.channels fd = some channel →
    channel.allEvents = wantedEvents loop.handlers channel.handlers ∧
      Separate loop.handlers channel.handlers

variable {loop next : EventLoop} {others : Addr → Nat}

/-- The channels stay, and so do the events of their handlers. -/
theorem Watches.congr (h : loop.Watches) (hchannels : next.channels = loop.channels)
    (hevents : ∀ a, loop.Registered a → eventsOf next.handlers a = eventsOf loop.handlers a) :
    next.Watches := by
  intro fd channel hchannel
  rw [hchannels] at hchannel
  obtain ⟨hall, hseparate⟩ := h fd channel hchannel
  have hsame : ∀ a ∈ channel.handlers, eventsOf next.handlers a = eventsOf loop.handlers a :=
    fun a ha => hevents a ⟨fd, channel, hchannel, ha⟩
  refine ⟨?_, hseparate.congr hsame⟩
  rw [wantedEvents_congr hsame]
  exact hall

theorem eventsOf_recanceled {a : Addr} {handler : EventHandler}
    (hhandler : loop.handlers a = some handler) (canceled : Bool) (a' : Addr) :
    eventsOf (set loop.handlers a { handler with canceled := canceled }) a'
      = eventsOf loop.handlers a' := by
  by_cases hsame : a = a'
  · subst hsame
    rw [eventsOf, eventsOf, set_self, hhandler]
    rfl
  · rw [eventsOf, eventsOf, set_of_ne _ hsame]

theorem eventsOf_known {a : Addr} {handler : EventHandler}
    (hhandler : loop.handlers a = some handler) : eventsOf loop.handlers a = handler.events := by
  rw [eventsOf, hhandler]
  rfl

/-- A registration adds the events of the handler. -/
theorem Watches.inserted (h : loop.Watches) {a : Addr} {handler : EventHandler}
    (hhandler : loop.handlers a = some handler)
    (hapart : ∀ channel, loop.channels handler.fd = some channel → ∀ b ∈ channel.handlers,
      handler.events &&& eventsOf loop.handlers b = 0) :
    (loop.inserted a handler
      ((loop.channels handler.fd).elim 0 EpollChannel.allEvents ||| handler.events)).Watches := by
  intro fd channel hchannel
  have hsame : ∀ b, eventsOf (set loop.handlers a { handler with canceled := false }) b
      = eventsOf loop.handlers b := eventsOf_recanceled hhandler false
  have hself : eventsOf loop.handlers a = handler.events := eventsOf_known hhandler
  by_cases hfd : handler.fd = fd
  · subst hfd
    obtain rfl := Option.some.inj ((set_self _ _ _).symm.trans hchannel)
    have hold : (loop.channels handler.fd).elim 0 EpollChannel.allEvents
          = wantedEvents loop.handlers
            ((loop.channels handler.fd).elim [] EpollChannel.handlers) ∧
        Separate loop.handlers ((loop.channels handler.fd).elim [] EpollChannel.handlers) ∧
        ∀ b ∈ (loop.channels handler.fd).elim [] EpollChannel.handlers,
          handler.events &&& eventsOf loop.handlers b = 0 := by
      cases hold : loop.channels handler.fd with
      | none => exact ⟨rfl, by simp [Separate], by simp⟩
      | some channel =>
          obtain ⟨hall, hseparate⟩ := h handler.fd channel hold
          exact ⟨hall, hseparate, hapart channel hold⟩
    obtain ⟨hall, hseparate, hnew⟩ := hold
    refine ⟨?_, (hseparate.cons ?_).congr fun b _ => hsame b⟩
    · have hcons : wantedEvents loop.handlers
            (a :: (loop.channels handler.fd).elim [] EpollChannel.handlers)
          = handler.events ||| wantedEvents loop.handlers
            ((loop.channels handler.fd).elim [] EpollChannel.handlers) := by
        rw [← hself]
        rfl
      change (loop.channels handler.fd).elim 0 EpollChannel.allEvents ||| handler.events
        = wantedEvents (set loop.handlers a { handler with canceled := false })
          (a :: (loop.channels handler.fd).elim [] EpollChannel.handlers)
      rw [wantedEvents_congr fun b _ => hsame b, hcons, hall, BitVec.or_comm]
    · rw [hself]
      exact hnew
  · have hold := (set_of_ne loop.channels hfd _).symm.trans hchannel
    obtain ⟨hall, hseparate⟩ := h fd channel hold
    refine ⟨?_, hseparate.congr fun b _ => hsame b⟩
    rw [hall]
    exact (wantedEvents_congr fun b _ => hsame b).symm

/-- An unregistered handler takes out its own events only. -/
theorem Watches.withoutHandler (h : loop.Watches) (hinv : loop.Inv others) {a : Addr}
    {handler : EventHandler} (hhandler : loop.handlers a = some handler) {channel : EpollChannel}
    (hchannel : loop.channels handler.fd = some channel) (hmem : a ∈ channel.handlers) :
    (loop.withoutHandler a handler channel).Watches := by
  intro fd channel' hchannel'
  have hsame : ∀ b, eventsOf (set loop.handlers a { handler with canceled := true }) b
      = eventsOf loop.handlers b := eventsOf_recanceled hhandler true
  have hself : eventsOf loop.handlers a = handler.events := eventsOf_known hhandler
  by_cases hfd : handler.fd = fd
  · subst hfd
    obtain ⟨hlist, -, hevents⟩ := channelsWithout_self hchannel'
    obtain ⟨hall, hseparate⟩ := h handler.fd channel hchannel
    rw [hevents, hlist]
    refine ⟨?_, (hseparate.erase a).congr fun b _ => hsame b⟩
    change _ = wantedEvents (set loop.handlers a { handler with canceled := true }) _
    rw [wantedEvents_congr fun b _ => hsame b, hall, ← hself]
    exact wantedEvents_erase hmem (hinv.listed hchannel).2.1 hseparate
  · have hold := (channelsWithout_of_ne a handler channel hfd).symm.trans hchannel'
    obtain ⟨hall, hseparate⟩ := h fd channel' hold
    refine ⟨?_, hseparate.congr fun b _ => hsame b⟩
    rw [hall]
    exact (wantedEvents_congr fun b _ => hsame b).symm

theorem releaseRef_channels {arg : Option Addr} (h : loop.releaseRef arg = some next) :
    next.channels = loop.channels := by
  cases arg with
  | none =>
      obtain rfl := Option.some.inj h
      rfl
  | some obj =>
      obtain ⟨counted, -, h⟩ := Option.bind_eq_some_iff.mp h
      dsimp only at h
      split at h
      · unfold cleanUp at h
        split at h
        · obtain rfl := Option.some.inj h
          rfl
        · cases h
      · obtain rfl := Option.some.inj h
        rfl

theorem create_channels {obj : Addr} {fd : Int} (h : loop.create obj fd = some next) :
    next.channels = loop.channels := by
  unfold EventLoop.create at h
  split at h
  · obtain rfl := Option.some.inj h
    rfl
  · cases h

theorem handlerNew_channels {a : Addr} {handler : EventHandler}
    (h : loop.handlerNew a handler = some next) : next.channels = loop.channels := by
  unfold EventLoop.handlerNew at h
  split at h
  · dsimp only at h
    split at h
    · obtain ⟨counted, -, h⟩ := Option.bind_eq_some_iff.mp h
      obtain rfl := Option.some.inj h
      rfl
    · obtain rfl := Option.some.inj h
      rfl
  · cases h

/-- The loop goes on over the same handlers and channels. -/
theorem advance_same (h : loop.advance = some next) :
    next.channels = loop.channels ∧
      ∀ a old new, loop.handlers a = some old → next.handlers a = some new →
        ∃ canceled, new = { old with canceled := canceled } := by
  have hnothing : ∀ a old new, loop.handlers a = some old → loop.handlers a = some new →
      ∃ canceled, new = { old with canceled := canceled } := by
    intro a old new hold hnew
    obtain rfl := Option.some.inj (hold.symm.trans hnew)
    exact ⟨old.canceled, rfl⟩
  unfold EventLoop.advance at h
  cases hphase : loop.phase with
  | polling =>
      rw [hphase] at h
      cases h
  | calling running rest =>
      rw [hphase] at h
      cases rest with
      | nil =>
          obtain rfl := Option.some.inj h
          exact ⟨rfl, hnothing⟩
      | cons a rest =>
          obtain ⟨handler, -, h⟩ := Option.bind_eq_some_iff.mp h
          split at h
          · obtain rfl := Option.some.inj h
            exact ⟨rfl, hnothing⟩
          · obtain rfl := Option.some.inj h
            exact ⟨rfl, hnothing⟩
  | releasing it =>
      rw [hphase] at h
      dsimp only at h
      split at h
      · obtain rfl := Option.some.inj h
        exact ⟨rfl, hnothing⟩
      · obtain ⟨handler, -, h⟩ := Option.bind_eq_some_iff.mp h
        rw [releaseRef_tiedArg] at h
        have hchannels := releaseRef_channels h
        have hhandlers := (releaseRef_undisturbed h).handlers
        exact ⟨hchannels, hhandlers⟩

end EventLoop

namespace LoopWorld

open EventLoop

variable {world : LoopWorld}

/-- The promises, and that a handler is registered only beside handlers of the
descriptor that ask for other events. -/
def AllowedApart (world : LoopWorld) (action : LoopAction) : Prop :=
  world.Allowed action ∧
    match action with
    | .register a => ∀ handler channel, world.loop.handlers a = some handler →
        world.loop.channels handler.fd = some channel → ∀ b ∈ channel.handlers,
          handler.events &&& eventsOf world.loop.handlers b = 0
    | _ => True

theorem step_watches (hinv : world.loop.Inv world.others) (h : world.loop.Watches)
    {action : LoopAction} (hallowed : world.AllowedApart action) {next : LoopWorld}
    (hinv' : next.loop.Inv next.others) (hstep : world.step action = some next) :
    next.loop.Watches := by
  obtain ⟨hallowed, hapart⟩ := hallowed
  have hsame : next.loop.channels = world.loop.channels →
      (∀ a old new, world.loop.handlers a = some old → next.loop.handlers a = some new →
        new.events = old.events) → next.loop.Watches := by
    intro hchannels hevents
    refine h.congr hchannels ?_
    rintro a ⟨fd, channel, hchannel, hmem⟩
    obtain ⟨old, hold, -⟩ := hinv.registered_handler ⟨fd, channel, hchannel, hmem⟩
    obtain ⟨new, hnew, -⟩ := hinv'.registered_handler ⟨fd, channel, hchannels ▸ hchannel, hmem⟩
    rw [eventsOf, eventsOf, hold, hnew]
    exact hevents a old new hold hnew
  have hundisturbed : next.loop.channels = world.loop.channels →
      world.loop.Undisturbed next.loop → next.loop.Watches := by
    intro hchannels hkeep
    refine hsame hchannels ?_
    intro a old new hold hnew
    obtain ⟨canceled, rfl⟩ := hkeep.handlers a old new hold hnew
    rfl
  cases action with
  | poll returned =>
      obtain ⟨loop, hloop, -, -, hrefreshed, hchannels⟩ := hinv.poll hallowed.1 hallowed.2
      rw [step, hloop] at hstep
      obtain rfl := Option.some.inj hstep
      refine hsame hchannels ?_
      intro a old new hold hnew
      obtain ⟨events, hkept⟩ := hrefreshed.forward hold
      obtain rfl := Option.some.inj (hkept.symm.trans hnew)
      rfl
  | advance =>
      obtain ⟨loop, hloop, rfl⟩ := Option.map_eq_some_iff.mp hstep
      obtain ⟨hchannels, hhandlers⟩ := advance_same hloop
      refine hsame hchannels ?_
      intro a old new hold hnew
      obtain ⟨canceled, rfl⟩ := hhandlers a old new hold hnew
      rfl
  | create obj fd =>
      obtain ⟨loop, hloop, rfl⟩ := Option.map_eq_some_iff.mp hstep
      exact hundisturbed (create_channels hloop) (create_undisturbed hloop)
  | handlerNew a fd events cb arg tie =>
      obtain ⟨loop, hloop, rfl⟩ := Option.map_eq_some_iff.mp hstep
      exact hundisturbed (handlerNew_channels hloop) (handlerNew_undisturbed hloop)
  | register a =>
      obtain ⟨hnamed, hnot, hfree⟩ := hallowed
      obtain ⟨handler, hhandler⟩ := Named.live hinv hnamed
      obtain ⟨objects, hnext, -⟩ := hinv.register hhandler hnot (hfree handler hhandler)
      rw [step, hnext] at hstep
      obtain rfl := Option.some.inj hstep
      exact @Watches.inserted { world.loop with objects := objects } h a handler hhandler
        fun channel hchannel => hapart handler channel hhandler hchannel
  | unregister a =>
      obtain ⟨hnamed, hphase⟩ := hallowed
      obtain ⟨handler, hhandler⟩ := Named.live hinv hnamed
      obtain ⟨loop, hloop, rfl⟩ := Option.map_eq_some_iff.mp hstep
      by_cases hregistered : world.loop.Registered a
      · obtain ⟨channel, hchannel, hmem⟩ := (hinv.registered_iff hhandler).mp hregistered
        rw [hinv.unregister_eq hhandler hchannel hmem hphase] at hloop
        obtain rfl := Option.some.inj hloop
        exact h.withoutHandler hinv hhandler hchannel hmem
      · rw [hinv.unregister_self hhandler hregistered] at hloop
        obtain rfl := Option.some.inj hloop
        exact h
  | getRef obj =>
      obtain ⟨loop, hloop, rfl⟩ := Option.map_eq_some_iff.mp hstep
      obtain ⟨counted, -, hloop⟩ := Option.bind_eq_some_iff.mp hloop
      obtain rfl := Option.some.inj hloop
      exact h
  | releaseRef obj =>
      obtain ⟨loop, hloop, rfl⟩ := Option.map_eq_some_iff.mp hstep
      exact hundisturbed (releaseRef_channels hloop) (releaseRef_undisturbed hloop)

/-- In every run in which the handlers of a descriptor ask for different
events, `epoll` watches a descriptor just when a handler is registered on it,
and for an event just when one of them asks for it. -/
theorem epoll_watches_wanted (actions : List LoopAction)
    (hactions : Admissible AllowedApart step init actions) :
    ∃ world, runs step init actions = some world ∧ ∀ fd,
      (world.loop.epoll fd ≠ none ↔ ∃ a handler, world.loop.Registered a ∧
        world.loop.handlers a = some handler ∧ handler.fd = fd) ∧
      ∀ i, ((world.loop.epoll fd).elim false (·.getLsbD i) = true ↔
        ∃ a handler, world.loop.Registered a ∧ world.loop.handlers a = some handler ∧
          handler.fd = fd ∧ handler.events.getLsbD i = true) := by
  obtain ⟨world, hrun, hinv, hwatches⟩ := @runs_invariant _ _ AllowedApart step
    (fun world => world.loop.Inv world.others ∧ world.loop.Watches)
    (by
      rintro state action ⟨hinv, hwatches⟩ hallowed
      obtain ⟨next, hnext, hinv'⟩ := step_inv hinv hallowed.1
      exact ⟨next, hnext, hinv', step_watches hinv hwatches hallowed hinv' hnext⟩)
    actions init ⟨inv_init, by intro fd channel hchannel; cases hchannel⟩ hactions
  refine ⟨world, hrun, ?_⟩
  intro fd
  rw [hinv.watched fd]
  have hlist : ∀ a handler, world.loop.Registered a → world.loop.handlers a = some handler →
      handler.fd = fd → ∃ channel, world.loop.channels fd = some channel ∧ a ∈ channel.handlers := by
    rintro a handler hregistered hhandler rfl
    exact (hinv.registered_iff hhandler).mp hregistered
  cases hchannel : world.loop.channels fd with
  | none =>
      have hnone : ∀ a handler, world.loop.Registered a → world.loop.handlers a = some handler →
          handler.fd ≠ fd := by
        intro a handler hregistered hhandler hfd
        obtain ⟨channel, hchannel', -⟩ := hlist a handler hregistered hhandler hfd
        cases hchannel.symm.trans hchannel'
      refine ⟨iff_of_false (not_not_intro rfl) ?_, fun i => iff_of_false Bool.false_ne_true ?_⟩
      · rintro ⟨a, handler, hregistered, hhandler, hfd⟩
        exact hnone a handler hregistered hhandler hfd
      · rintro ⟨a, handler, hregistered, hhandler, hfd, -⟩
        exact hnone a handler hregistered hhandler hfd
  | some channel =>
      obtain ⟨hne, -, hlisted⟩ := hinv.listed hchannel
      obtain ⟨hall, -⟩ := hwatches fd channel hchannel
      refine ⟨iff_of_true (Option.some_ne_none _) ?_, ?_⟩
      · obtain ⟨a, ha⟩ := List.exists_mem_of_ne_nil channel.handlers hne
        obtain ⟨handler, hhandler, hfd, -⟩ := hlisted a ha
        exact ⟨a, handler, ⟨fd, channel, hchannel, ha⟩, hhandler, hfd⟩
      · intro i
        change channel.allEvents.getLsbD i = true ↔ _
        rw [hall, getLsbD_wantedEvents, List.any_eq_true]
        constructor
        · rintro ⟨a, ha, hbit⟩
          obtain ⟨handler, hhandler, hfd, -⟩ := hlisted a ha
          rw [eventsOf_known hhandler] at hbit
          exact ⟨a, handler, ⟨fd, channel, hchannel, ha⟩, hhandler, hfd, hbit⟩
        · rintro ⟨a, handler, hregistered, hhandler, hfd, hbit⟩
          obtain ⟨channel', hchannel', ha⟩ := hlist a handler hregistered hhandler hfd
          obtain rfl : channel = channel' := Option.some.inj (hchannel.symm.trans hchannel')
          refine ⟨a, ha, ?_⟩
          rw [eventsOf_known hhandler]
          exact hbit

def ListedApart (world : LoopWorld) : LoopAction → Prop
  | .register a => ∀ handler ∈ world.loop.handlers a, ∀ channel ∈ world.loop.channels handler.fd,
      ∀ b ∈ channel.handlers, handler.events &&& eventsOf world.loop.handlers b = 0
  | _ => True

instance (world : LoopWorld) : (action : LoopAction) → Decidable (ListedApart world action)
  | .register a => inferInstanceAs (Decidable (∀ handler ∈ world.loop.handlers a, _))
  | .poll _ | .advance | .create _ _ | .handlerNew _ _ _ _ _ _ | .unregister _ | .getRef _
  | .releaseRef _ => inferInstanceAs (Decidable True)

theorem ListedApart.apart {action : LoopAction} (hallowed : world.Allowed action)
    (h : ListedApart world action) : world.AllowedApart action := by
  refine ⟨hallowed, ?_⟩
  cases action with
  | register a =>
      intro handler channel hhandler hchannel
      exact h handler hhandler channel hchannel
  | poll | advance | create | handlerNew | unregister | getRef | releaseRef => trivial

theorem twoHandlers_apart : Admissible AllowedApart step init (.create 1 5 :: twoHandlers) := by
  have hlisted : Admissible ListedApart step init (.create 1 5 :: twoHandlers) := by
    decide +kernel
  exact (twoHandlers_admissible.and hlisted).imp fun _ _ h => ListedApart.apart h.1 h.2

/-- `epoll` watches the descriptor for the event of the handler that is left, and
no longer for that of the other one. -/
theorem epoll_watches_wanted_twoHandlers :
    ∃ world, runs step init (.create 1 5 :: twoHandlers) = some world ∧
      world.loop.epoll 5 = some 1 ∧
      (∃ a handler, world.loop.Registered a ∧ world.loop.handlers a = some handler ∧
        handler.fd = 5 ∧ handler.events.getLsbD 0 = true) ∧
      ¬ ∃ a handler, world.loop.Registered a ∧ world.loop.handlers a = some handler ∧
        handler.fd = 5 ∧ handler.events.getLsbD 2 = true := by
  obtain ⟨world, hrun, hwatches⟩ :=
    epoll_watches_wanted (.create 1 5 :: twoHandlers) twoHandlers_apart
  have hepoll : world.loop.epoll 5 = some 1 :=
    observe_eq hrun (f := fun world => world.loop.epoll 5) (by decide +kernel)
  refine ⟨world, hrun, hepoll, ((hwatches 5).2 0).mp ?_, mt ((hwatches 5).2 2).mpr ?_⟩
  · rw [hepoll]
    decide
  · rw [hepoll]
    decide

end LoopWorld

end TinyMqtt
