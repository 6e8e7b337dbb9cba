import TinyMqtt.Ev.LoopUsers

/-!
The callbacks of a pass. Whatever happens between the moment `epoll_wait`
returned and the turn of a handler, its callback is made just when it is still
registered then, and with events that were returned for its descriptor.
-/

namespace TinyMqtt

open FiniteMap LinkedList Run

namespace EventLoop

variable {loop next : EventLoop}

/-! ### What the users leave alone -/

/-- The loop is where it was, and of the handlers in memory only `canceled`
changed. -/
structure Undisturbed (before after : EventLoop) : Prop where
  phase : after.phase = before.phase
  handlers : ∀ a old new, before.handlers a = some old → after.handlers a = some new →
    ∃ canceled, new = { old with canceled := canceled }

theorem undisturbed_of_handlers (hphase : next.phase = loop.phase)
    (hhandlers : ∀ a old new, loop.handlers a = some old → next.handlers a = some new →
      new = old) : loop.Undisturbed next where
  phase := hphase
  handlers := fun a old new hold hnew => ⟨old.canceled, hhandlers a old new hold hnew⟩

/-- Marking a handler as canceled or not leaves everything else of it alone. -/
theorem undisturbed_of_set {a : Addr} {handler : EventHandler}
    (hhandler : loop.handlers a = some handler) {canceled : Bool} (hphase : next.phase = loop.phase)
    (hhandlers : next.handlers = set loop.handlers a { handler with canceled := canceled }) :
    loop.Undisturbed next where
  phase := hphase
  handlers := by
    intro a' old new hold hnew
    rw [hhandlers] at hnew
    obtain ⟨old', hold', heq, -, -⟩ := handlers_recanceled hhandler hnew
    obtain rfl : old = old' := Option.some.inj (hold.symm.trans hold')
    exact ⟨new.canceled, heq⟩

/-- Counting a reference changes the object and nothing of the handlers or of
the pass. -/
theorem getRef_same {arg : Option Addr} (h : loop.getRef arg = some next) :
    next.phase = loop.phase ∧ next.handlers = loop.handlers := by
  cases arg with
  | none =>
      obtain rfl := Option.some.inj h
      exact ⟨rfl, rfl⟩
  | some obj =>
      obtain ⟨counted, -, h⟩ := Option.bind_eq_some_iff.mp h
      obtain rfl := Option.some.inj h
      exact ⟨rfl, rfl⟩

/-- Giving a reference back may free the object and its handlers. Those that
stay in memory are unchanged. -/
theorem releaseRef_undisturbed {arg : Option Addr} (h : loop.releaseRef arg = some next) :
    loop.Undisturbed next := by
  cases arg with
  | none =>
      obtain rfl := Option.some.inj h
      exact undisturbed_of_handlers rfl fun a old new hold hnew =>
        Option.some.inj (hnew.symm.trans hold)
  | some obj =>
      obtain ⟨counted, -, h⟩ := Option.bind_eq_some_iff.mp h
      dsimp only at h
      split at h
      · unfold cleanUp at h
        split at h
        · obtain rfl := Option.some.inj h
          refine undisturbed_of_handlers rfl ?_
          intro a old new hold hnew
          dsimp only at hnew
          split at hnew
          · cases hnew
          · exact Option.some.inj (hnew.symm.trans hold)
        · cases h
      · obtain rfl := Option.some.inj h
        exact undisturbed_of_handlers rfl fun a old new hold hnew =>
          Option.some.inj (hnew.symm.trans hold)

theorem link_same {a : Addr} {handler : EventHandler} (h : loop.link a handler = some next) :
    next.phase = loop.phase ∧
      next.handlers = set loop.handlers a { handler with canceled := false } := by
  unfold link epollAdd epollMod at h
  dsimp only at h
  split at h
  · split at h
    · obtain rfl := Option.some.inj h
      exact ⟨rfl, rfl⟩
    · cases h
  · split at h
    · cases h
    · split at h
      · cases h
      · obtain rfl := Option.some.inj h
        exact ⟨rfl, rfl⟩

/-- Registering a handler in the middle of a pass does not change what the pass
still has to do. -/
theorem register_undisturbed {a : Addr} (h : loop.tmqHandlerRegister a = some next) :
    loop.Undisturbed next := by
  obtain ⟨handler, hhandler, h⟩ := Option.bind_eq_some_iff.mp h
  obtain ⟨mid, hmid, h⟩ := Option.bind_eq_some_iff.mp h
  rw [getRef_tiedArg] at hmid
  obtain ⟨hphase, hhandlers⟩ := getRef_same hmid
  obtain ⟨hphase', hhandlers'⟩ := link_same h
  rw [hhandlers] at hhandlers'
  exact undisturbed_of_set hhandler (hphase'.trans hphase) hhandlers'

/-- Unregistering a handler marks it as canceled. It stays among those that the
pass comes to. -/
theorem unregister_undisturbed {a : Addr} (h : loop.tmqHandlerUnregister a = some next) :
    loop.Undisturbed next := by
  have hnothing : loop.Undisturbed loop := undisturbed_of_handlers rfl fun a old new hold hnew =>
    Option.some.inj (hnew.symm.trans hold)
  obtain ⟨handler, hhandler, h⟩ := Option.bind_eq_some_iff.mp h
  unfold epollDel epollMod at h
  dsimp only at h
  cases hchannel : loop.channels handler.fd with
  | none =>
      rw [hchannel] at h
      obtain rfl := Option.some.inj h
      exact hnothing
  | some channel =>
      rw [hchannel] at h
      dsimp only at h
      split at h
      · cases h
      split at h
      · obtain rfl := Option.some.inj h
        exact hnothing
      split at h
      · cases h
      split at h
      · split at h
        · cases h
        · obtain rfl := Option.some.inj h
          exact @undisturbed_of_set loop _ a handler hhandler true rfl rfl
      · split at h
        · cases h
        · obtain rfl := Option.some.inj h
          exact @undisturbed_of_set loop _ a handler hhandler true rfl rfl

theorem create_undisturbed {obj : Addr} {fd : Int} (h : loop.create obj fd = some next) :
    loop.Undisturbed next := by
  unfold create at h
  split at h
  · obtain rfl := Option.some.inj h
    exact undisturbed_of_handlers rfl fun a old new hold hnew =>
      Option.some.inj (hnew.symm.trans hold)
  · cases h

/-- A new handler gets an address that is free, so no handler in memory
changes. -/
theorem handlerNew_undisturbed {a : Addr} {handler : EventHandler}
    (h : loop.handlerNew a handler = some next) : loop.Undisturbed next := by
  unfold handlerNew at h
  split at h
  · rename_i hnew
    have hothers : ∀ a' old new, loop.handlers a' = some old →
        set loop.handlers a handler a' = some new → new = old := by
      intro a' old new hold hset
      have hne : a ≠ a' := by
        rintro rfl
        cases hnew.symm.trans hold
      rw [set_of_ne _ hne] at hset
      exact Option.some.inj (hset.symm.trans hold)
    dsimp only at h
    split at h
    · obtain ⟨counted, -, h⟩ := Option.bind_eq_some_iff.mp h
      obtain rfl := Option.some.inj h
      exact undisturbed_of_handlers rfl hothers
    · obtain rfl := Option.some.inj h
      exact undisturbed_of_handlers rfl hothers
  · cases h

/-! ### The events that a callback gets -/

variable {others : Addr → Nat} {returned : List (Int × BitVec 32)}

/-- What the handlers have heard from `epoll_wait` outlasts whatever a callback
does. -/
theorem Heard.undisturbed (h : loop.Heard returned) (hinv : loop.Inv others)
    (hsame : loop.Undisturbed next) : next.Heard returned := by
  intro running rest hphase a ha handler hhandler
  rw [hsame.phase] at hphase
  have hactive : a ∈ loop.active := by
    rw [active, hphase]
    exact List.mem_append_right _ ha
  obtain ⟨old, hold, -⟩ := hinv.active_handler hactive
  obtain ⟨canceled, rfl⟩ := hsame.handlers a old handler hold hhandler
  exact h running rest hphase a ha old hold

/-- It outlasts the turn of a handler too. The handlers that come later keep
their events until their own turn. -/
theorem Heard.advance (h : loop.Heard returned) (hnext : loop.advance = some next) :
    next.Heard returned := by
  intro running' rest' hphase' a' ha' handler' hhandler'
  unfold EventLoop.advance at hnext
  cases hphase : loop.phase with
  | polling =>
      rw [hphase] at hnext
      cases hnext
  | calling running rest =>
      rw [hphase] at hnext
      cases rest with
      | nil =>
          obtain rfl := Option.some.inj hnext
          cases hphase'
      | cons a rest =>
          obtain ⟨handler, hhandler, hnext⟩ := Option.bind_eq_some_iff.mp hnext
          split at hnext
          · obtain rfl := Option.some.inj hnext
            obtain ⟨-, rfl⟩ := LoopPhase.calling.inj hphase'
            exact h running _ hphase a' (List.mem_cons_of_mem a ha') handler' hhandler'
          · obtain rfl := Option.some.inj hnext
            obtain ⟨-, rfl⟩ := LoopPhase.calling.inj hphase'
            exact h running _ hphase a' (List.mem_cons_of_mem a ha') handler' hhandler'
  | releasing it =>
      rw [hphase] at hnext
      dsimp only at hnext
      split at hnext
      · obtain rfl := Option.some.inj hnext
        cases hphase'
      · obtain ⟨handler, hhandler, hnext⟩ := Option.bind_eq_some_iff.mp hnext
        rw [releaseRef_tiedArg] at hnext
        have hkept := (releaseRef_undisturbed hnext).phase
        cases hphase'.symm.trans hkept

end EventLoop

namespace LoopWorld

open EventLoop

variable {world : LoopWorld}

/-- Every step of the loop and of its users keeps what was heard; `poll` sets it
anew. -/
theorem step_heard (hinv : world.loop.Inv world.others) (h : world.loop.Heard world.returned)
    {action : LoopAction} (hallowed : world.Allowed action) {next : LoopWorld}
    (hstep : world.step action = some next) : next.loop.Heard next.returned := by
  cases action with
  | poll returned =>
      obtain ⟨loop, hloop, -, hheard, -⟩ := hinv.poll hallowed.1 hallowed.2
      rw [step, hloop] at hstep
      obtain rfl := Option.some.inj hstep
      exact hheard
  | advance =>
      obtain ⟨loop, hloop, rfl⟩ := Option.map_eq_some_iff.mp hstep
      exact h.advance hloop
  | create obj fd =>
      obtain ⟨loop, hloop, rfl⟩ := Option.map_eq_some_iff.mp hstep
      exact h.undisturbed hinv (create_undisturbed hloop)
  | handlerNew a fd events cb arg tie =>
      obtain ⟨loop, hloop, rfl⟩ := Option.map_eq_some_iff.mp hstep
      exact h.undisturbed hinv (handlerNew_undisturbed hloop)
  | register a =>
      obtain ⟨loop, hloop, rfl⟩ := Option.map_eq_some_iff.mp hstep
      exact h.undisturbed hinv (register_undisturbed hloop)
  | unregister a =>
      obtain ⟨loop, hloop, rfl⟩ := Option.map_eq_some_iff.mp hstep
      exact h.undisturbed hinv (unregister_undisturbed hloop)
  | getRef obj =>
      obtain ⟨loop, hloop, rfl⟩ := Option.map_eq_some_iff.mp hstep
      obtain ⟨hphase, hhandlers⟩ := getRef_same hloop
      refine h.undisturbed hinv (undisturbed_of_handlers hphase ?_)
      intro a old new hold hnew
      rw [hhandlers] at hnew
      exact Option.some.inj (hnew.symm.trans hold)
  | releaseRef obj =>
      obtain ⟨loop, hloop, rfl⟩ := Option.map_eq_some_iff.mp hstep
      exact h.undisturbed hinv (releaseRef_undisturbed hloop)

/-- In every run that keeps the promises, the handlers of a pass hold events
that were returned for their descriptors. -/
theorem runs_heard {actions : List LoopAction} (hactions : Admissible Allowed step init actions) :
    ∃ world, runs step init actions = some world ∧ world.loop.Inv world.others ∧
      world.loop.Heard world.returned := by
  refine @runs_invariant _ _ Allowed step
    (fun world => world.loop.Inv world.others ∧ world.loop.Heard world.returned) ?_ actions init
    ⟨inv_init, ?_⟩ hactions
  · rintro state action ⟨hinv, hheard⟩ hallowed
    obtain ⟨next, hnext, hinv'⟩ := step_inv hinv hallowed
    exact ⟨next, hnext, hinv', step_heard hinv hheard hallowed hnext⟩
  · intro running rest hphase
    cases hphase

/-- When the turn of a handler comes, its callback is made just when it is
registered at that moment: with events that `epoll_wait` returned for its
descriptor, one of which it asked for, and with an object that is in memory. -/
theorem callback_iff_registered (actions : List LoopAction)
    (hactions : Admissible Allowed step init actions) (world : LoopWorld)
    (hrun : runs step init actions = some world) (running : Option Addr) (a : Addr)
    (rest : List Addr) (hphase : world.loop.phase = .calling running (a :: rest)) :
    ∃ handler next, world.loop.handlers a = some handler ∧ world.step .advance = some next ∧
      (handler.fd, handler.rEvents) ∈ world.returned ∧
      handler.events &&& handler.rEvents ≠ 0 ∧
      (∀ obj, handler.tiedArg = some obj → world.loop.objects obj ≠ none) ∧
      (¬ world.loop.Registered a → next.loop.calls = world.loop.calls) ∧
      (world.loop.Registered a → handler.cb.isSome = true → next.loop.calls
        = world.loop.calls ++ [⟨a, handler.fd, handler.rEvents, handler.arg⟩]) := by
  obtain ⟨final, hfinal, hinv, hheard⟩ := runs_heard hactions
  obtain rfl : final = world := Option.some.inj (hfinal.symm.trans hrun)
  obtain ⟨handler, loop, hhandler, hiff, hadvance, -, hcalls⟩ := hinv.advance_calling hphase
  obtain ⟨hreturned, hwanted⟩ := hheard running _ hphase a List.mem_cons_self handler hhandler
  refine ⟨handler, { final with loop := loop }, hhandler, ?_, hreturned, hwanted, ?_, ?_, ?_⟩
  · rw [step, hadvance]
    rfl
  · intro obj htied hnone
    obtain ⟨counted, hobj, -, -⟩ := hinv.object_of hhandler htied
    cases hnone.symm.trans hobj
  · intro hnot
    have hcanceled : handler.canceled = true := Bool.not_eq_false _ ▸ mt hiff.mp hnot
    rw [hcalls, hcanceled]
    exact List.append_nil _
  · intro hregistered hcb
    rw [hcalls, hiff.mpr hregistered, hcb]
    rfl

/-- The second handler is called, though it was unregistered since `epoll_wait`
returned. -/
theorem callback_iff_registered_twoHandlers :
    ∃ world next, runs step init (.create 1 5 :: twoHandlers) = some world ∧
      world.step .advance = some next ∧
      next.loop.calls = [⟨11, 5, 5, some 1⟩, ⟨10, 5, 5, some 1⟩] := by
  obtain ⟨world, hrun, -, -⟩ := runs_heard twoHandlers_admissible
  have hphase : world.loop.phase = .calling (some 11) [10] :=
    observe_eq hrun (f := fun world => world.loop.phase) (by decide +kernel)
  have hknown : world.loop.handlers 10 = some ⟨5, 1, 5, some 1, some 99, false, true⟩ :=
    observe_eq hrun (f := fun world => world.loop.handlers 10) (by decide +kernel)
  have hchannel : world.loop.channels 5 = some ⟨[10], 1⟩ :=
    observe_eq hrun (f := fun world => world.loop.channels 5) (by decide +kernel)
  have hregistered : world.loop.Registered 10 :=
    ⟨5, ⟨[10], 1⟩, hchannel, List.mem_singleton.mpr rfl⟩
  have hcalls : world.loop.calls = [⟨11, 5, 5, some 1⟩] :=
    observe_eq hrun (f := fun world => world.loop.calls) (by decide +kernel)
  obtain ⟨handler, next, hhandler, hnext, -, -, -, -, hcall⟩ := callback_iff_registered
    (.create 1 5 :: twoHandlers) twoHandlers_admissible world hrun (some 11) 10 [] hphase
  obtain rfl := Option.some.inj (hknown.symm.trans hhandler)
  refine ⟨world, next, hrun, hnext, ?_⟩
  rw [hcall hregistered rfl, hcalls]
  rfl

end LoopWorld

end TinyMqtt
