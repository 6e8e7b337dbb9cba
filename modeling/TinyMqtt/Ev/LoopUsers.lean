import TinyMqtt.Ev.LoopRuns

/-!
Runs of the event loop with everything that uses it, in any order: callbacks
register and unregister handlers, and other threads take and give back
references at any moment. A user names an object or one of its handlers only
while it holds a reference on it, while nobody has counted it yet, while one of
its handlers is registered, or in a callback that was called with it; and the
kernel gives an open descriptor one owner.

A handler that is unregistered while the loop waits is forgotten when the next
pass begins, and its reference with it.

What is shown in memory are the handlers and the objects, not the entries of the
map of channels.
-/

namespace TinyMqtt

open FiniteMap LinkedList Run EventLoop

/-- A loop, the references that its users hold on each object, those that nobody
gives back any more, and what `epoll_wait` returned last. -/
structure LoopWorld where
  loop : EventLoop
  held : Addr → Nat
  lost : Addr → Nat
  returned : List (Int × BitVec 32)

inductive LoopAction where
  | poll (returned : List (Int × BitVec 32))
  | advance
  | create (obj : Addr) (fd : Int)
  | handlerNew (a : Addr) (fd : Int) (events : BitVec 16) (cb arg : Option Addr) (tie : Bool)
  | register (a : Addr)
  | unregister (a : Addr)
  | getRef (obj : Addr)
  | releaseRef (obj : Addr)
  deriving DecidableEq, Repr

namespace LoopWorld

def init : LoopWorld := ⟨tmqEventLoopInit, fun _ => 0, fun _ => 0, []⟩

/-- The object whose reference is lost when a handler is unregistered now. -/
def forgotten (loop : EventLoop) (a : Addr) : Option Addr := do
  let handler ← loop.handlers a
  let channel ← loop.channels handler.fd
  if loop.phase = .polling ∧ a ∈ channel.handlers then handler.tiedArg else none

def step (world : LoopWorld) : LoopAction → Option LoopWorld
  | .poll returned => (world.loop.poll returned).map fun loop =>
      { world with loop := loop, returned := returned }
  | .advance => world.loop.advance.map fun loop => { world with loop := loop }
  | .create obj fd => (world.loop.create obj fd).map fun loop => { world with loop := loop }
  | .handlerNew a fd events cb arg tie =>
      (world.loop.handlerNew a (tmqEventHandlerNew fd events cb arg tie)).map fun loop =>
        { world with loop := loop }
  | .register a => (world.loop.tmqHandlerRegister a).map fun loop => { world with loop := loop }
  | .unregister a => (world.loop.tmqHandlerUnregister a).map fun loop =>
      { world with loop := loop, lost := bump world.lost (forgotten world.loop a) }
  | .getRef obj => (world.loop.getRef (some obj)).map fun loop =>
      { world with loop := loop, held := bump world.held (some obj) }
  | .releaseRef obj => (world.loop.releaseRef (some obj)).map fun loop =>
      { world with loop := loop, held := Function.update world.held obj (world.held obj - 1) }

/-- The object may be named: somebody holds a reference on it, nobody has
counted it yet, or one of its handlers is registered or has its callback
running. -/
def Usable (world : LoopWorld) (obj : Addr) : Prop :=
  0 < world.held obj ∨
    (∃ counted, world.loop.objects obj = some counted ∧ counted.refCnt = 0) ∨
    ∃ a, (world.loop.Registered a ∨ ∃ rest, world.loop.phase = .calling (some a) rest) ∧
      ∀ handler, world.loop.handlers a = some handler → handler.tiedArg = some obj

/-- The handler may be named: it belongs to an object that may be, or it is not
tied to one. -/
def Named (world : LoopWorld) (a : Addr) : Prop :=
  (∃ obj, world.Usable obj ∧ ∀ counted, world.loop.objects obj = some counted →
    a ∈ counted.handlers) ∨
  ∃ handler, world.loop.handlers a = some handler ∧ handler.tied = false

/-- What the users and the kernel promise. -/
def Allowed (world : LoopWorld) : LoopAction → Prop
  | .poll returned => world.loop.phase = .polling ∧
      ∀ p ∈ returned, world.loop.epoll p.1 ≠ none
  | .advance => world.loop.phase ≠ .polling
  | .create obj fd => world.loop.objects obj = none ∧ world.loop.channels fd = none ∧
      ∀ obj' counted, world.loop.objects obj' = some counted → counted.fd ≠ fd
  | .handlerNew a fd _ _ arg tie => world.loop.handlers a = none ∧
      (tie = true → ∃ obj, arg = some obj ∧ world.Usable obj ∧
        ∀ counted, world.loop.objects obj = some counted → counted.fd = fd)
  | .register a => world.Named a ∧ ¬ world.loop.Registered a ∧
      ∀ handler, world.loop.handlers a = some handler → handler.tied = false →
        ∀ obj counted, world.loop.objects obj = some counted → counted.fd ≠ handler.fd
  | .unregister a => world.Named a ∧ ∀ it, world.loop.phase ≠ .releasing it
  | .getRef obj => world.Usable obj
  | .releaseRef obj => 0 < world.held obj

def others (world : LoopWorld) : Addr → Nat := fun obj => world.held obj + world.lost obj

variable {world : LoopWorld}

theorem inv_init : init.loop.Inv init.others := by
  constructor
  · intro obj counted hobj
    cases hobj
  · intro a handler hhandler
    cases hhandler
  · intro obj obj' counted counted' hobj
    cases hobj
  · intro fd channel hchannel
    cases hchannel
  · intro obj counted channel hobj
    cases hobj
  · intro fd
    rfl
  · intro a ha
    cases ha
  · intro a ha
    cases ha
  · intro obj counted hobj
    cases hobj
  · intro obj _
    rfl

/-- An object that may be named is in memory. -/
theorem Usable.live (h : world.loop.Inv world.others) {obj : Addr} (hobj : world.Usable obj) :
    ∃ counted, world.loop.objects obj = some counted := by
  rcases hobj with hheld | ⟨counted, hcounted, -⟩ | ⟨a, hplace, htied⟩
  · cases hobj : world.loop.objects obj with
    | some counted => exact ⟨counted, rfl⟩
    | none =>
        have hdead := h.dead hobj
        rw [others] at hdead
        omega
  · exact ⟨counted, hcounted⟩
  · obtain ⟨handler, hhandler⟩ : ∃ handler, world.loop.handlers a = some handler := by
      rcases hplace with hregistered | ⟨rest, hphase⟩
      · obtain ⟨handler, hhandler, -⟩ := h.registered_handler hregistered
        exact ⟨handler, hhandler⟩
      · have hactive : a ∈ world.loop.active := by
          rw [active, hphase]
          exact List.mem_cons_self
        obtain ⟨handler, hhandler, -⟩ := h.active_handler hactive
        exact ⟨handler, hhandler⟩
    obtain ⟨counted, hcounted, -, -⟩ := h.object_of hhandler (htied handler hhandler)
    exact ⟨counted, hcounted⟩

/-- A handler that may be named is in memory. -/
theorem Named.live (h : world.loop.Inv world.others) {a : Addr} (ha : world.Named a) :
    ∃ handler, world.loop.handlers a = some handler := by
  rcases ha with ⟨obj, husable, hmem⟩ | ⟨handler, hhandler, -⟩
  · obtain ⟨counted, hcounted⟩ := Usable.live h husable
    obtain ⟨handler, hhandler, -, -⟩ := h.owned hcounted a (hmem counted hcounted)
    exact ⟨handler, hhandler⟩
  · exact ⟨handler, hhandler⟩

/-- `tmq_handler_unregister`, of a handler that is registered or not. -/
theorem unregister_inv (h : world.loop.Inv world.others) {a : Addr} {handler : EventHandler}
    (hhandler : world.loop.handlers a = some handler)
    (hphase : ∀ it, world.loop.phase ≠ .releasing it) :
    ∃ next, world.loop.tmqHandlerUnregister a = some next ∧
      next.Inv (bump world.others (forgotten world.loop a)) := by
  by_cases hregistered : world.loop.Registered a
  · obtain ⟨channel, hchannel, hmem⟩ := (h.registered_iff hhandler).mp hregistered
    refine ⟨_, h.unregister_eq hhandler hchannel hmem hphase, ?_⟩
    refine h.withoutHandler hhandler hchannel hmem ?_
    rw [forgotten, hhandler, Option.bind_eq_bind, Option.bind_some, hchannel,
      Option.bind_eq_bind, Option.bind_some]
    cases hphase' : world.loop.phase with
    | polling =>
        rw [if_pos ⟨rfl, hmem⟩]
        exact .inl ⟨hphase', rfl⟩
    | calling running rest =>
        rw [if_neg (fun hboth => by cases hboth.1), bump_none]
        exact .inr ⟨running, rest, hphase', rfl⟩
    | releasing it => exact absurd hphase' (hphase it)
  · refine ⟨world.loop, h.unregister_self hhandler hregistered, ?_⟩
    have hkept : forgotten world.loop a = none := by
      rw [forgotten, hhandler, Option.bind_eq_bind, Option.bind_some]
      cases hchannel : world.loop.channels handler.fd with
      | none => rfl
      | some channel =>
          exact if_neg fun hboth => hregistered ⟨handler.fd, channel, hchannel, hboth.2⟩
    rw [hkept, bump_none]
    exact h

/-- Every step that keeps to the promises is defined and keeps the
invariant. -/
theorem step_inv (h : world.loop.Inv world.others) {action : LoopAction}
    (hallowed : world.Allowed action) :
    ∃ next, world.step action = some next ∧ next.loop.Inv next.others := by
  cases action with
  | poll returned =>
      obtain ⟨next, hnext, hinv, -⟩ := h.poll hallowed.1 hallowed.2
      exact ⟨{ world with loop := next, returned := returned }, by rw [step, hnext]; rfl, hinv⟩
  | advance =>
      obtain ⟨next, hnext, hinv⟩ := h.advance hallowed
      exact ⟨{ world with loop := next }, by rw [step, hnext]; rfl, hinv⟩
  | create obj fd =>
      obtain ⟨hobj, hchannel, hfd⟩ := hallowed
      obtain ⟨next, hnext, hinv⟩ := h.create hobj hchannel hfd
      exact ⟨{ world with loop := next }, by rw [step, hnext]; rfl, hinv⟩
  | handlerNew a fd events cb arg tie =>
      obtain ⟨hnew, htie⟩ := hallowed
      have hobject : (tmqEventHandlerNew fd events cb arg tie).tied = true →
          ∃ obj counted, (tmqEventHandlerNew fd events cb arg tie).arg = some obj ∧
            world.loop.objects obj = some counted ∧
            counted.fd = (tmqEventHandlerNew fd events cb arg tie).fd := by
        intro htied
        obtain ⟨obj, harg, husable, hfd⟩ := htie htied
        obtain ⟨counted, hcounted⟩ := Usable.live h husable
        exact ⟨obj, counted, harg, hcounted, hfd counted hcounted⟩
      obtain ⟨next, hnext, hinv⟩ := h.handlerNew hnew hobject
      exact ⟨{ world with loop := next }, by rw [step, hnext]; rfl, hinv⟩
  | register a =>
      obtain ⟨hnamed, hnot, hfree⟩ := hallowed
      obtain ⟨handler, hhandler⟩ := Named.live h hnamed
      obtain ⟨objects, hnext, hinv⟩ := h.register hhandler hnot (hfree handler hhandler)
      exact ⟨{ world with loop := _ }, by rw [step, hnext]; rfl, hinv⟩
  | unregister a =>
      obtain ⟨hnamed, hphase⟩ := hallowed
      obtain ⟨handler, hhandler⟩ := Named.live h hnamed
      obtain ⟨next, hnext, hinv⟩ := unregister_inv h hhandler hphase
      refine ⟨{ world with loop := next, lost := bump world.lost (forgotten world.loop a) }, ?_, ?_⟩
      · rw [step, hnext]
        rfl
      · have hothers : LoopWorld.others { world with
            loop := next, lost := bump world.lost (forgotten world.loop a) }
              = bump world.others (forgotten world.loop a) := by
          funext obj
          simp only [others, bump]
          omega
        rw [hothers]
        exact hinv
  | getRef obj =>
      obtain ⟨counted, hcounted⟩ := Usable.live h hallowed
      have hlive : ∀ obj', some obj = some obj' → world.loop.objects obj' ≠ none := by
        rintro obj' ⟨⟩ hnone
        cases hnone.symm.trans hcounted
      obtain ⟨objects, hnext, hinv, -⟩ := h.getRef hlive
      refine ⟨{ world with
        loop := { world.loop with objects := objects }, held := bump world.held (some obj) }, ?_, ?_⟩
      · rw [step, hnext]
        rfl
      · have hothers : LoopWorld.others { world with
            loop := { world.loop with objects := objects }, held := bump world.held (some obj) }
              = bump world.others (some obj) := by
          funext obj'
          simp only [others, bump]
          omega
        rw [hothers]
        exact hinv
  | releaseRef obj =>
      have hheld : 0 < world.held obj := hallowed
      have hothers : bump (fun obj' => Function.update world.held obj (world.held obj - 1) obj'
          + world.lost obj') (some obj) = world.others := by
        funext obj'
        rw [bump, others]
        by_cases hsame : obj = obj'
        · subst hsame
          rw [Function.update_self, if_pos rfl]
          omega
        · rw [Function.update_of_ne (Ne.symm hsame), if_neg (mt Option.some.inj hsame)]
          rfl
      rw [← hothers] at h
      obtain ⟨next, hnext, hinv, -⟩ := h.releaseRef
      refine ⟨{ world with
        loop := next, held := Function.update world.held obj (world.held obj - 1) }, ?_, hinv⟩
      rw [step, hnext]
      rfl

theorem runs_inv {actions : List LoopAction} (hactions : Admissible Allowed step init actions) :
    ∃ world, runs step init actions = some world ∧ world.loop.Inv world.others :=
  @runs_invariant _ _ Allowed step (fun world => world.loop.Inv world.others)
    (fun _ _ hinv hallowed => step_inv hinv hallowed) actions init inv_init hactions

/-- In every run the handlers and the objects that the loop reads are in memory,
none is freed twice, and `epoll_ctl` never fails; and an object is in memory as
long as it is counted, once for every registration, every unregistered handler
that the pass has yet to release, and every other reference. Nothing is said of
the map's entry of a channel, which `tmq_handler_unregister` reads once more after
it has erased it, and of the pointer of `tmq_handler_register` to a variable whose
block has ended. -/
theorem handlers_and_objects_in_memory (actions : List LoopAction)
    (hactions : Admissible Allowed step init actions) :
    ∃ world, runs step init actions = some world ∧
      (∀ obj counted, world.loop.objects obj = some counted → counted.refCnt
        = world.held obj + world.lost obj + world.loop.loopRefs counted) ∧
      (∀ obj, world.loop.objects obj = none → world.held obj = 0 ∧ world.lost obj = 0) ∧
      ∀ a, world.loop.Registered a → ∃ handler, world.loop.handlers a = some handler ∧
        ∀ obj, handler.tiedArg = some obj → world.loop.objects obj ≠ none := by
  obtain ⟨world, hrun, hinv⟩ := runs_inv hactions
  refine ⟨world, hrun, ?_, ?_, ?_⟩
  · intro obj counted hobj
    have hexact := hinv.exact hobj
    rw [others] at hexact
    push_cast at hexact
    exact hexact
  · intro obj hobj
    have hdead := hinv.dead hobj
    rw [others] at hdead
    omega
  · intro a ha
    obtain ⟨handler, hhandler, -⟩ := hinv.registered_handler ha
    refine ⟨handler, hhandler, ?_⟩
    intro obj htied hnone
    obtain ⟨counted, hobj, -, -⟩ := hinv.object_of hhandler htied
    cases hnone.symm.trans hobj

/-! ### Promises that can be checked -/

def ListedRegistered (world : LoopWorld) (a : Addr) : Prop :=
  ∃ handler ∈ world.loop.handlers a, ∃ channel ∈ world.loop.channels handler.fd,
    a ∈ channel.handlers

instance (world : LoopWorld) (a : Addr) : Decidable (ListedRegistered world a) :=
  inferInstanceAs (Decidable (∃ handler ∈ world.loop.handlers a, _))

/-- The object may be named, as its own list of handlers shows. -/
def ListedUsable (world : LoopWorld) (obj : Addr) : Prop :=
  0 < world.held obj ∨ ∃ counted ∈ world.loop.objects obj, counted.refCnt = 0 ∨
    ∃ a ∈ counted.handlers, ListedRegistered world a ∧
      ∃ handler ∈ world.loop.handlers a, handler.tiedArg = some obj

instance (world : LoopWorld) (obj : Addr) : Decidable (ListedUsable world obj) :=
  inferInstanceAs (Decidable (_ ∨ _))

def ListedNamed (world : LoopWorld) (a : Addr) : Prop :=
  ∃ handler ∈ world.loop.handlers a, ∃ obj ∈ handler.tiedArg, ListedUsable world obj ∧
    ∃ counted ∈ world.loop.objects obj, a ∈ counted.handlers

instance (world : LoopWorld) (a : Addr) : Decidable (ListedNamed world a) :=
  inferInstanceAs (Decidable (∃ handler ∈ world.loop.handlers a, _))

def isReleasing : LoopPhase → Bool
  | .releasing _ => true
  | _ => false

/-- The promises of users whose handlers are tied, after the objects have been
made. -/
def ListedAllowed (world : LoopWorld) : LoopAction → Prop
  | .poll returned => world.loop.phase = .polling ∧
      ∀ p ∈ returned, world.loop.epoll p.1 ≠ none
  | .advance => world.loop.phase ≠ .polling
  | .create _ _ => False
  | .handlerNew a fd _ _ arg tie => world.loop.handlers a = none ∧ tie = true ∧
      ∃ obj ∈ arg, ListedUsable world obj ∧
        ∃ counted ∈ world.loop.objects obj, counted.fd = fd
  | .register a => ListedNamed world a ∧ ¬ ListedRegistered world a
  | .unregister a => ListedNamed world a ∧ isReleasing world.loop.phase = false
  | .getRef obj => ListedUsable world obj
  | .releaseRef obj => 0 < world.held obj

instance (world : LoopWorld) : (action : LoopAction) → Decidable (ListedAllowed world action)
  | .poll _ => inferInstanceAs (Decidable (_ ∧ _))
  | .advance => inferInstanceAs (Decidable (_ ≠ _))
  | .create _ _ => inferInstanceAs (Decidable False)
  | .handlerNew _ _ _ _ _ _ => inferInstanceAs (Decidable (_ ∧ _ ∧ _))
  | .register _ => inferInstanceAs (Decidable (_ ∧ _))
  | .unregister _ => inferInstanceAs (Decidable (_ ∧ _))
  | .getRef _ => inferInstanceAs (Decidable (ListedUsable world _))
  | .releaseRef _ => inferInstanceAs (Decidable (_ < _))

theorem ListedUsable.usable {obj : Addr} (h : ListedUsable world obj) : world.Usable obj := by
  rcases h with hheld | ⟨counted, hobj, hzero | ⟨a, -, hlisted, handler, hhandler, htied⟩⟩
  · exact .inl hheld
  · exact .inr (.inl ⟨counted, hobj, hzero⟩)
  · obtain ⟨handler', -, channel, hchannel, hmem⟩ := hlisted
    refine .inr (.inr ⟨a, .inl ⟨_, channel, hchannel, hmem⟩, ?_⟩)
    intro handler'' hhandler''
    obtain rfl : handler = handler'' := Option.some.inj (hhandler.symm.trans hhandler'')
    exact htied

theorem ListedNamed.named {a : Addr} (h : ListedNamed world a) : world.Named a := by
  obtain ⟨handler, -, obj, -, husable, counted, hobj, hmem⟩ := h
  refine .inl ⟨obj, husable.usable, ?_⟩
  intro counted' hobj'
  obtain rfl : counted = counted' := Option.some.inj (hobj.symm.trans hobj')
  exact hmem

/-- What is checked is enough. -/
theorem ListedAllowed.allowed (hinv : world.loop.Inv world.others) {action : LoopAction}
    (h : ListedAllowed world action) : world.Allowed action := by
  cases action with
  | poll returned => exact h
  | advance => exact h
  | create obj fd => exact h.elim
  | handlerNew a fd events cb arg tie =>
      obtain ⟨hnew, -, obj, harg, husable, counted, hobj, hfd⟩ := h
      refine ⟨hnew, fun _ => ⟨obj, harg, husable.usable, ?_⟩⟩
      intro counted' hobj'
      obtain rfl : counted = counted' := Option.some.inj (hobj.symm.trans hobj')
      exact hfd
  | register a =>
      obtain ⟨hnamed, hnot⟩ := h
      obtain ⟨handler, hhandler, obj, htied, -⟩ := id hnamed
      have hregistered : ¬ world.loop.Registered a := by
        intro hregistered
        obtain ⟨channel, hchannel, hmem⟩ := (hinv.registered_iff hhandler).mp hregistered
        exact hnot ⟨handler, hhandler, channel, hchannel, hmem⟩
      refine ⟨hnamed.named, hregistered, ?_⟩
      intro handler' hhandler' huntied
      obtain rfl : handler = handler' := Option.some.inj (hhandler.symm.trans hhandler')
      rw [EventHandler.tiedArg, huntied] at htied
      cases htied
  | unregister a =>
      obtain ⟨hnamed, hphase⟩ := h
      refine ⟨hnamed.named, ?_⟩
      intro it hreleasing
      rw [hreleasing] at hphase
      cases hphase
  | getRef obj => exact ListedUsable.usable h
  | releaseRef obj => exact h

/-- A connection with two handlers that somebody holds a reference on. Both have
events, and the callback of the first one unregisters the other, registers it
again and unregisters itself. -/
def twoHandlers : List LoopAction :=
  [.handlerNew 10 5 1 (some 99) (some 1) true, .handlerNew 11 5 4 (some 98) (some 1) true,
    .register 10, .register 11, .getRef 1, .poll [(5, 5)], .advance, .unregister 10, .register 10,
    .unregister 11]

theorem twoHandlers_admissible : Admissible Allowed step init (.create 1 5 :: twoHandlers) := by
  have hcreate : init.Allowed (.create 1 5) := by
    refine ⟨rfl, rfl, ?_⟩
    intro obj counted hobj
    cases hobj
  obtain ⟨next, hnext, hinv⟩ := step_inv inv_init hcreate
  refine ⟨hcreate, ?_⟩
  rw [hnext]
  refine @admissible_of_checked _ _ ListedAllowed Allowed step
    (fun world => world.loop.Inv world.others) (fun _ _ hinv h => step_inv hinv h)
    (fun _ _ hinv h => ListedAllowed.allowed hinv h) _ next hinv ?_
  obtain rfl := Option.some.inj hnext
  decide +kernel

/-- In the callback the connection is counted four times: for a registration, for
two handlers that were unregistered, and for the reference. -/
theorem handlers_and_objects_in_memory_twoHandlers :
    ∃ world, runs step init (.create 1 5 :: twoHandlers) = some world ∧
      world.loop.calls = [⟨11, 5, 5, some 1⟩] ∧ world.held 1 = 1 ∧
      world.loop.registrations 5 = 1 ∧
      ∃ counted, world.loop.objects 1 = some counted ∧ counted.refCnt = 4 ∧
        counted.refCnt = world.held 1 + world.lost 1 + world.loop.loopRefs counted := by
  obtain ⟨world, hrun, hexact, -⟩ :=
    handlers_and_objects_in_memory (.create 1 5 :: twoHandlers) twoHandlers_admissible
  have hobj : world.loop.objects 1 = some ⟨4, [11, 10], 5⟩ :=
    observe_eq hrun (f := fun world => world.loop.objects 1) (by decide +kernel)
  refine ⟨world, hrun, ?_, ?_, ?_, ⟨4, [11, 10], 5⟩, hobj, rfl, hexact 1 ⟨4, [11, 10], 5⟩ hobj⟩
  · exact observe_eq hrun (f := fun world => world.loop.calls) (by decide +kernel)
  · exact observe_eq hrun (f := fun world => world.held 1) (by decide +kernel)
  · exact observe_eq hrun (f := fun world => world.loop.registrations 5) (by decide +kernel)

end LoopWorld

end TinyMqtt
