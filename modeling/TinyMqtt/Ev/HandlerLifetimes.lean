import TinyMqtt.Ev.EventLoop
import Mathlib.Data.List.Count

/-!
The memory of handlers. A registration of a tied handler counts on its object,
and the count is given back at the end of the pass in which the handler was
unregistered: so a handler that the pass still has to look at is in memory, and
so is the object that its callback is called with.
-/

namespace TinyMqtt

open FiniteMap LinkedList

/-- The object whose count a registration takes. -/
def EventHandler.tiedArg (handler : EventHandler) : Option Addr :=
  if handler.tied then handler.arg else none

namespace EventLoop

/-! ### What is counted -/

def Registered (loop : EventLoop) (a : Addr) : Prop :=
  ∃ fd channel, loop.channels fd = some channel ∧ a ∈ channel.handlers

/-- The unregistered handlers whose objects the pass has yet to release. -/
def pending (loop : EventLoop) : List Addr :=
  match loop.phase with
  | .polling => []
  | .calling _ _ => loop.removingHandlers
  | .releasing it => loop.removingHandlers.drop it

def active (loop : EventLoop) : List Addr :=
  match loop.phase with
  | .calling running rest => running.toList ++ rest
  | _ => []

def registrations (loop : EventLoop) (fd : Int) : Nat :=
  ((loop.channels fd).elim [] EpollChannel.handlers).length

/-- What the loop itself counts of an object. -/
def loopRefs (loop : EventLoop) (counted : RefCounted) : Nat :=
  loop.registrations counted.fd + loop.pending.countP (counted.handlers.contains ·)

def bump (others : Addr → Nat) (arg : Option Addr) : Addr → Nat :=
  fun obj => others obj + if arg = some obj then 1 else 0

/-- Handlers and objects point to each other, every handler that is registered,
pending or active is in memory, `epoll` watches for what the channels say, and
each object is counted once for every registration, every pending handler and
every other reference. -/
structure Inv (loop : EventLoop) (others : Addr → Nat) : Prop where
  owned : ∀ {obj counted}, loop.objects obj = some counted → ∀ a ∈ counted.handlers,
    ∃ handler, loop.handlers a = some handler ∧ handler.tiedArg = some obj ∧
      handler.fd = counted.fd
  owner : ∀ {a handler}, loop.handlers a = some handler → handler.tied = true →
    ∃ obj counted, handler.arg = some obj ∧ loop.objects obj = some counted ∧
      a ∈ counted.handlers
  oneOwner : ∀ {obj obj' counted counted'}, loop.objects obj = some counted →
    loop.objects obj' = some counted' → counted.fd = counted'.fd → obj = obj'
  listed : ∀ {fd channel}, loop.channels fd = some channel →
    channel.handlers ≠ [] ∧ channel.handlers.Nodup ∧ ∀ a ∈ channel.handlers,
      ∃ handler, loop.handlers a = some handler ∧ handler.fd = fd ∧ handler.canceled = false
  ofObject : ∀ {obj counted channel}, loop.objects obj = some counted →
    loop.channels counted.fd = some channel → ∀ a ∈ channel.handlers, a ∈ counted.handlers
  watched : ∀ fd, loop.epoll fd = (loop.channels fd).map EpollChannel.allEvents
  known : ∀ a ∈ loop.pending, ∃ handler, loop.handlers a = some handler ∧
    (handler.canceled = false → loop.Registered a)
  reached : ∀ a ∈ loop.active, loop.Registered a ∨ a ∈ loop.pending
  exact : ∀ {obj counted}, loop.objects obj = some counted →
    counted.refCnt = others obj + loop.loopRefs counted
  dead : ∀ {obj}, loop.objects obj = none → others obj = 0

variable {loop : EventLoop} {others : Addr → Nat}

theorem Inv.registered_iff (h : loop.Inv others) {a : Addr} {handler : EventHandler}
    (hhandler : loop.handlers a = some handler) :
    loop.Registered a ↔ ∃ channel, loop.channels handler.fd = some channel ∧
      a ∈ channel.handlers := by
  constructor
  · rintro ⟨fd, channel, hchannel, hmem⟩
    obtain ⟨-, -, hlisted⟩ := h.listed hchannel
    obtain ⟨handler', hhandler', rfl, -⟩ := hlisted a hmem
    obtain rfl : handler' = handler := Option.some.inj (hhandler'.symm.trans hhandler)
    exact ⟨channel, hchannel, hmem⟩
  · rintro ⟨channel, hchannel, hmem⟩
    exact ⟨handler.fd, channel, hchannel, hmem⟩

theorem Inv.registered_handler (h : loop.Inv others) {a : Addr} (ha : loop.Registered a) :
    ∃ handler, loop.handlers a = some handler ∧ handler.canceled = false := by
  obtain ⟨fd, channel, hchannel, hmem⟩ := ha
  obtain ⟨handler, hhandler, -, hcanceled⟩ := (h.listed hchannel).2.2 a hmem
  exact ⟨handler, hhandler, hcanceled⟩

/-- A handler that the pass comes to is in memory, and it is canceled just when
it is not registered any more. -/
theorem Inv.active_handler (h : loop.Inv others) {a : Addr} (ha : a ∈ loop.active) :
    ∃ handler, loop.handlers a = some handler ∧
      (handler.canceled = false ↔ loop.Registered a) := by
  rcases h.reached a ha with hregistered | hpending
  · obtain ⟨handler, hhandler, hcanceled⟩ := h.registered_handler hregistered
    exact ⟨handler, hhandler, iff_of_true hcanceled hregistered⟩
  · obtain ⟨handler, hhandler, hback⟩ := h.known a hpending
    refine ⟨handler, hhandler, hback, ?_⟩
    intro hregistered
    obtain ⟨handler', hhandler', hcanceled⟩ := h.registered_handler hregistered
    rwa [Option.some.inj (hhandler.symm.trans hhandler')]

theorem tiedArg_eq_some {handler : EventHandler} {obj : Addr}
    (htied : handler.tiedArg = some obj) : handler.tied = true ∧ handler.arg = some obj := by
  unfold EventHandler.tiedArg at htied
  split at htied
  · exact ⟨by assumption, htied⟩
  · cases htied

/-- The object of a tied handler, with the descriptor of the handler. -/
theorem Inv.object_of (h : loop.Inv others) {a : Addr} {handler : EventHandler}
    (hhandler : loop.handlers a = some handler) {obj : Addr}
    (htied : handler.tiedArg = some obj) :
    ∃ counted, loop.objects obj = some counted ∧ a ∈ counted.handlers ∧
      handler.fd = counted.fd := by
  obtain ⟨htie, harg⟩ := tiedArg_eq_some htied
  obtain ⟨obj', counted, harg', hobj, hmem⟩ := h.owner hhandler htie
  obtain rfl : obj = obj' := Option.some.inj (harg.symm.trans harg')
  obtain ⟨handler', hhandler', -, hfd⟩ := h.owned hobj a hmem
  obtain rfl : handler = handler' := Option.some.inj (hhandler.symm.trans hhandler')
  exact ⟨counted, hobj, hmem, hfd⟩

/-! ### References -/

theorem bump_none (others : Addr → Nat) : bump others none = others := by
  funext obj
  simp [bump]

theorem bump_self (others : Addr → Nat) (obj : Addr) :
    bump others (some obj) obj = others obj + 1 := by
  simp [bump]

theorem bump_of_ne (others : Addr → Nat) {obj obj' : Addr} (h : obj ≠ obj') :
    bump others (some obj) obj' = others obj' := by
  simp [bump, h]

/-- The objects after the count of one of them changed: the others are as they
were, and so are the handlers and the descriptor of this one. -/
theorem objects_recounted {obj : Addr} {counted : RefCounted}
    (hobj : loop.objects obj = some counted) {n : Int} {obj' : Addr} {counted' : RefCounted}
    (h : set loop.objects obj { counted with refCnt := n } obj' = some counted') :
    ∃ old, loop.objects obj' = some old ∧ old.handlers = counted'.handlers ∧
      old.fd = counted'.fd ∧ (obj = obj' → counted'.refCnt = n) ∧
      (obj ≠ obj' → counted'.refCnt = old.refCnt) := by
  by_cases hsame : obj = obj'
  · subst hsame
    rw [set_self] at h
    obtain rfl := Option.some.inj h
    exact ⟨counted, hobj, rfl, rfl, fun _ => rfl, fun hne => absurd rfl hne⟩
  · rw [set_of_ne _ hsame] at h
    exact ⟨counted', h, rfl, rfl, fun heq => absurd heq hsame, fun _ => rfl⟩

theorem loopRefs_congr {counted counted' : RefCounted} (hhandlers : counted.handlers = counted'.handlers)
    (hfd : counted.fd = counted'.fd) : loop.loopRefs counted = loop.loopRefs counted' := by
  rw [loopRefs, loopRefs, hhandlers, hfd]

/-- The count of one object changes, with the other references on it. -/
theorem Inv.recount (h : loop.Inv others) {obj : Addr} {counted : RefCounted}
    (hobj : loop.objects obj = some counted) {others' : Addr → Nat} {n : Int}
    (hself : n = others' obj + loop.loopRefs counted)
    (hothers : ∀ obj', obj ≠ obj' → others' obj' = others obj') :
    Inv { loop with objects := set loop.objects obj { counted with refCnt := n } } others' where
  owned := by
    intro obj' counted' hobj' a ha
    obtain ⟨old, hold, hhandlers, hfd, -, -⟩ := objects_recounted hobj hobj'
    rw [← hfd]
    exact h.owned hold a (hhandlers ▸ ha)
  owner := by
    intro a handler hhandler htied
    obtain ⟨obj', counted', harg, hobj', hmem⟩ := h.owner hhandler htied
    by_cases hsame : obj = obj'
    · subst hsame
      obtain rfl : counted = counted' := Option.some.inj (hobj.symm.trans hobj')
      exact ⟨obj, _, harg, set_self _ _ _, hmem⟩
    · exact ⟨obj', counted', harg, (set_of_ne _ hsame _).trans hobj', hmem⟩
  oneOwner := by
    intro obj₁ obj₂ counted₁ counted₂ hobj₁ hobj₂ hfd
    obtain ⟨old₁, hold₁, -, hfd₁, -⟩ := objects_recounted hobj hobj₁
    obtain ⟨old₂, hold₂, -, hfd₂, -⟩ := objects_recounted hobj hobj₂
    exact h.oneOwner hold₁ hold₂ (by rw [hfd₁, hfd₂, hfd])
  listed := h.listed
  ofObject := by
    intro obj' counted' channel hobj' hchannel a ha
    obtain ⟨old, hold, hhandlers, hfd, -, -⟩ := objects_recounted hobj hobj'
    rw [← hhandlers]
    exact h.ofObject hold (hfd ▸ hchannel) a ha
  watched := h.watched
  known := h.known
  reached := h.reached
  exact := by
    intro obj' counted' hobj'
    obtain ⟨old, hold, hhandlers, hfd, hthis, hother⟩ := objects_recounted hobj hobj'
    change counted'.refCnt = others' obj' + loop.loopRefs counted'
    rw [← loopRefs_congr hhandlers hfd]
    by_cases hsame : obj = obj'
    · subst hsame
      obtain rfl : old = counted := Option.some.inj (hold.symm.trans hobj)
      rw [hthis rfl, hself]
    · rw [hother hsame, hothers obj' hsame, h.exact hold]
  dead := by
    intro obj' hobj'
    have hsame : obj ≠ obj' := by
      rintro rfl
      cases (set_self loop.objects obj { counted with refCnt := n }).symm.trans hobj'
    rw [hothers obj' hsame]
    exact h.dead ((set_of_ne loop.objects hsame _).symm.trans hobj')

/-- `get_ref`: an object that is in memory has one more reference. -/
theorem Inv.getRef (h : loop.Inv others) {arg : Option Addr}
    (hlive : ∀ obj, arg = some obj → loop.objects obj ≠ none) :
    ∃ objects, loop.getRef arg = some { loop with objects := objects } ∧
      Inv { loop with objects := objects } (bump others arg) ∧
      ∀ obj counted, objects obj = some counted →
        ∃ old, loop.objects obj = some old ∧ old.handlers = counted.handlers ∧
          old.fd = counted.fd := by
  cases arg with
  | none =>
      refine ⟨loop.objects, rfl, ?_, fun obj counted hobj => ⟨counted, hobj, rfl, rfl⟩⟩
      rw [bump_none]
      exact h
  | some obj =>
      obtain ⟨counted, hobj⟩ := Option.ne_none_iff_exists'.mp (hlive obj rfl)
      refine ⟨set loop.objects obj { counted with refCnt := counted.refCnt + 1 }, ?_, ?_, ?_⟩
      · rw [EventLoop.getRef, hobj]
        rfl
      · refine h.recount hobj ?_ fun obj' hne => bump_of_ne others hne
        rw [h.exact hobj, bump_self]
        push_cast
        ring
      · intro obj' counted' hobj'
        obtain ⟨old, hold, hhandlers, hfd, -, -⟩ := objects_recounted hobj hobj'
        exact ⟨old, hold, hhandlers, hfd⟩

/-- The object of a last reference has no handler registered, and none
pending. -/
theorem Inv.unused (h : loop.Inv others) {counted : RefCounted}
    (hrefs : loop.loopRefs counted = 0) :
    loop.channels counted.fd = none ∧ ∀ a ∈ counted.handlers, a ∉ loop.pending := by
  have hsum : loop.registrations counted.fd = 0 ∧
      loop.pending.countP (counted.handlers.contains ·) = 0 := by
    rw [loopRefs] at hrefs
    omega
  constructor
  · cases hchannel : loop.channels counted.fd with
    | none => rfl
    | some channel =>
        obtain ⟨hne, -⟩ := h.listed hchannel
        have hlength := hsum.1
        rw [registrations, hchannel] at hlength
        exact absurd (List.length_eq_zero_iff.mp hlength) hne
  · intro a ha hpending
    have hnone := List.countP_eq_zero.mp hsum.2 a hpending
    exact hnone (List.contains_iff_mem.mpr ha)

/-- The cleaner frees the handlers of the object only, and no handler of a
channel. -/
theorem Inv.cleanUp {obj : Addr} (h : loop.Inv (bump others (some obj))) {counted : RefCounted}
    (hobj : loop.objects obj = some counted) (hothers : others obj = 0)
    (hrefs : loop.loopRefs counted = 0) :
    ∃ next, loop.cleanUp obj counted = some next ∧ next.Inv others ∧ next.phase = loop.phase ∧
      next.channels = loop.channels ∧ next.calls = loop.calls := by
  obtain ⟨hchannel, hpending⟩ := h.unused hrefs
  have hall : (counted.handlers.all fun a => (loop.handlers a).isSome) = true := by
    rw [List.all_eq_true]
    intro a ha
    obtain ⟨handler, hhandler, -, -⟩ := h.owned hobj a ha
    rw [hhandler, Option.isSome_some]
  have hkeep : ∀ {a : Addr}, a ∉ counted.handlers →
      (if counted.handlers.contains a then none else loop.handlers a) = loop.handlers a := by
    intro a ha
    rw [if_neg (mt List.contains_iff_mem.mp ha)]
  have hold : ∀ {a : Addr} {handler : EventHandler},
      (if counted.handlers.contains a then none else loop.handlers a) = some handler →
        a ∉ counted.handlers ∧ loop.handlers a = some handler := by
    intro a handler hhandler
    split at hhandler
    · cases hhandler
    · exact ⟨mt List.contains_iff_mem.mpr (by assumption), hhandler⟩
  have hobject : ∀ {obj' : Addr} {counted' : RefCounted},
      unset loop.objects obj obj' = some counted' →
        obj ≠ obj' ∧ loop.objects obj' = some counted' := by
    intro obj' counted' hobj'
    by_cases hsame : obj = obj'
    · subst hsame
      rw [unset_self] at hobj'
      cases hobj'
    · exact ⟨hsame, (unset_of_ne _ hsame).symm.trans hobj'⟩
  rw [EventLoop.cleanUp, if_pos hall]
  refine ⟨_, rfl, ?_, rfl, rfl, rfl⟩
  constructor
  · intro obj' counted' hobj' a ha
    obtain ⟨hne, hobj'⟩ := hobject hobj'
    obtain ⟨handler, hhandler, htied, hfd⟩ := h.owned hobj' a ha
    refine ⟨handler, (hkeep ?_).trans hhandler, htied, hfd⟩
    intro hmem
    obtain ⟨handler', hhandler', htied', -⟩ := h.owned hobj a hmem
    obtain rfl : handler' = handler := Option.some.inj (hhandler'.symm.trans hhandler)
    exact hne (Option.some.inj (htied'.symm.trans htied))
  · intro a handler hhandler htied
    obtain ⟨hnot, hhandler⟩ := hold hhandler
    obtain ⟨obj', counted', harg, hobj', hmem⟩ := h.owner hhandler htied
    refine ⟨obj', counted', harg, (unset_of_ne _ ?_).trans hobj', hmem⟩
    rintro rfl
    obtain rfl : counted = counted' := Option.some.inj (hobj.symm.trans hobj')
    exact hnot hmem
  · intro obj₁ obj₂ counted₁ counted₂ h₁ h₂ hfd
    exact h.oneOwner (hobject h₁).2 (hobject h₂).2 hfd
  · intro fd channel hlist
    obtain ⟨hne, hnodup, hlisted⟩ := h.listed hlist
    refine ⟨hne, hnodup, ?_⟩
    intro a ha
    obtain ⟨handler, hhandler, hfd, hcanceled⟩ := hlisted a ha
    refine ⟨handler, (hkeep ?_).trans hhandler, hfd, hcanceled⟩
    intro hmem
    obtain ⟨handler', hhandler', -, hfd'⟩ := h.owned hobj a hmem
    obtain rfl : handler' = handler := Option.some.inj (hhandler'.symm.trans hhandler)
    rw [← hfd', hfd] at hchannel
    cases hchannel.symm.trans hlist
  · intro obj' counted' channel hobj'
    exact h.ofObject (hobject hobj').2
  · intro fd
    by_cases hsame : counted.fd = fd
    · subst hsame
      change unset loop.epoll counted.fd counted.fd = _
      rw [unset_self, hchannel]
      rfl
    · exact (unset_of_ne _ hsame).trans (h.watched fd)
  · intro a ha
    obtain ⟨handler, hhandler, hback⟩ := h.known a ha
    exact ⟨handler, (hkeep fun hmem => hpending a hmem ha).trans hhandler, hback⟩
  · exact h.reached
  · intro obj' counted' hobj'
    obtain ⟨hne, hobj'⟩ := hobject hobj'
    have hexact := h.exact hobj'
    rwa [bump_of_ne _ hne] at hexact
  · intro obj' hobj'
    by_cases hsame : obj = obj'
    · exact hsame ▸ hothers
    · have hdead := h.dead ((unset_of_ne loop.objects hsame).symm.trans hobj')
      rwa [bump_of_ne _ hsame] at hdead

/-- `release_ref`: one reference less, and the last one frees the object. -/
theorem Inv.releaseRef {arg : Option Addr} (h : loop.Inv (bump others arg)) :
    ∃ next, loop.releaseRef arg = some next ∧ next.Inv others ∧ next.phase = loop.phase ∧
      next.channels = loop.channels ∧ next.calls = loop.calls := by
  cases arg with
  | none =>
      rw [bump_none] at h
      exact ⟨loop, rfl, h, rfl, rfl, rfl⟩
  | some obj =>
      cases hobj : loop.objects obj with
      | none =>
          have hdead := h.dead hobj
          rw [bump_self] at hdead
          cases hdead
      | some counted =>
          have hexact := h.exact hobj
          rw [bump_self] at hexact
          have hless : counted.refCnt - 1 = others obj + loop.loopRefs counted := by
            push_cast at hexact
            omega
          rw [EventLoop.releaseRef, hobj, Option.bind_eq_bind, Option.bind_some]
          by_cases hlast : counted.refCnt - 1 = 0
          · rw [if_pos hlast]
            exact h.cleanUp hobj (by omega) (by omega)
          · rw [if_neg hlast]
            refine ⟨_, rfl, h.recount hobj hless ?_, rfl, rfl, rfl⟩
            intro obj' hne
            exact (bump_of_ne others hne).symm

/-! ### Registrations -/

/-- A handler after `canceled` was written in one. -/
theorem handlers_recanceled {a : Addr} {handler : EventHandler}
    (hhandler : loop.handlers a = some handler) {canceled : Bool} {a' : Addr}
    {handler' : EventHandler}
    (h : set loop.handlers a { handler with canceled := canceled } a' = some handler') :
    ∃ old, loop.handlers a' = some old ∧ handler' = { old with canceled := handler'.canceled } ∧
      (a = a' → handler'.canceled = canceled) ∧ (a ≠ a' → handler' = old) := by
  by_cases hsame : a = a'
  · subst hsame
    rw [set_self] at h
    obtain rfl := Option.some.inj h
    exact ⟨handler, hhandler, rfl, fun _ => rfl, fun hne => absurd rfl hne⟩
  · rw [set_of_ne _ hsame] at h
    exact ⟨handler', h, rfl, fun heq => absurd heq hsame, fun _ => rfl⟩

theorem recanceled_handler {a : Addr} {handler : EventHandler}
    (hhandler : loop.handlers a = some handler) (canceled : Bool) {a' : Addr}
    {old : EventHandler} (hold : loop.handlers a' = some old) :
    ∃ handler', set loop.handlers a { handler with canceled := canceled } a' = some handler' ∧
      handler' = { old with canceled := handler'.canceled } ∧
      (a = a' → handler'.canceled = canceled) ∧ (a ≠ a' → handler' = old) := by
  by_cases hsame : a = a'
  · subst hsame
    obtain rfl : handler = old := Option.some.inj (hhandler.symm.trans hold)
    exact ⟨_, set_self _ _ _, rfl, fun _ => rfl, fun hne => absurd rfl hne⟩
  · exact ⟨old, (set_of_ne _ hsame _).trans hold, rfl, fun heq => absurd heq hsame, fun _ => rfl⟩

/-- Writing `canceled` leaves handlers and objects pointing to each other. -/
theorem Inv.owned_recanceled (h : loop.Inv others) {a : Addr} {handler : EventHandler}
    (hhandler : loop.handlers a = some handler) (canceled : Bool) {obj : Addr}
    {counted : RefCounted} (hobj : loop.objects obj = some counted) {a' : Addr}
    (ha' : a' ∈ counted.handlers) :
    ∃ handler', set loop.handlers a { handler with canceled := canceled } a' = some handler' ∧
      handler'.tiedArg = some obj ∧ handler'.fd = counted.fd := by
  obtain ⟨old, hold, htied, hfd⟩ := h.owned hobj a' ha'
  obtain ⟨handler', hhandler', heq, -, -⟩ := recanceled_handler hhandler canceled hold
  refine ⟨handler', hhandler', ?_, ?_⟩
  · rw [heq]
    exact htied
  · rw [heq]
    exact hfd

theorem Inv.owner_recanceled (h : loop.Inv others) {a : Addr} {handler : EventHandler}
    (hhandler : loop.handlers a = some handler) {canceled : Bool} {a' : Addr}
    {handler' : EventHandler}
    (hhandler' : set loop.handlers a { handler with canceled := canceled } a' = some handler')
    (htied : handler'.tied = true) :
    ∃ obj counted, handler'.arg = some obj ∧ loop.objects obj = some counted ∧
      a' ∈ counted.handlers := by
  obtain ⟨old, hold, heq, -, -⟩ := handlers_recanceled hhandler hhandler'
  rw [heq] at htied
  obtain ⟨obj, counted, harg, hobj, hmem⟩ := h.owner hold htied
  rw [heq]
  exact ⟨obj, counted, harg, hobj, hmem⟩

/-- An object that has the descriptor of a handler is the one that the handler
is tied to. -/
theorem Inv.tiedArg_iff (h : loop.Inv others) {a : Addr} {handler : EventHandler}
    (hhandler : loop.handlers a = some handler)
    (hfree : handler.tied = false → ∀ obj counted, loop.objects obj = some counted →
      counted.fd ≠ handler.fd)
    {obj : Addr} {counted : RefCounted} (hobj : loop.objects obj = some counted) :
    (handler.tiedArg = some obj ↔ counted.fd = handler.fd) ∧
      (handler.tiedArg = some obj → a ∈ counted.handlers) := by
  have hto : handler.tiedArg = some obj → counted.fd = handler.fd ∧ a ∈ counted.handlers := by
    intro htied
    obtain ⟨counted', hobj', hmem, hfd⟩ := h.object_of hhandler htied
    obtain rfl : counted = counted' := Option.some.inj (hobj.symm.trans hobj')
    exact ⟨hfd.symm, hmem⟩
  refine ⟨⟨fun htied => (hto htied).1, ?_⟩, fun htied => (hto htied).2⟩
  intro hfd
  cases htie : handler.tied with
  | false => exact absurd hfd (hfree htie obj counted hobj)
  | true =>
      obtain ⟨obj', counted', harg, hobj', hmem⟩ := h.owner hhandler htie
      obtain ⟨handler', hhandler', -, hfd'⟩ := h.owned hobj' a hmem
      obtain rfl : handler = handler' := Option.some.inj (hhandler.symm.trans hhandler')
      obtain rfl : obj = obj' := h.oneOwner hobj hobj' (hfd.trans hfd')
      rw [EventHandler.tiedArg, if_pos htie, harg]

/-- The loop with a handler at the head of its channel. -/
def inserted (loop : EventLoop) (a : Addr) (handler : EventHandler) (allEvents : BitVec 32) :
    EventLoop :=
  { loop with
    channels := set loop.channels handler.fd
      ⟨a :: (loop.channels handler.fd).elim [] EpollChannel.handlers, allEvents⟩
    handlers := set loop.handlers a { handler with canceled := false }
    epoll := set loop.epoll handler.fd allEvents }

theorem registered_inserted {a : Addr} {handler : EventHandler} {allEvents : BitVec 32}
    {a' : Addr} (h : a' = a ∨ loop.Registered a') :
    (loop.inserted a handler allEvents).Registered a' := by
  rcases h with rfl | ⟨fd, channel, hchannel, hmem⟩
  · exact ⟨handler.fd, _, set_self _ _ _, List.mem_cons_self⟩
  · by_cases hsame : handler.fd = fd
    · subst hsame
      refine ⟨handler.fd, _, set_self _ _ _, List.mem_cons_of_mem a ?_⟩
      rw [hchannel]
      exact hmem
    · exact ⟨fd, channel, (set_of_ne _ hsame _).trans hchannel, hmem⟩

/-- The handlers beside a new one. -/
theorem Inv.listed_before (h : loop.Inv others) {fd : Int} {a : Addr}
    (ha : a ∈ (loop.channels fd).elim [] EpollChannel.handlers) :
    ∃ channel, loop.channels fd = some channel ∧ a ∈ channel.handlers ∧
      ∃ handler, loop.handlers a = some handler ∧ handler.fd = fd ∧ handler.canceled = false := by
  cases hchannel : loop.channels fd with
  | none =>
      rw [hchannel] at ha
      cases ha
  | some channel =>
      rw [hchannel] at ha
      exact ⟨channel, rfl, ha, (h.listed hchannel).2.2 a ha⟩

theorem Inv.listed_inserted (h : loop.Inv others) {a : Addr} {handler : EventHandler}
    (hnot : ¬ loop.Registered a) {allEvents : BitVec 32} {fd : Int} {channel : EpollChannel}
    (hchannel : (loop.inserted a handler allEvents).channels fd = some channel) :
    channel.handlers ≠ [] ∧ channel.handlers.Nodup ∧ ∀ a' ∈ channel.handlers,
      ∃ handler', (loop.inserted a handler allEvents).handlers a' = some handler' ∧
        handler'.fd = fd ∧ handler'.canceled = false := by
  have hother : ∀ {fd' : Int} {channel' : EpollChannel} {a' : Addr},
      loop.channels fd' = some channel' → a' ∈ channel'.handlers → a ≠ a' := by
    rintro fd' channel' a' hchannel' hmem rfl
    exact hnot ⟨fd', channel', hchannel', hmem⟩
  by_cases hsame : handler.fd = fd
  · subst hsame
    obtain rfl := Option.some.inj ((set_self _ _ _).symm.trans hchannel)
    refine ⟨List.cons_ne_nil _ _, List.nodup_cons.mpr ⟨?_, ?_⟩, ?_⟩
    · intro hmem
      obtain ⟨channel', hchannel', hmem', -⟩ := h.listed_before hmem
      exact hother hchannel' hmem' rfl
    · cases hchannel : loop.channels handler.fd with
      | none => exact List.nodup_nil
      | some channel => exact (h.listed hchannel).2.1
    · intro a' ha'
      rcases List.mem_cons.mp ha' with rfl | ha'
      · exact ⟨_, set_self _ _ _, rfl, rfl⟩
      · obtain ⟨channel', hchannel', hmem', handler', hhandler', hfd, hcanceled⟩ :=
          h.listed_before ha'
        exact ⟨handler', (set_of_ne _ (hother hchannel' hmem') _).trans hhandler', hfd, hcanceled⟩
  · have hchannel' := (set_of_ne loop.channels hsame _).symm.trans hchannel
    obtain ⟨hne, hnodup, hlisted⟩ := h.listed hchannel'
    refine ⟨hne, hnodup, ?_⟩
    intro a' ha'
    obtain ⟨handler', hhandler', hfd, hcanceled⟩ := hlisted a' ha'
    exact ⟨handler', (set_of_ne _ (hother hchannel' ha') _).trans hhandler', hfd, hcanceled⟩

/-- The object of the new handler is counted once more. -/
theorem loopRefs_inserted (a : Addr) {handler : EventHandler} (allEvents : BitVec 32) {obj : Addr}
    {counted : RefCounted} (hiff : handler.tiedArg = some obj ↔ counted.fd = handler.fd) :
    (loop.inserted a handler allEvents).loopRefs counted
      = loop.loopRefs counted + if handler.tiedArg = some obj then 1 else 0 := by
  change (loop.inserted a handler allEvents).registrations counted.fd
      + loop.pending.countP (counted.handlers.contains ·) = _
  rw [loopRefs]
  by_cases hsame : handler.fd = counted.fd
  · rw [if_pos (hiff.mpr hsame.symm), ← hsame]
    simp only [registrations, EventLoop.inserted, set_self, Option.elim_some, List.length_cons]
    omega
  · rw [if_neg fun htied => hsame (hiff.mp htied).symm]
    simp only [registrations, EventLoop.inserted, set_of_ne _ hsame]
    omega

/-- A registration, after the reference was taken. -/
theorem Inv.inserted {a : Addr} {handler : EventHandler}
    (h : loop.Inv (bump others handler.tiedArg)) (hhandler : loop.handlers a = some handler)
    (hnot : ¬ loop.Registered a)
    (hfree : handler.tied = false → ∀ obj counted, loop.objects obj = some counted →
      counted.fd ≠ handler.fd) (allEvents : BitVec 32) :
    (loop.inserted a handler allEvents).Inv others where
  owned := fun hobj _ ha' => h.owned_recanceled hhandler false hobj ha'
  owner := h.owner_recanceled hhandler
  oneOwner := h.oneOwner
  listed := h.listed_inserted hnot
  ofObject := by
    intro obj counted channel hobj hchannel a' ha'
    obtain ⟨hiff, hmem⟩ := h.tiedArg_iff hhandler hfree hobj
    by_cases hsame : handler.fd = counted.fd
    · rw [← hsame] at hchannel
      obtain rfl := Option.some.inj ((set_self _ _ _).symm.trans hchannel)
      rcases List.mem_cons.mp ha' with rfl | ha'
      · exact hmem (hiff.mpr hsame.symm)
      · obtain ⟨channel', hchannel', hmem', -⟩ := h.listed_before ha'
        exact h.ofObject hobj (hsame ▸ hchannel') a' hmem'
    · exact h.ofObject hobj ((set_of_ne loop.channels hsame _).symm.trans hchannel) a' ha'
  watched := by
    intro fd
    by_cases hsame : handler.fd = fd
    · subst hsame
      simp [EventLoop.inserted]
    · simp [EventLoop.inserted, set_of_ne _ hsame, h.watched fd]
  known := by
    intro a' ha'
    obtain ⟨old, hold, hback⟩ := h.known a' ha'
    obtain ⟨handler', hhandler', -, -, hother⟩ := recanceled_handler hhandler false hold
    refine ⟨handler', hhandler', ?_⟩
    intro hcanceled
    by_cases hsame : a = a'
    · exact registered_inserted (.inl hsame.symm)
    · rw [hother hsame] at hcanceled
      exact registered_inserted (.inr (hback hcanceled))
  reached := by
    intro a' ha'
    rcases h.reached a' ha' with hregistered | hpending
    · exact .inl (registered_inserted (.inr hregistered))
    · exact .inr hpending
  exact := by
    intro obj counted hobj
    obtain ⟨hiff, -⟩ := h.tiedArg_iff hhandler hfree hobj
    rw [loopRefs_inserted a allEvents hiff, h.exact hobj, bump]
    push_cast
    ring
  dead := by
    intro obj hobj
    have hdead := h.dead hobj
    rw [bump] at hdead
    omega

theorem getRef_tiedArg (loop : EventLoop) (handler : EventHandler) :
    (if handler.tied then loop.getRef handler.arg else some loop)
      = loop.getRef handler.tiedArg := by
  cases htied : handler.tied <;> simp [EventHandler.tiedArg, htied, EventLoop.getRef]

/-- `tmq_handler_register` of a handler that is not registered. -/
theorem Inv.register (h : loop.Inv others) {a : Addr} {handler : EventHandler}
    (hhandler : loop.handlers a = some handler) (hnot : ¬ loop.Registered a)
    (hfree : handler.tied = false → ∀ obj counted, loop.objects obj = some counted →
      counted.fd ≠ handler.fd) :
    ∃ objects, loop.tmqHandlerRegister a = some (EventLoop.inserted
        { loop with objects := objects } a handler
        ((loop.channels handler.fd).elim 0 EpollChannel.allEvents ||| handler.events)) ∧
      (EventLoop.inserted { loop with objects := objects } a handler
        ((loop.channels handler.fd).elim 0 EpollChannel.allEvents ||| handler.events)).Inv
          others := by
  have hlive : ∀ obj, handler.tiedArg = some obj → loop.objects obj ≠ none := by
    intro obj htied hnone
    obtain ⟨counted, hobj, -, -⟩ := h.object_of hhandler htied
    cases hnone.symm.trans hobj
  obtain ⟨objects, hget, hinv, hsame⟩ := h.getRef hlive
  refine ⟨objects, ?_, hinv.inserted hhandler hnot ?_ _⟩
  · rw [tmqHandlerRegister, hhandler, Option.bind_eq_bind, Option.bind_some, getRef_tiedArg, hget,
      Option.bind_some, link]
    have hwatched := h.watched handler.fd
    cases hchannel : loop.channels handler.fd with
    | none =>
        rw [hchannel] at hwatched
        simp [epollAdd, hwatched, EventLoop.inserted, hchannel]
    | some channel =>
        have hmem : a ∉ channel.handlers := fun hmem => hnot ⟨_, _, hchannel, hmem⟩
        rw [hchannel] at hwatched
        simp [epollMod, hwatched, EventLoop.inserted, hchannel, hmem]
  · intro htied obj counted hobj
    obtain ⟨old, hold, -, hfd⟩ := hsame obj counted hobj
    rw [← hfd]
    exact hfree htied obj old hold

/-! ### Unregistering -/

/-- The channels without a handler: `channel` loses it, and goes when it was
the last one. -/
def channelsWithout (loop : EventLoop) (a : Addr) (handler : EventHandler)
    (channel : EpollChannel) : Int → Option EpollChannel :=
  if channel.handlers.erase a = [] then unset loop.channels handler.fd
  else set loop.channels handler.fd
    ⟨channel.handlers.erase a, channel.allEvents &&& ~~~handler.events⟩

def withoutHandler (loop : EventLoop) (a : Addr) (handler : EventHandler)
    (channel : EpollChannel) : EventLoop :=
  { loop with
    handlers := set loop.handlers a { handler with canceled := true }
    channels := loop.channelsWithout a handler channel
    epoll := fun fd => (loop.channelsWithout a handler channel fd).map EpollChannel.allEvents
    removingHandlers := loop.removingHandlers ++ [a] }

/-- The list of a channel can be followed. -/
theorem Inv.reaches_channel (h : loop.Inv others) {fd : Int} {channel : EpollChannel}
    (hchannel : loop.channels fd = some channel) (a : Addr) : loop.reaches channel a = true := by
  rw [reaches, List.all_eq_true]
  intro b hb
  obtain ⟨handler, hhandler, -, -⟩ := (h.listed hchannel).2.2 b (List.takeWhile_subset _ hb)
  rw [hhandler, Option.isSome_some]

/-- `tmq_handler_unregister` of a registered handler. -/
theorem Inv.unregister_eq (h : loop.Inv others) {a : Addr} {handler : EventHandler}
    (hhandler : loop.handlers a = some handler) {channel : EpollChannel}
    (hchannel : loop.channels handler.fd = some channel) (hmem : a ∈ channel.handlers)
    (hphase : ∀ it, loop.phase ≠ .releasing it) :
    loop.tmqHandlerUnregister a = some (loop.withoutHandler a handler channel) := by
  have hreaches := h.reaches_channel hchannel a
  have hepoll : loop.epoll = fun fd => (loop.channels fd).map EpollChannel.allEvents :=
    funext h.watched
  rw [tmqHandlerUnregister, hhandler, Option.bind_eq_bind, Option.bind_some, hchannel]
  have hcontains : channel.handlers.contains a = true := List.contains_iff_mem.mpr hmem
  have hwatching : loop.epoll handler.fd ≠ none := by
    rw [h.watched, hchannel]
    exact Option.some_ne_none _
  simp only [hreaches, hcontains, Bool.not_true, Bool.false_eq_true, if_false]
  by_cases hlast : channel.handlers.erase a = []
  · have hchannels : loop.channelsWithout a handler channel = unset loop.channels handler.fd := by
      rw [channelsWithout, if_pos hlast]
    have hepoll' : (fun fd => (unset loop.channels handler.fd fd).map EpollChannel.allEvents)
        = unset loop.epoll handler.fd := by
      funext fd
      rw [hepoll]
      by_cases hsame : handler.fd = fd
      · simp [hsame]
      · simp [unset_of_ne _ hsame]
    rw [withoutHandler, hchannels, hepoll']
    cases hphases : loop.phase with
    | polling => simp [hlast, epollDel, hwatching]
    | calling running rest => simp [hlast, epollDel, hwatching]
    | releasing it => exact absurd hphases (hphase it)
  · have hchannels : loop.channelsWithout a handler channel = set loop.channels handler.fd
        ⟨channel.handlers.erase a, channel.allEvents &&& ~~~handler.events⟩ := by
      rw [channelsWithout, if_neg hlast]
    have hepoll' : (fun fd => (set loop.channels handler.fd ⟨channel.handlers.erase a,
          channel.allEvents &&& ~~~handler.events⟩ fd).map EpollChannel.allEvents)
        = set loop.epoll handler.fd (channel.allEvents &&& ~~~handler.events) := by
      funext fd
      rw [hepoll]
      by_cases hsame : handler.fd = fd
      · simp [hsame]
      · simp [set_of_ne _ hsame]
    rw [withoutHandler, hchannels, hepoll']
    cases hphases : loop.phase with
    | polling => simp [hlast, epollMod, hwatching]
    | calling running rest => simp [hlast, epollMod, hwatching]
    | releasing it => exact absurd hphases (hphase it)

/-- `tmq_handler_unregister` of a handler that is not registered. -/
theorem Inv.unregister_self (h : loop.Inv others) {a : Addr} {handler : EventHandler}
    (hhandler : loop.handlers a = some handler) (hnot : ¬ loop.Registered a) :
    loop.tmqHandlerUnregister a = some loop := by
  rw [tmqHandlerUnregister, hhandler, Option.bind_eq_bind, Option.bind_some]
  cases hchannel : loop.channels handler.fd with
  | none => rfl
  | some channel =>
      have hmem : a ∉ channel.handlers := fun hmem => hnot ⟨handler.fd, channel, hchannel, hmem⟩
      simp [h.reaches_channel hchannel a, hmem]

theorem channelsWithout_of_ne (a : Addr) (handler : EventHandler) (channel : EpollChannel)
    {fd : Int} (hne : handler.fd ≠ fd) :
    loop.channelsWithout a handler channel fd = loop.channels fd := by
  unfold channelsWithout
  split
  · exact unset_of_ne _ hne
  · exact set_of_ne _ hne _

theorem channelsWithout_self {a : Addr} {handler : EventHandler} {channel channel' : EpollChannel}
    (h : loop.channelsWithout a handler channel handler.fd = some channel') :
    channel'.handlers = channel.handlers.erase a ∧ channel.handlers.erase a ≠ [] ∧
      channel'.allEvents = channel.allEvents &&& ~~~handler.events := by
  unfold channelsWithout at h
  split at h
  · rw [unset_self] at h
    cases h
  · rw [set_self] at h
    obtain rfl := Option.some.inj h
    exact ⟨rfl, by assumption, rfl⟩

theorem registrations_withoutHandler (a : Addr) (handler : EventHandler) (channel : EpollChannel) :
    (loop.withoutHandler a handler channel).registrations handler.fd
      = (channel.handlers.erase a).length := by
  unfold registrations withoutHandler channelsWithout
  split
  · rename_i hlast
    simp [hlast]
  · simp

theorem registered_withoutHandler {a : Addr} {handler : EventHandler} {channel : EpollChannel}
    (hchannel : loop.channels handler.fd = some channel) {a' : Addr} (hne : a ≠ a') :
    (loop.withoutHandler a handler channel).Registered a' ↔ loop.Registered a' := by
  constructor
  · rintro ⟨fd, channel', hchannel', hmem⟩
    by_cases hsame : handler.fd = fd
    · subst hsame
      obtain ⟨heq, -, -⟩ := channelsWithout_self hchannel'
      exact ⟨handler.fd, channel, hchannel, List.mem_of_mem_erase (heq ▸ hmem)⟩
    · exact ⟨fd, channel', (channelsWithout_of_ne a handler channel hsame).symm.trans hchannel',
        hmem⟩
  · rintro ⟨fd, channel', hchannel', hmem⟩
    by_cases hsame : handler.fd = fd
    · subst hsame
      obtain rfl : channel = channel' := Option.some.inj (hchannel.symm.trans hchannel')
      have hmem' : a' ∈ channel.handlers.erase a := (List.mem_erase_of_ne hne.symm).mpr hmem
      have hother : channel.handlers.erase a ≠ [] := List.ne_nil_of_mem hmem'
      refine ⟨handler.fd, ⟨channel.handlers.erase a, channel.allEvents &&& ~~~handler.events⟩, ?_,
        hmem'⟩
      exact (congrFun (if_neg hother) _).trans (set_self _ _ _)
    · exact ⟨fd, channel', (channelsWithout_of_ne a handler channel hsame).trans hchannel', hmem⟩

/-- An object has the descriptor of a registered handler just when the handler is
tied to it, and just when the handler is one of its own. -/
theorem Inv.registered_owner (h : loop.Inv others) {a : Addr} {handler : EventHandler}
    (hhandler : loop.handlers a = some handler) {channel : EpollChannel}
    (hchannel : loop.channels handler.fd = some channel) (hmem : a ∈ channel.handlers)
    {obj : Addr} {counted : RefCounted} (hobj : loop.objects obj = some counted) :
    (handler.tiedArg = some obj ↔ counted.fd = handler.fd) ∧
      (a ∈ counted.handlers ↔ handler.tiedArg = some obj) := by
  have hfree : handler.tied = false → ∀ obj counted, loop.objects obj = some counted →
      counted.fd ≠ handler.fd := by
    intro htied obj counted hobj hfd
    obtain ⟨handler', hhandler', htied', -⟩ :=
      h.owned hobj a (h.ofObject hobj (hfd ▸ hchannel) a hmem)
    obtain rfl : handler = handler' := Option.some.inj (hhandler.symm.trans hhandler')
    rw [(tiedArg_eq_some htied').1] at htied
    cases htied
  obtain ⟨hiff, hto⟩ := h.tiedArg_iff hhandler hfree hobj
  refine ⟨hiff, ?_, hto⟩
  intro hin
  obtain ⟨handler', hhandler', htied', -⟩ := h.owned hobj a hin
  obtain rfl : handler = handler' := Option.some.inj (hhandler.symm.trans hhandler')
  exact htied'

theorem Inv.listed_withoutHandler (h : loop.Inv others) {a : Addr} {handler : EventHandler}
    (hhandler : loop.handlers a = some handler) {channel : EpollChannel}
    (hchannel : loop.channels handler.fd = some channel) {fd : Int} {channel' : EpollChannel}
    (hchannel' : (loop.withoutHandler a handler channel).channels fd = some channel') :
    channel'.handlers ≠ [] ∧ channel'.handlers.Nodup ∧ ∀ a' ∈ channel'.handlers,
      ∃ handler', (loop.withoutHandler a handler channel).handlers a' = some handler' ∧
        handler'.fd = fd ∧ handler'.canceled = false := by
  by_cases hsame : handler.fd = fd
  · subst hsame
    obtain ⟨-, hnodup, hlisted⟩ := h.listed hchannel
    obtain ⟨heq, hne, -⟩ := channelsWithout_self hchannel'
    rw [heq]
    refine ⟨hne, hnodup.erase a, ?_⟩
    intro a' ha'
    obtain ⟨hne', hin⟩ := (hnodup.mem_erase_iff).mp ha'
    obtain ⟨handler', hhandler', hfd, hcanceled⟩ := hlisted a' hin
    exact ⟨handler', (set_of_ne _ hne'.symm _).trans hhandler', hfd, hcanceled⟩
  · have hold := (channelsWithout_of_ne a handler channel hsame).symm.trans hchannel'
    obtain ⟨hne, hnodup, hlisted⟩ := h.listed hold
    refine ⟨hne, hnodup, ?_⟩
    intro a' ha'
    obtain ⟨handler', hhandler', hfd, hcanceled⟩ := hlisted a' ha'
    have hne' : a ≠ a' := by
      rintro rfl
      obtain rfl : handler = handler' := Option.some.inj (hhandler.symm.trans hhandler')
      exact hsame hfd
    exact ⟨handler', (set_of_ne _ hne' _).trans hhandler', hfd, hcanceled⟩

/-- The registration of a handler counted once for its object. -/
theorem registrations_without {a : Addr} {handler : EventHandler} {channel : EpollChannel}
    (hchannel : loop.channels handler.fd = some channel) (hmem : a ∈ channel.handlers) {obj : Addr}
    {counted : RefCounted} (hiff : handler.tiedArg = some obj ↔ counted.fd = handler.fd) :
    (loop.withoutHandler a handler channel).registrations counted.fd
      + (if handler.tiedArg = some obj then 1 else 0) = loop.registrations counted.fd := by
  by_cases hsame : handler.fd = counted.fd
  · rw [if_pos (hiff.mpr hsame.symm), ← hsame, registrations_withoutHandler, registrations,
      hchannel, Option.elim_some, List.length_erase_of_mem hmem]
    have hpos := List.length_pos_of_mem hmem
    omega
  · rw [if_neg fun htied => hsame (hiff.mp htied).symm, registrations, registrations, Nat.add_zero]
    change ((loop.channelsWithout a handler channel counted.fd).elim [] _).length = _
    rw [channelsWithout_of_ne a handler channel hsame]

/-- Where the reference of an unregistered handler goes: it is lost when no pass
is under way, and else the handler is pending. -/
def Leaves (loop : EventLoop) (handler : EventHandler) (others others' : Addr → Nat) : Prop :=
  (loop.phase = .polling ∧ others' = bump others handler.tiedArg) ∨
    ∃ running rest, loop.phase = .calling running rest ∧ others' = others

theorem pending_withoutHandler (a : Addr) {handler : EventHandler} (channel : EpollChannel)
    {others' : Addr → Nat} (hleaves : loop.Leaves handler others others') :
    ((loop.withoutHandler a handler channel).pending = loop.pending ∧ loop.active = [] ∧
        others' = bump others handler.tiedArg) ∨
      ((loop.withoutHandler a handler channel).pending = loop.pending ++ [a] ∧
        others' = others) := by
  rcases hleaves with ⟨hphase, hothers⟩ | ⟨running, rest, hphase, hothers⟩
  · exact .inl ⟨by simp [pending, withoutHandler, hphase], by simp [active, hphase], hothers⟩
  · exact .inr ⟨by simp [pending, withoutHandler, hphase], hothers⟩

/-- All references on an object together stay the same. -/
theorem loopRefs_withoutHandler {a : Addr} {handler : EventHandler} {channel : EpollChannel}
    (hchannel : loop.channels handler.fd = some channel) (hmem : a ∈ channel.handlers) {obj : Addr}
    {counted : RefCounted} (hiff : handler.tiedArg = some obj ↔ counted.fd = handler.fd)
    (hin : a ∈ counted.handlers ↔ handler.tiedArg = some obj) {others' : Addr → Nat}
    (hleaves : loop.Leaves handler others others') :
    (loop.withoutHandler a handler channel).loopRefs counted + others' obj
      = loop.loopRefs counted + others obj := by
  have hregistrations := registrations_without hchannel hmem hiff
  rw [loopRefs, loopRefs]
  rcases pending_withoutHandler a channel hleaves with ⟨hpend, -, rfl⟩ | ⟨hpend, rfl⟩
  · rw [hpend, bump]
    omega
  · have hone : [a].countP (counted.handlers.contains ·)
        = if handler.tiedArg = some obj then 1 else 0 := by
      by_cases htied : handler.tiedArg = some obj
      · rw [if_pos htied, List.countP_singleton,
          if_pos (List.contains_iff_mem.mpr (hin.mpr htied))]
      · rw [if_neg htied, List.countP_singleton,
          if_neg (mt List.contains_iff_mem.mp (mt hin.mp htied))]
    rw [hpend, List.countP_append, hone]
    omega

/-- An unregistered handler keeps its object counted: until the end of the pass,
or for good when no pass is under way. -/
theorem Inv.withoutHandler (h : loop.Inv others) {a : Addr} {handler : EventHandler}
    (hhandler : loop.handlers a = some handler) {channel : EpollChannel}
    (hchannel : loop.channels handler.fd = some channel) (hmem : a ∈ channel.handlers)
    {others' : Addr → Nat} (hleaves : loop.Leaves handler others others') :
    (loop.withoutHandler a handler channel).Inv others' where
  owned := fun hobj _ ha' => h.owned_recanceled hhandler true hobj ha'
  owner := h.owner_recanceled hhandler
  oneOwner := h.oneOwner
  listed := h.listed_withoutHandler hhandler hchannel
  ofObject := by
    intro obj counted channel' hobj hchannel' a' ha'
    by_cases hsame : handler.fd = counted.fd
    · rw [← hsame] at hchannel'
      obtain ⟨heq, -, -⟩ := channelsWithout_self hchannel'
      exact h.ofObject hobj (hsame ▸ hchannel) a' (List.mem_of_mem_erase (heq ▸ ha'))
    · exact h.ofObject hobj
        ((channelsWithout_of_ne a handler channel hsame).symm.trans hchannel') a' ha'
  watched := fun _ => rfl
  known := by
    intro a' ha'
    have hpending : a' ∈ loop.pending ∨ a' = a := by
      rcases pending_withoutHandler a channel hleaves with ⟨hpend, -⟩ | ⟨hpend, -⟩
      · exact .inl (hpend ▸ ha')
      · rw [hpend, List.mem_append, List.mem_singleton] at ha'
        exact ha'
    have hold : ∃ old, loop.handlers a' = some old ∧
        (a ≠ a' → old.canceled = false → loop.Registered a') := by
      rcases hpending with hin | rfl
      · obtain ⟨old, hold, hback⟩ := h.known a' hin
        exact ⟨old, hold, fun _ => hback⟩
      · exact ⟨handler, hhandler, fun hne => absurd rfl hne⟩
    obtain ⟨old, hold, hback⟩ := hold
    obtain ⟨handler', hhandler', -, hthis, hother⟩ := recanceled_handler hhandler true hold
    refine ⟨handler', hhandler', ?_⟩
    intro hcanceled
    by_cases hsame : a = a'
    · rw [hthis hsame] at hcanceled
      cases hcanceled
    · rw [hother hsame] at hcanceled
      exact (registered_withoutHandler hchannel hsame).mpr (hback hsame hcanceled)
  reached := by
    intro a' ha'
    have hactive : a' ∈ loop.active := ha'
    rcases pending_withoutHandler a channel hleaves with ⟨-, hnone, -⟩ | ⟨hpend, -⟩
    · rw [hnone] at hactive
      cases hactive
    · rw [hpend]
      by_cases hsame : a = a'
      · exact .inr (List.mem_append.mpr (.inr (List.mem_singleton.mpr hsame.symm)))
      · rcases h.reached a' hactive with hregistered | hin
        · exact .inl ((registered_withoutHandler hchannel hsame).mpr hregistered)
        · exact .inr (List.mem_append_left _ hin)
  exact := by
    intro obj counted hobj
    obtain ⟨hiff, hin⟩ := h.registered_owner hhandler hchannel hmem hobj
    have hrefs := loopRefs_withoutHandler hchannel hmem hiff hin hleaves
    change counted.refCnt = _
    rw [h.exact hobj]
    omega
  dead := by
    intro obj hobj
    have hdead := h.dead hobj
    rcases hleaves with ⟨-, rfl⟩ | ⟨-, -, -, rfl⟩
    · have hnot : handler.tiedArg ≠ some obj := by
        intro htied
        obtain ⟨counted, hobj', -, -⟩ := h.object_of hhandler htied
        cases hobj.symm.trans hobj'
      rw [bump, if_neg hnot, hdead]
    · exact hdead

end EventLoop

end TinyMqtt
