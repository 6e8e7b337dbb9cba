import TinyMqtt.Rule.EngineRuns
import TinyMqtt.Rule.WrittenRule
import TinyMqtt.Topic.Matching

/-!
Rules for messages over whole runs. Their listeners stand in the topic tree
beside the subscriptions; a node whose last subscription goes is freed with its
listeners. As long as that does not happen to its node, a rule gets every
publish that its topic matches, once.
-/

namespace TinyMqtt

open RuleParser (tmqRuleParse)

variable {A π J : Type} [TmqString π]

/-! ### The listeners of the tree -/

omit [TmqString π] in
/-- An unsubscription leaves the listeners of a node, unless the node goes. -/
theorem listeners_removeSubscription {topics next : Topics π} {topicFilter clientId : Bytes}
    (hremove : tmqTopicsRemoveSubscription topics topicFilter clientId = some next)
    (path : List Bytes) :
    (dataAt next.root path).listeners = (dataAt topics.root path).listeners ∨
      next.root.valueAt path = none := by
  rcases removeSubscription_cases hremove with rfl | ⟨subscribers, htable, rfl⟩
  · exact .inl rfl
  · have hwithout : (dataAt (withoutSubscription topics.root topicFilter clientId subscribers)
        path).listeners = (dataAt topics.root path).listeners := by
      rw [withoutSubscription, dataAt_modifyValue (exists_of_table htable)]
      split <;> rfl
    rcases Option.eq_none_or_eq_some ((tryRemoveTopic
        (withoutSubscription topics.root topicFilter clientId subscribers)
        (tmqTopicSplit topicFilter).reverse).valueAt path) with hvalue | ⟨data, hvalue⟩
    · exact .inr hvalue
    · left
      rw [← hwithout, dataAt_of_valueAt hvalue, dataAt_of_valueAt (valueAt_tryRemoveTopic hvalue)]

def TopicCall.addsListener : TopicCall π → Bool
  | .addListener _ _ => true
  | _ => false

variable (plugins : PluginsInfo A) (getObjectItem : J → Bytes → Option CJsonItem)
  (cJsonParse : π → Option J)

/-- What a call that adds no listener does to the listeners of a node. -/
theorem listeners_step {topics next : Topics π} {call : TopicCall π}
    (hadds : call.addsListener = false) (hstep : call.step cJsonParse topics = some next)
    (path : List Bytes) :
    (dataAt next.root path).listeners = (dataAt topics.root path).listeners ∨
      next.root.valueAt path = none := by
  cases call with
  | addSubscription topicFilter clientId info =>
      obtain rfl := Option.some.inj hstep
      have hsame : (dataAt (tmqTopicsAddSubscription topics topicFilter clientId info).2.root
          path).listeners = (dataAt topics.root path).listeners := by
        unfold tmqTopicsAddSubscription
        split
        · rfl
        · dsimp only
          rw [dataAt_addTopic]
          split <;> rfl
      exact .inl hsame
  | removeSubscription topicFilter clientId => exact listeners_removeSubscription hstep path
  | addListener topicFilter listener => cases hadds
  | addRoute topicFilter memberAddr =>
      obtain rfl := Option.some.inj hstep
      have hsame : (dataAt (tmqTopicsAddRoute topics topicFilter memberAddr).root path).listeners
          = (dataAt topics.root path).listeners := by
        unfold tmqTopicsAddRoute
        dsimp only
        rw [dataAt_addTopic]
        split <;> rfl
      exact .inl hsame
  | publish req =>
      obtain rfl := Option.some.inj hstep
      have hsame : (dataAt (tmqTopicsPublish cJsonParse topics req).1.root path).listeners
          = (dataAt topics.root path).listeners := by
        simp only [tmqTopicsPublish, dataAt_matchNode]
        split <;> rfl
      exact .inl hsame

/-! ### Runs -/

/-- A call of the engine or of another part of the broker on its tree. -/
inductive EngineCall (π : Type) where
  | addRule (rule : Bytes)
  | topics (call : TopicCall π) (hadds : call.addsListener = false)

def EngineCall.step (engine : RuleEngine A π) : EngineCall π → Option (RuleEngine A π)
  | .addRule rule => tmqRuleEngineAddRule plugins engine rule
  | .topics call _ =>
      (call.step cJsonParse engine.topics).map fun topics => { engine with topics := topics }

/-- A rule for messages has a topic in which `#` stands only last. -/
def EngineCall.Valid : EngineCall π → Prop
  | .addRule rule => ∀ result, tmqRuleParse plugins rule = some (.ok result) →
      result.source.eventType = .message → ValidFilter (tmqTopicSplit (result.sourceTopic.getD []))
  | .topics _ _ => True

/-- The tree's listeners are those of the engine, each at one place. -/
structure EngineInv (engine : RuleEngine A π) : Prop where
  topics : ValidTopics engine.topics
  listed : ∀ path, ∀ l ∈ (dataAt engine.topics.root path).listeners, ∃ listener,
    engine.messageListeners[l.address]? = some listener ∧
      l.needJsonPayload = listener.needJsonPayload
  unique : ∀ p q, ∀ l ∈ (dataAt engine.topics.root p).listeners,
    ∀ m ∈ (dataAt engine.topics.root q).listeners, l.address = m.address → p = q
  nodup : ∀ path, ((dataAt engine.topics.root path).listeners.map EventListener.address).Nodup

omit [TmqString π] in
theorem dataAt_tmqTopicsInit (path : List Bytes) :
    dataAt (tmqTopicsInit : Topics π).root path = .new := by
  rw [tmqTopicsInit, dataAt_leaf_new]

omit [TmqString π] in
theorem engineInv_init : EngineInv (tmqRuleEngineInit : RuleEngine A π) := by
  have hempty : ∀ path, (dataAt (tmqRuleEngineInit : RuleEngine A π).topics.root path).listeners
      = [] := by
    intro path
    rw [tmqRuleEngineInit, dataAt_tmqTopicsInit]
    rfl
  refine ⟨validTopics_init, ?_, ?_, ?_⟩
  · intro path l hl
    rw [hempty] at hl
    cases hl
  · intro p q l hl
    rw [hempty] at hl
    cases hl
  · intro path
    rw [hempty]
    exact List.nodup_nil

omit [TmqString π] in
/-- A new listener goes before the others of its node. -/
theorem listeners_addListener (topics : Topics π) (topicFilter : Bytes) (l : EventListener)
    (path : List Bytes) :
    (dataAt (tmqTopicsAddListener topics topicFilter l).root path).listeners
      = if path = tmqTopicSplit topicFilter then l :: (dataAt topics.root path).listeners
        else (dataAt topics.root path).listeners := by
  unfold tmqTopicsAddListener
  dsimp only
  rw [dataAt_addTopic]
  split <;> rfl

omit [TmqString π] in
theorem EngineInv.address_lt {engine : RuleEngine A π} (h : EngineInv engine) {path : List Bytes}
    {l : EventListener} (hl : l ∈ (dataAt engine.topics.root path).listeners) :
    l.address < engine.messageListeners.length := by
  obtain ⟨listener, hlistener, -⟩ := h.listed path l hl
  exact (List.getElem?_eq_some_iff.mp hlistener).1

/-- A rule that is accepted keeps the invariant: its address is new. -/
theorem EngineInv.addListener {engine : RuleEngine A π} (h : EngineInv engine)
    {result : RuleParseResult A} (hvalid : result.source.eventType = .message →
      ValidFilter (tmqTopicSplit (result.sourceTopic.getD []))) :
    EngineInv (engine.addListener result) := by
  by_cases hmessage : result.source.eventType = .message
  · rw [RuleEngine.addListener, if_pos hmessage]
    have hvalid := hvalid hmessage
    generalize result.sourceTopic.getD [] = topic at hvalid ⊢
    have hlisteners := listeners_addListener engine.topics topic
      ⟨engine.messageListeners.length, (makeEventListener result).needJsonPayload⟩
    have hold : ∀ path, ∀ l ∈ (dataAt (tmqTopicsAddListener engine.topics topic
        ⟨engine.messageListeners.length, (makeEventListener result).needJsonPayload⟩).root
          path).listeners,
        (path = tmqTopicSplit topic ∧ l = ⟨engine.messageListeners.length,
          (makeEventListener result).needJsonPayload⟩) ∨
          l ∈ (dataAt engine.topics.root path).listeners := by
      intro path l hl
      rw [hlisteners] at hl
      split at hl
      · rename_i hpath
        rcases List.mem_cons.mp hl with rfl | hl
        · exact .inl ⟨hpath, rfl⟩
        · exact .inr hl
      · exact .inr hl
    refine ⟨?_, ?_, ?_, ?_⟩
    · exact validTopics_step (fun _ : π => none (α := Unit)) h.topics
        (.addListener ⟨topic, hvalid⟩ _) rfl
    · intro path l hl
      rcases hold path l hl with ⟨-, rfl⟩ | hl
      · exact ⟨makeEventListener result, by simp, rfl⟩
      · obtain ⟨listener, hlistener, hneed⟩ := h.listed path l hl
        refine ⟨listener, ?_, hneed⟩
        dsimp only
        rw [List.getElem?_append_left (h.address_lt hl)]
        exact hlistener
    · intro p q l hl m hm haddress
      rcases hold p l hl with ⟨hp, rfl⟩ | hl
      · rcases hold q m hm with ⟨hq, rfl⟩ | hm
        · rw [hp, hq]
        · have := h.address_lt hm
          dsimp only at haddress
          omega
      · rcases hold q m hm with ⟨hq, rfl⟩ | hm
        · have := h.address_lt hl
          dsimp only at haddress
          omega
        · exact h.unique p q l hl m hm haddress
    · intro path
      dsimp only
      rw [hlisteners]
      split
      · rw [List.map_cons, List.nodup_cons]
        refine ⟨?_, h.nodup path⟩
        intro hmem
        obtain ⟨l, hl, haddress⟩ := List.mem_map.mp hmem
        have := h.address_lt hl
        dsimp only at haddress
        omega
      · exact h.nodup path
  · rw [RuleEngine.addListener, if_neg hmessage]
    exact ⟨h.topics, h.listed, h.unique, h.nodup⟩

/-- A call on the tree that adds no listener keeps the invariant. -/
theorem EngineInv.topicsStep {engine : RuleEngine A π} (h : EngineInv engine)
    {call : TopicCall π} (hadds : call.addsListener = false) {topics : Topics π}
    (hstep : call.step cJsonParse engine.topics = some topics) :
    EngineInv { engine with topics := topics } := by
  have hold : ∀ path, ∀ l ∈ (dataAt topics.root path).listeners,
      l ∈ (dataAt engine.topics.root path).listeners := by
    intro path l hl
    rcases listeners_step cJsonParse hadds hstep path with hsame | hnone
    · rw [hsame] at hl
      exact hl
    · rw [dataAt_of_absent hnone] at hl
      cases hl
  refine ⟨validTopics_step cJsonParse h.topics call hstep, ?_, ?_, ?_⟩
  · intro path l hl
    exact h.listed path l (hold path l hl)
  · intro p q l hl m hm
    exact h.unique p q l (hold p l hl) m (hold q m hm)
  · intro path
    dsimp only
    rcases listeners_step cJsonParse hadds hstep path with hsame | hnone
    · rw [hsame]
      exact h.nodup path
    · rw [dataAt_of_absent hnone]
      exact List.nodup_nil

theorem EngineInv.step {engine next : RuleEngine A π} (h : EngineInv engine)
    {call : EngineCall π} (hvalid : call.Valid plugins)
    (hstep : call.step plugins cJsonParse engine = some next) : EngineInv next := by
  cases call with
  | addRule rule =>
      rcases addRule_cases plugins hstep with ⟨-, rfl⟩ | ⟨result, hparse, -, rfl⟩
      · exact ⟨h.topics, h.listed, h.unique, h.nodup⟩
      · exact h.addListener (hvalid result hparse)
  | topics call hadds =>
      obtain ⟨topics, htopics, rfl⟩ := Option.map_eq_some_iff.mp hstep
      exact h.topicsStep cJsonParse hadds htopics

/-- A listener once added keeps its address. -/
theorem getElem?_messageListeners_step {engine next : RuleEngine A π} {call : EngineCall π}
    (hstep : call.step plugins cJsonParse engine = some next) {address : Nat}
    {listener : RuleListener A} (hlistener : engine.messageListeners[address]? = some listener) :
    next.messageListeners[address]? = some listener := by
  cases call with
  | addRule rule =>
      rcases addRule_cases plugins hstep with ⟨-, rfl⟩ | ⟨result, -, -, rfl⟩
      · exact hlistener
      · rw [RuleEngine.addListener]
        split
        · dsimp only
          rw [List.getElem?_append_left (List.getElem?_eq_some_iff.mp hlistener).1]
          exact hlistener
        · exact hlistener
  | topics call hadds =>
      obtain ⟨topics, -, rfl⟩ := Option.map_eq_some_iff.mp hstep
      exact hlistener

/-- A listener stays with its node. -/
theorem mem_listeners_step {engine next : RuleEngine A π} {call : EngineCall π}
    (hstep : call.step plugins cJsonParse engine = some next) {path : List Bytes}
    (hnode : next.topics.root.valueAt path ≠ none) {l : EventListener}
    (hl : l ∈ (dataAt engine.topics.root path).listeners) :
    l ∈ (dataAt next.topics.root path).listeners := by
  cases call with
  | addRule rule =>
      rcases addRule_cases plugins hstep with ⟨-, rfl⟩ | ⟨result, -, -, rfl⟩
      · exact hl
      · rw [RuleEngine.addListener]
        split
        · dsimp only
          rw [listeners_addListener]
          split
          · exact List.mem_cons_of_mem _ hl
          · exact hl
        · exact hl
  | topics call hadds =>
      obtain ⟨topics, htopics, rfl⟩ := Option.map_eq_some_iff.mp hstep
      dsimp only
      rcases listeners_step cJsonParse hadds htopics path with hsame | hnone
      · rw [hsame]
        exact hl
      · exact absurd hnone hnode

/-! ### Publishing a message -/

def PublishReq.event (req : PublishReq π) (needJsonPayload : Bool) : PubEventData J :=
  { clientId := req.publisherClientId, username := req.publisherUsername,
    qos := req.message.qos, retain := req.retain,
    payloadAsJson := if needJsonPayload then cJsonParse req.message.message else none }

omit [TmqString π] in
theorem triggerListener_eq (req : PublishReq π) (path : List Bytes) (l : EventListener) :
    triggerListener cJsonParse req path l
      = if wantsEvent cJsonParse req l then
          [.publishEvent path l (req.event cJsonParse l.needJsonPayload)]
        else [] := by
  rw [triggerListener, wantsEvent, PublishReq.event]
  cases l.needJsonPayload with
  | false => rfl
  | true => cases cJsonParse req.message.message <;> rfl

def eventsOf (address : Nat) (events : List (MatchEvent J)) :
    List (EventListener × PubEventData J) :=
  events.filterMap fun
    | .publishEvent _ l event => if l.address = address then some (l, event) else none
    | _ => none

omit [TmqString π] in
/-- At a node that has one listener with the address and sees the publish. -/
theorem eventsOf_visitNode {req : PublishReq π} (hdirect : req.isTunneledPub = false)
    (address : Nat) (path : List Bytes) (data : TopicData π) :
    eventsOf address (visitNode cJsonParse req path data)
      = (data.listeners.filter fun l => l.address = address ∧ wantsEvent cJsonParse req l).map
          fun l => (l, req.event cJsonParse l.needJsonPayload) := by
  have hsubscribers : eventsOf address
      (data.subscribers.toList.map (.clientOnMatch path) : List (MatchEvent J)) = [] := by
    simp [eventsOf, List.filterMap_map]
  have hmembers : eventsOf address
      (data.subscribeMembers.map (.matchedMember path) : List (MatchEvent J)) = [] := by
    simp [eventsOf, List.filterMap_map]
  have htrigger : eventsOf address (triggerEvent cJsonParse req path data)
      = (data.listeners.filter fun l => l.address = address ∧ wantsEvent cJsonParse req l).map
          fun l => (l, req.event cJsonParse l.needJsonPayload) := by
    rw [eventsOf, triggerEvent, List.filterMap_flatMap]
    induction data.listeners with
    | nil => rfl
    | cons l listeners ih =>
        rw [List.flatMap_cons, ih, triggerListener_eq, List.filter_cons]
        by_cases hsame : l.address = address <;> cases hwants : wantsEvent cJsonParse req l <;>
          simp [hsame]
  unfold eventsOf at *
  rw [visitNode, List.filterMap_append, List.filterMap_append, hsubscribers, hmembers,
    List.append_nil, List.append_nil, hdirect, if_neg Bool.false_ne_true, htrigger]

omit [TmqString π] in
/-- In a list of listeners without two of one address. -/
theorem filter_address {listeners : List EventListener}
    (hnodup : (listeners.map EventListener.address).Nodup) {l : EventListener}
    (hl : l ∈ listeners) (p : EventListener → Bool) :
    (listeners.filter fun m => m.address = l.address ∧ p m) = if p l then [l] else [] := by
  induction listeners with
  | nil => cases hl
  | cons first listeners ih =>
      rw [List.map_cons, List.nodup_cons] at hnodup
      obtain ⟨hfirst, hrest⟩ := hnodup
      rw [List.filter_cons]
      rcases List.mem_cons.mp hl with rfl | hl
      · have hnone : (listeners.filter fun m => m.address = l.address ∧ p m) = [] := by
          rw [List.filter_eq_nil_iff]
          intro m hm hkept
          simp only [decide_eq_true_eq] at hkept
          exact hfirst (List.mem_map.mpr ⟨m, hm, hkept.1⟩)
        rw [hnone]
        simp
      · have hne : first.address ≠ l.address := by
          intro hsame
          exact hfirst (List.mem_map.mpr ⟨l, hl, hsame.symm⟩)
        rw [ih hrest hl, if_neg (by simp [hne])]

/-- A listener of the tree gets the event of a publish once, if its filter
matches the topic and the payload can be read where it must be. -/
theorem eventsOf_publish {engine : RuleEngine A π} (h : EngineInv engine) {req : PublishReq π}
    (hdirect : req.isTunneledPub = false) (hfree : WildcardFree (tmqTopicSplit req.topic))
    {path : List Bytes} {l : EventListener}
    (hl : l ∈ (dataAt engine.topics.root path).listeners) :
    eventsOf l.address (tmqTopicsPublish cJsonParse engine.topics req).2.1
      = if filterMatches path (tmqTopicSplit req.topic) ∧ wantsEvent cJsonParse req l then
          [(l, req.event cJsonParse l.needJsonPayload)]
        else [] := by
  have hevents := matchNode_events cJsonParse req [] (tmqTopicSplit req.topic) h.topics.1
    req.retain
  have hvisit : ∀ q, eventsOf l.address (visitNode cJsonParse req q
      (dataAt engine.topics.root q))
        = if q = path then
            (if wantsEvent cJsonParse req l then [(l, req.event cJsonParse l.needJsonPayload)]
              else [])
          else [] := by
    intro q
    rw [eventsOf_visitNode cJsonParse hdirect]
    by_cases hq : q = path
    · subst hq
      rw [if_pos rfl, filter_address (h.nodup q) hl]
      split <;> rfl
    · have hnone : ((dataAt engine.topics.root q).listeners.filter fun m =>
          m.address = l.address ∧ wantsEvent cJsonParse req m) = [] := by
        rw [List.filter_eq_nil_iff]
        intro m hm hkept
        simp only [decide_eq_true_eq] at hkept
        exact hq (h.unique q path m hm l hl hkept.1)
      rw [hnone, if_neg hq]
      rfl
  unfold eventsOf at *
  simp only [tmqTopicsPublish, hevents, List.nil_append, List.filterMap_flatMap, hvisit]
  rw [flatMap_single (nodup_matchingFilters hfree) path fun _ =>
    if wantsEvent cJsonParse req l then [(l, req.event cJsonParse l.needJsonPayload)] else []]
  simp only [mem_matchingFilters hfree]
  by_cases hmatches : filterMatches path (tmqTopicSplit req.topic) = true
  · by_cases hwants : wantsEvent cJsonParse req l = true <;> simp [hmatches, hwants]
  · simp [hmatches]

omit [TmqString π] in
/-- The calls with one address are those that its listener makes. -/
theorem filter_calls {engine : RuleEngine A π} {address : Nat} {listener : RuleListener A}
    (hlistener : engine.messageListeners[address]? = some listener)
    {events : List (MatchEvent J)} {outcomes : List (Option (Nat × AdaptorCall A))}
    (houtcomes : events.mapM (triggerCall getObjectItem engine) = some outcomes) :
    ∃ calls, (eventsOf address events).mapM (fun made =>
        tmqListenerPublishEvent getObjectItem listener (.message made.2)) = some calls ∧
      (outcomes.filterMap id).filter (·.1 = address)
        = (calls.filterMap id).map fun call => (address, call) := by
  induction events generalizing outcomes with
  | nil =>
      obtain rfl := Option.some.inj houtcomes
      exact ⟨[], rfl, rfl⟩
  | cons event events ih =>
      rw [List.mapM_cons] at houtcomes
      obtain ⟨outcome, hfirst, houtcomes⟩ := Option.bind_eq_some_iff.mp houtcomes
      obtain ⟨others, hothers, houtcomes⟩ := Option.bind_eq_some_iff.mp houtcomes
      obtain rfl := Option.some.inj houtcomes
      obtain ⟨calls, hcalls, hfilter⟩ := ih hothers
      have hskip : eventsOf address (event :: events) = eventsOf address events →
          (∀ call, outcome = some call → call.1 ≠ address) →
          ∃ calls, (eventsOf address (event :: events)).mapM (fun made =>
              tmqListenerPublishEvent getObjectItem listener (.message made.2)) = some calls ∧
            ((outcome :: others).filterMap id).filter (·.1 = address)
              = (calls.filterMap id).map fun call => (address, call) := by
        intro hevents hother
        refine ⟨calls, by rw [hevents]; exact hcalls, ?_⟩
        rw [← hfilter]
        cases outcome with
        | none => rfl
        | some call => simp [hother call rfl]
      cases event with
      | publishEvent path l event =>
          obtain ⟨target, htarget, hfirst⟩ := Option.bind_eq_some_iff.mp hfirst
          obtain ⟨call, hcall, hfirst⟩ := Option.bind_eq_some_iff.mp hfirst
          obtain rfl := Option.some.inj hfirst
          by_cases hsame : l.address = address
          · subst hsame
            rw [hlistener] at htarget
            obtain rfl := Option.some.inj htarget
            refine ⟨call :: calls, ?_, ?_⟩
            · have hevents : eventsOf l.address (.publishEvent path l event :: events)
                  = (l, event) :: eventsOf l.address events := by
                simp [eventsOf]
              rw [hevents, List.mapM_cons, hcall, hcalls]
              rfl
            · cases call with
              | none => exact hfilter
              | some call => simpa using hfilter
          · apply hskip
            · simp [eventsOf, hsame]
            · intro made hmade
              cases call with
              | none => cases hmade
              | some call =>
                  obtain rfl := Option.some.inj hmade
                  exact hsame
      | clientOnMatch path subscribers =>
          obtain rfl := Option.some.inj hfirst
          exact hskip rfl (fun call hcall => by cases hcall)
      | matchedMember path memberAddr =>
          obtain rfl := Option.some.inj hfirst
          exact hskip rfl (fun call hcall => by cases hcall)

def Rule.levels (rule : Rule) : List Bytes := tmqTopicSplit (rule.sourceTopic.getD [])

/-- The adaptor's calls for a rule during a publish, by the address of the
rule's listener: the call that the rule asks for, once, if the topic matches,
the payload can be read where it must be, and the rule lets the message
through. -/
def Rule.Gets (rule : Rule) (req : PublishReq π) (address : Nat)
    (calls : List (Nat × AdaptorCall A)) : Prop :=
  let record := (TmqEvent.message (req.event cJsonParse rule.readsPayload)).record getObjectItem
  if filterMatches rule.levels (tmqTopicSplit req.topic) = true ∧
      (rule.readsPayload = true → cJsonParse req.message.message ≠ none) then
    (rule.Passes record ∧ ∃ call, rule.Calls plugins record call ∧
      calls.filter (·.1 = address) = [(address, call)]) ∨
      (rule.HoldsBack record ∧ calls.filter (·.1 = address) = [])
  else calls.filter (·.1 = address) = []

omit [TmqString π] in
theorem wantsEvent_iff (req : PublishReq π) (address : Nat) (need : Bool) :
    wantsEvent cJsonParse req ⟨address, need⟩ = true ↔
      (need = true → cJsonParse req.message.message ≠ none) := by
  rw [wantsEvent]
  cases need <;> simp [Option.isSome_iff_ne_none]

/-- In a state of the invariant, for a rule whose listener is in its place. -/
theorem EngineInv.gets {engine : RuleEngine A π} (h : EngineInv engine) {rule : Rule}
    (hmessage : rule.source = messageEvents) {listener : RuleListener A}
    (hlistener : listener.For getObjectItem plugins rule) {address : Nat}
    (hat : engine.messageListeners[address]? = some listener)
    (hl : ⟨address, rule.readsPayload⟩ ∈ (dataAt engine.topics.root rule.levels).listeners)
    {req : PublishReq π} (hdirect : req.isTunneledPub = false)
    (hfree : WildcardFree (tmqTopicSplit req.topic)) {calls : List (Nat × AdaptorCall A)}
    (hcalls : publishCalls getObjectItem cJsonParse engine req = some calls) :
    rule.Gets plugins getObjectItem cJsonParse req address calls := by
  obtain ⟨outcomes, houtcomes, rfl⟩ := Option.map_eq_some_iff.mp hcalls
  obtain ⟨made, hmade, hfilter⟩ := filter_calls getObjectItem hat houtcomes
  have hevents := eventsOf_publish cJsonParse h hdirect hfree hl
  simp only [wantsEvent_iff] at hevents
  rw [Rule.Gets]
  split
  · rename_i hgets
    rw [if_pos hgets] at hevents
    rw [hevents, List.mapM_cons, List.mapM_nil] at hmade
    have hevent : (TmqEvent.message (req.event cJsonParse rule.readsPayload)).type
        = rule.source.eventType := by
      rw [hmessage]
      rfl
    obtain ⟨hpublish, hholds⟩ := hlistener.publish getObjectItem hevent
    obtain ⟨outcome, houtcome, hmade⟩ := Option.bind_eq_some_iff.mp hmade
    obtain rfl := Option.some.inj hmade
    rw [hfilter]
    cases outcome with
    | none => exact .inr ⟨hholds.mp houtcome, rfl⟩
    | some call =>
        obtain ⟨hpasses, hcall⟩ := (hpublish call).mp houtcome
        exact .inl ⟨hpasses, call, hcall, rfl⟩
  · rename_i hnot
    rw [if_neg hnot] at hevents
    rw [hevents] at hmade
    obtain rfl := Option.some.inj hmade
    exact hfilter

/-- What is known of a rule's listener once the rule was added. -/
structure Listening (rule : Rule) (address : Nat) (engine : RuleEngine A π) : Prop where
  inv : EngineInv engine
  listener : ∃ listener : RuleListener A, listener.For getObjectItem plugins rule ∧
    engine.messageListeners[address]? = some listener
  listed : ⟨address, rule.readsPayload⟩ ∈ (dataAt engine.topics.root rule.levels).listeners

/-- Adding the rule. -/
theorem listening_addRule {rule : Rule} {text : Bytes} (htext : RuleText rule text)
    (hknown : rule.Known plugins) (hmessage : rule.source = messageEvents)
    {engine next : RuleEngine A π} (h : EngineInv engine)
    (hvalid : EngineCall.Valid plugins (.addRule text : EngineCall π))
    (hadd : tmqRuleEngineAddRule plugins engine text = some next) :
    Listening plugins getObjectItem rule engine.messageListeners.length next := by
  obtain ⟨result, hparse, htopic, hfor⟩ := htext.tmqRuleParse getObjectItem hknown
  rcases addRule_cases plugins hadd with ⟨⟨failure, hfailed, -⟩, -⟩ | ⟨result', hparse', -, rfl⟩
  · rw [hparse] at hfailed
    cases hfailed
  · obtain rfl : result = result' := by
      rw [hparse] at hparse'
      exact Except.ok.inj (Option.some.inj hparse')
    have hsource : result.source.eventType = .message := by
      have hsame : result.source = rule.source := hfor.source
      rw [hsame, hmessage]
      rfl
    have hneed : (makeEventListener result).needJsonPayload = rule.readsPayload :=
      hfor.needJsonPayload
    refine ⟨h.addListener (hvalid result hparse), ⟨makeEventListener result, hfor, ?_⟩, ?_⟩
    · rw [RuleEngine.addListener, if_pos hsource]
      simp
    · rw [RuleEngine.addListener, if_pos hsource]
      dsimp only
      rw [listeners_addListener, htopic, Rule.levels, if_pos rfl, hneed]
      exact List.mem_cons_self

theorem Listening.step {rule : Rule} {address : Nat} {engine next : RuleEngine A π}
    (h : Listening plugins getObjectItem rule address engine) {call : EngineCall π}
    (hvalid : call.Valid plugins) (hstep : call.step plugins cJsonParse engine = some next)
    (hnode : next.topics.root.valueAt rule.levels ≠ none) :
    Listening plugins getObjectItem rule address next := by
  obtain ⟨listener, hfor, hat⟩ := h.listener
  refine ⟨h.inv.step plugins cJsonParse hvalid hstep, ⟨listener, hfor, ?_⟩, ?_⟩
  · exact getElem?_messageListeners_step plugins cJsonParse hstep hat
  · exact mem_listeners_step plugins cJsonParse hstep hnode h.listed

theorem Listening.gets {rule : Rule} {address : Nat} {engine : RuleEngine A π}
    (h : Listening plugins getObjectItem rule address engine)
    (hmessage : rule.source = messageEvents) {req : PublishReq π}
    (hdirect : req.isTunneledPub = false) (hfree : WildcardFree (tmqTopicSplit req.topic))
    {calls : List (Nat × AdaptorCall A)}
    (hcalls : publishCalls getObjectItem cJsonParse engine req = some calls) :
    rule.Gets plugins getObjectItem cJsonParse req address calls := by
  obtain ⟨listener, hfor, hat⟩ := h.listener
  exact h.inv.gets plugins getObjectItem cJsonParse hmessage hfor hat h.listed hdirect hfree hcalls

/-- The node of a path is in the tree after the calls `before` and whenever one of
the calls `after` has been made: none of these prunes it. -/
def NodeStays (path : List Bytes) (before after : List (EngineCall π)) : Prop :=
  ∀ earlier, earlier <+: after → ∀ engine : RuleEngine A π,
    Run.runs (EngineCall.step plugins cJsonParse) tmqRuleEngineInit (before ++ earlier)
      = some engine → engine.topics.root.valueAt path ≠ none

/-- A listener in its place stays there while its node does. -/
theorem runs_listening_of_stays {rule : Rule} {address : Nat} {before after : List (EngineCall π)}
    (hvalid : ∀ call ∈ after, call.Valid plugins)
    (hstays : NodeStays plugins cJsonParse rule.levels before after)
    {engine : RuleEngine A π}
    (hstart : ∀ start : RuleEngine A π, Run.runs (EngineCall.step plugins cJsonParse)
      tmqRuleEngineInit before = some start → Listening plugins getObjectItem rule address start)
    (hrun : Run.runs (EngineCall.step plugins cJsonParse) tmqRuleEngineInit (before ++ after)
      = some engine) : Listening plugins getObjectItem rule address engine := by
  induction after using List.reverseRecOn generalizing engine with
  | nil =>
      rw [List.append_nil] at hrun
      exact hstart engine hrun
  | append_singleton after call ih =>
      rw [List.forall_mem_append, List.forall_mem_singleton] at hvalid
      have hnode := hstays (after ++ [call]) List.prefix_rfl engine hrun
      rw [← List.append_assoc, Run.runs_append] at hrun
      obtain ⟨middle, hmiddle, hcall⟩ := Option.bind_eq_some_iff.mp hrun
      obtain ⟨next, hnext, hlast⟩ := Option.bind_eq_some_iff.mp hcall
      obtain rfl := Option.some.inj hlast
      have hbefore := ih hvalid.1
        (fun earlier hearlier => hstays earlier (hearlier.trans (List.prefix_append _ _))) hmiddle
      exact hbefore.step plugins getObjectItem cJsonParse hvalid.2 hnext hnode

/-- A run in which the rule is added and its node stays. -/
theorem runs_listening {rule : Rule} {text : Bytes} (htext : RuleText rule text)
    (hknown : rule.Known plugins) (hmessage : rule.source = messageEvents)
    {before after : List (EngineCall π)}
    (hvalid : ∀ call ∈ before ++ .addRule text :: after, call.Valid plugins)
    (hstays : NodeStays plugins cJsonParse rule.levels (before ++ [.addRule text]) after)
    {engine : RuleEngine A π}
    (hrun : Run.runs (EngineCall.step plugins cJsonParse) tmqRuleEngineInit
      (before ++ .addRule text :: after) = some engine) :
    ∃ middle, Run.runs (EngineCall.step plugins cJsonParse) tmqRuleEngineInit before = some middle ∧
      Listening plugins getObjectItem rule middle.messageListeners.length engine := by
  rw [List.forall_mem_append, List.forall_mem_cons] at hvalid
  obtain ⟨hbefore, hthis, hafter⟩ := hvalid
  obtain ⟨middle, hmiddle, -⟩ := Option.bind_eq_some_iff.mp ((Run.runs_append _ _ _ _).symm.trans hrun)
  have hinv : EngineInv middle := by
    have hadmissible := @Run.admissible_of_forall _ _ (fun _ call => EngineCall.Valid plugins call)
      (EngineCall.step plugins cJsonParse) _ (fun call hcall _ => hbefore call hcall)
      tmqRuleEngineInit
    refine Run.runs_preserves ?_ engineInv_init hadmissible hmiddle
    intro state call next hstate hcall hstep
    exact hstate.step plugins cJsonParse hcall hstep
  refine ⟨middle, hmiddle, ?_⟩
  rw [← List.singleton_append, ← List.append_assoc] at hrun
  refine runs_listening_of_stays plugins getObjectItem cJsonParse hafter hstays ?_ hrun
  intro start hstart
  rw [Run.runs_append, hmiddle, Option.bind_some] at hstart
  obtain ⟨added, hadded, hlast⟩ := Option.bind_eq_some_iff.mp hstart
  obtain rfl := Option.some.inj hlast
  exact listening_addRule plugins getObjectItem htext hknown hmessage hinv hthis hadded

/-- A rule for messages that was added in a run and whose node was not pruned
since gets every later publish that its topic matches, once, and does with it
what it says. -/
theorem publish_written_rule (rule : Rule) (text : Bytes) (htext : RuleText rule text)
    (hknown : rule.Known plugins) (hmessage : rule.source = messageEvents)
    (before after : List (EngineCall π))
    (hvalid : ∀ call ∈ before ++ .addRule text :: after, call.Valid plugins)
    (hstays : NodeStays plugins cJsonParse rule.levels (before ++ [.addRule text]) after)
    (engine : RuleEngine A π)
    (hrun : Run.runs (EngineCall.step plugins cJsonParse) tmqRuleEngineInit
      (before ++ .addRule text :: after) = some engine) :
    ∃ middle, Run.runs (EngineCall.step plugins cJsonParse) tmqRuleEngineInit before = some middle ∧
      ∀ req : PublishReq π, req.isTunneledPub = false → WildcardFree (tmqTopicSplit req.topic) →
        ∀ calls, publishCalls getObjectItem cJsonParse engine req = some calls →
          rule.Gets plugins getObjectItem cJsonParse req middle.messageListeners.length calls := by
  obtain ⟨middle, hmiddle, hlistening⟩ :=
    runs_listening plugins getObjectItem cJsonParse htext hknown hmessage hvalid hstays hrun
  refine ⟨middle, hmiddle, ?_⟩
  intro req hdirect hfree calls hcalls
  exact hlistening.gets plugins getObjectItem cJsonParse hmessage hdirect hfree hcalls

theorem qosTopic_valid : ValidFilter (tmqTopicSplit [116]) := by decide

def qosTopic : ValidTopicFilter := ⟨[116], qosTopic_valid⟩

def subscribesQosTopic (clientId : Bytes) (info : SubscribeInfo) : EngineCall Bytes :=
  .topics (.addSubscription qosTopic clientId info) rfl

def leavesQosTopic (clientId : Bytes) : EngineCall Bytes :=
  .topics (.removeSubscription qosTopic clientId) rfl

/-- Two clients subscribe to it, and one of them leaves. -/
def oneLeaves : List (EngineCall Bytes) :=
  [subscribesQosTopic [97] ⟨0, 1⟩, subscribesQosTopic [98] ⟨1, 0⟩, leavesQosTopic [97]]

/-- The node of the rule's topic stays. -/
theorem nodeStays_oneLeaves :
    NodeStays qosPlugins (fun (_ : Bytes) => (none : Option Unit)) qosRule.levels
      ([] ++ [.addRule qosRuleText]) oneLeaves := by
  have hall : ∀ n < 4, ((Run.runs
      (EngineCall.step qosPlugins fun (_ : Bytes) => (none : Option Unit)) tmqRuleEngineInit
      ([] ++ [.addRule qosRuleText] ++ oneLeaves.take n)).all fun engine =>
        (engine.topics.root.valueAt qosRule.levels).isSome) = true := by
    decide +kernel
  intro earlier hearlier engine hrun
  have hnode := hall earlier.length (Nat.lt_succ_of_le hearlier.length_le)
  rw [← List.prefix_iff_eq_take.mp hearlier, hrun] at hnode
  exact Option.isSome_iff_ne_none.mp hnode

/-- The rule gets a publish to its topic after that. -/
theorem publish_written_rule_qos :
    ∃ engine calls, Run.runs (EngineCall.step qosPlugins fun (_ : Bytes) => (none : Option Unit))
        tmqRuleEngineInit ([] ++ .addRule qosRuleText :: oneLeaves) = some engine ∧
      publishCalls (fun _ _ => none) (fun (_ : Bytes) => (none : Option Unit)) engine
        ⟨[116], ⟨[1], 1⟩, false, false, [117], [99]⟩ = some calls ∧
      qosRule.Gets qosPlugins (fun _ _ => none) (fun (_ : Bytes) => (none : Option Unit))
        ⟨[116], ⟨[1], 1⟩, false, false, [117], [99]⟩ 0 calls := by
  have hsome : ((Run.runs (EngineCall.step qosPlugins fun (_ : Bytes) => (none : Option Unit))
      tmqRuleEngineInit ([] ++ .addRule qosRuleText :: oneLeaves)).bind fun engine =>
        publishCalls (fun _ _ => none) (fun (_ : Bytes) => (none : Option Unit)) engine
          ⟨[116], ⟨[1], 1⟩, false, false, [117], [99]⟩).isSome = true := by
    decide +kernel
  obtain ⟨calls, hcalls⟩ := Option.isSome_iff_exists.mp hsome
  obtain ⟨engine, hrun, hcalls⟩ := Option.bind_eq_some_iff.mp hcalls
  have hrule : EngineCall.Valid qosPlugins (.addRule qosRuleText : EngineCall Bytes) := by
    intro result hparse _
    obtain ⟨result', hparse', htopic, -⟩ :=
      qosRule_text.tmqRuleParse (fun (_ : Unit) _ => none) qosRule_known
    obtain rfl : result' = result := by
      rw [hparse'] at hparse
      exact Except.ok.inj (Option.some.inj hparse)
    rw [htopic]
    decide
  have hvalid : ∀ call ∈ [] ++ (.addRule qosRuleText : EngineCall Bytes) :: oneLeaves,
      call.Valid qosPlugins :=
    List.forall_mem_cons.mpr ⟨hrule, by
      simp [oneLeaves, subscribesQosTopic, leavesQosTopic, EngineCall.Valid]⟩
  obtain ⟨middle, hmiddle, hgets⟩ := publish_written_rule qosPlugins (fun _ _ => none)
    (fun (_ : Bytes) => (none : Option Unit)) qosRule qosRuleText qosRule_text qosRule_known rfl
    [] oneLeaves hvalid nodeStays_oneLeaves engine hrun
  obtain rfl := Option.some.inj hmiddle
  exact ⟨engine, calls, hrun, hcalls, hgets _ rfl (by decide) calls hcalls⟩

end TinyMqtt
