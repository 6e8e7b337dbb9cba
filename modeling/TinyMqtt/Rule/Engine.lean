import TinyMqtt.Lib.FiniteMap
import TinyMqtt.Rule.Select

/-!
The rule engine (`rule_engine/mqtt_rule_engine.c`). A listener of messages is
kept in the topic tree under its address, which is its number among the
listeners of messages. What an adaptor does with a call is left out: a step
returns the calls.

The engine frees the parser's report after every rule and keeps the pointer to
it. A rule that is accepted after one that was not frees it a second time, and
then there is no result.
-/

namespace TinyMqtt

open RuleParser (RuleFailure tmqRuleParse)

/-- `tmq_event_listener_t`, with the source whose descriptions its expressions
point to. -/
structure RuleListener (A : Type) where
  mappings : List SchemaMappingItem
  filter : Option FilterExpr
  needJsonPayload : Bool
  adaptor : A
  source : RegisteredSource

/-- `make_event_listener` from the parser's result on. -/
def makeEventListener {A : Type} (result : RuleParseResult A) : RuleListener A :=
  { mappings := result.mappings, filter := result.filter,
    needJsonPayload := result.needJsonPayload, adaptor := result.adaptor,
    source := result.source }

/-- A call of an adaptor's `handle_event`. -/
structure AdaptorCall (A : Type) where
  adaptor : A
  parameters : Bytes → Option FilterValue
  payloadValues : List (Bytes × FilterValue)

/-- The member `boolean` of a value, which is the first byte of the union: the
low byte of an integer or of a pointer. It is a truth value if it is 0 or 1.
That of a string's address is not known, and JSON and a null leave the union
unwritten. -/
def FilterValue.boolean : FilterValue → Option Bool
  | .bool b => some b
  | .int n => if n % 256 = 1 then some true else if n % 256 = 0 then some false else none
  | .nullStr => some false
  | .str _ | .json | .null => none

section Publish

variable {A J : Type} (getObjectItem : J → Bytes → Option CJsonItem)

/-- The test of a listener's filter. -/
def RuleListener.passes (listener : RuleListener A) (event : TmqEvent J) : Option Bool :=
  match listener.filter with
  | none => some true
  | some filter => (filter.evaluate getObjectItem listener.source event).bind FilterValue.boolean

def onMapping (source : RegisteredSource) (event : TmqEvent J)
    (values : (Bytes → Option FilterValue) × List (Bytes × FilterValue))
    (select : SchemaMappingItem) :
    Option ((Bytes → Option FilterValue) × List (Bytes × FilterValue)) := do
  let value ← select.valueExpr.evaluate getObjectItem source event
  if select.mapToParameter then
    some (FiniteMap.set values.1 select.mappingName value, values.2)
  else some (values.1, values.2 ++ [(select.mappingName, value)])

/-- `tmq_listener_publish_event` up to the adaptor's call, which is made if the
filter lets the event through. -/
def tmqListenerPublishEvent (listener : RuleListener A) (event : TmqEvent J) :
    Option (Option (AdaptorCall A)) := do
  if ← listener.passes getObjectItem event then
    let (parameters, payloadValues) ←
      listener.mappings.foldlM (onMapping getObjectItem listener.source event)
        (fun _ => none, [])
    return some ⟨listener.adaptor, parameters, payloadValues⟩
  else return none

def publishTo (listeners : List (RuleListener A)) (event : TmqEvent J) :
    Option (List (AdaptorCall A)) :=
  (listeners.mapM fun listener => tmqListenerPublishEvent getObjectItem listener event).map
    (·.filterMap id)

end Publish

/-- `tmq_rule_engine_t` with the topic tree it points to. -/
structure RuleEngine (A π : Type) where
  listeners : EventType → List (RuleListener A)
  topics : Topics π
  messageListeners : List (RuleListener A)
  errorInfoFreed : Bool

def tmqRuleEngineInit {A π : Type} : RuleEngine A π :=
  { listeners := fun _ => [], topics := tmqTopicsInit, messageListeners := [],
    errorInfoFreed := false }

/-- A call that leaves a report did nothing that it must not. -/
def RuleParser.RuleFailure.isReport : RuleFailure → Bool
  | .report _ _ => true
  | .filter (.report _ _) => true
  | _ => false

namespace RuleEngine

variable {A π : Type}

/-- The part of `tmq_rule_engine_add_rule` for a rule that was accepted. -/
def addListener (engine : RuleEngine A π) (result : RuleParseResult A) : RuleEngine A π :=
  let listener := makeEventListener result
  if result.source.eventType = .message then
    { engine with
      topics := tmqTopicsAddListener engine.topics (result.sourceTopic.getD [])
        ⟨engine.messageListeners.length, listener.needJsonPayload⟩
      messageListeners := engine.messageListeners ++ [listener] }
  else
    { engine with
      listeners := fun type =>
        if type = result.source.eventType then listener :: engine.listeners type
        else engine.listeners type }

end RuleEngine

section Engine

variable {A π J : Type} [TmqString π] (plugins : PluginsInfo A)
  (getObjectItem : J → Bytes → Option CJsonItem) (cJsonParse : π → Option J)

def tmqRuleEngineAddRule (engine : RuleEngine A π) (rule : Bytes) : Option (RuleEngine A π) :=
  match tmqRuleParse plugins rule with
  | none => none
  | some (.error failure) =>
      if failure.isReport then some { engine with errorInfoFreed := true } else none
  | some (.ok result) => if engine.errorInfoFreed then none else some (engine.addListener result)

/-- `tmq_rule_engine_publish_event`, which leaves messages to the topic tree. -/
def tmqRuleEnginePublishEvent (engine : RuleEngine A π) (event : TmqEvent J) :
    Option (List (AdaptorCall A)) :=
  if event.type ≠ .message then publishTo getObjectItem (engine.listeners event.type) event
  else some []

/-- `trigger_event` at one listener of the tree. An address that no listener
has is no pointer. -/
def triggerCall (engine : RuleEngine A π) : MatchEvent J → Option (Option (Nat × AdaptorCall A))
  | .publishEvent _ listener event => do
      let target ← engine.messageListeners[listener.address]?
      let call ← tmqListenerPublishEvent getObjectItem target (.message event)
      return call.map (listener.address, ·)
  | _ => some none

/-- The adaptors' calls during a publish, with the addresses of the listeners
that make them. -/
def publishCalls (engine : RuleEngine A π) (req : PublishReq π) :
    Option (List (Nat × AdaptorCall A)) :=
  ((tmqTopicsPublish cJsonParse engine.topics req).2.1.mapM
    (triggerCall getObjectItem engine)).map (·.filterMap id)

end Engine

end TinyMqtt
