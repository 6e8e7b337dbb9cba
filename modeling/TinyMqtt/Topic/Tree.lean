import Mathlib.Data.List.AList
import TinyMqtt.Lib.Trie
import TinyMqtt.Session.Types
import TinyMqtt.Topic.Levels

/-!
The topic tree (`mqtt/mqtt_topic.c`). A node is reached from the root by the
levels of its filter, and the pointer to a node is that list of levels. A hash
table is an association list; the order in which the broker walks through a
table is not specified, and nothing below depends on it. A step that follows
the null pointer of an absent subscribers table has no result.

`cJSON_Parse` is a library function, and a parameter here.
-/

namespace TinyMqtt

/-- `subscribe_info_t`. Sessions are named by their address. -/
structure SubscribeInfo where
  session : Nat
  qos : UInt8
  deriving DecidableEq, Repr

/-- `subscribe_map_t`, by client identifier. -/
abbrev SubscribeMap := AList fun _ : Bytes => SubscribeInfo

/-- `tmq_event_listener_t`, named by its address. -/
structure EventListener where
  address : Nat
  needJsonPayload : Bool
  deriving DecidableEq, Repr

structure RetainMessage (π : Type) where
  retainMsg : MqttMessage π
  retainTopic : Bytes
  deriving DecidableEq, Repr

/-- A `topic_tree_node_t` without its place in the tree. -/
structure TopicData (π : Type) where
  subscribers : Option SubscribeMap
  listeners : List EventListener
  subscribeMembers : List Bytes
  retainMessage : Option (RetainMessage π)

/-- `topic_tree_node_new` sets every pointer to null. -/
def TopicData.new {π : Type} : TopicData π := ⟨none, [], [], none⟩

abbrev TopicNode (π : Type) := Trie Bytes (TopicData π)

structure Topics (π : Type) where
  root : TopicNode π
  matchedMembers : Finset Bytes

variable {π : Type} [TmqString π]

def tmqTopicsInit : Topics π := ⟨.leaf .new, ∅⟩

/-- `add_topic_or_find` that adds: the tree with the nodes of the filter. -/
def addTopic (root : TopicNode π) (topicFilter : Bytes) : TopicNode π :=
  root.grow .new (tmqTopicSplit topicFilter)

/-- `add_topic_or_find` that only finds. -/
def findTopic (root : TopicNode π) (topicFilter : Bytes) : Option (TopicNode π) :=
  root.find? (tmqTopicSplit topicFilter)

mutual

def getAllRetain : TopicNode π → List (RetainMessage π)
  | .node data children => data.retainMessage.toList ++ getAllRetainOf children

def getAllRetainOf : Forest Bytes (TopicData π) → List (RetainMessage π)
  | .nil => []
  | .cons nextLevel next rest =>
      (if isWildcard nextLevel then [] else getAllRetain next) ++ getAllRetainOf rest

end

/-- `find_retain_messages` from a node on, for the levels of the subscription
path that are left. -/
def findRetainMessages : List Bytes → TopicNode π → List (RetainMessage π)
  | [], cur => cur.value.retainMessage.toList
  | level :: path, cur =>
      if level = singleWildcard then
        cur.children.collect fun nextLevel next =>
          if isWildcard nextLevel then [] else findRetainMessages path next
      else if level = multiWildcard then getAllRetain cur
      else match cur.children.find? level with
        | none => []
        | some next => findRetainMessages path next

/-- The loop of `tmq_topics_add_subscription` that follows the subscription
path up to its first wildcard: the node it ends at and the levels left. -/
def skipLiteralLevels : List Bytes → TopicNode π → TopicNode π × List Bytes
  | [], cur => (cur, [])
  | level :: path, cur =>
      if isWildcard level then (cur, level :: path)
      else match cur.children.find? level with
        | none => (cur, level :: path)
        | some next => skipLiteralLevels path next

/-- The search for retained messages in `tmq_topics_add_subscription`. -/
def subscriptionRetain (root : TopicNode π) (levels : List Bytes) : List (RetainMessage π) :=
  let (node, left) := skipLiteralLevels levels root
  match left, node.value.retainMessage with
  | [], some retained => [retained]
  | _, _ => findRetainMessages left node

/-- What the subscribers table of a node becomes when a client subscribes. -/
def TopicData.subscribe (clientId : Bytes) (info : SubscribeInfo) (data : TopicData π) :
    TopicData π :=
  { data with subscribers := some ((data.subscribers.getD ∅).insert (cstr clientId) info) }

/-- `tmq_topics_add_subscription`: the retained messages it returns and the
tree it leaves. -/
def tmqTopicsAddSubscription (topics : Topics π) (topicFilter clientId : Bytes)
    (info : SubscribeInfo) : List (RetainMessage π) × Topics π :=
  if (cstr topicFilter).length < 1 then ([], topics)
  else
    let levels := tmqTopicSplit topicFilter
    let root := (addTopic topics.root topicFilter).modifyValue
      (TopicData.subscribe clientId info) levels
    (subscriptionRetain root levels, { topics with root := root })

def tmqTopicsAddListener (topics : Topics π) (topicFilter : Bytes) (listener : EventListener) :
    Topics π :=
  { topics with
    root := (addTopic topics.root topicFilter).modifyValue
      (fun data => { data with listeners := listener :: data.listeners })
      (tmqTopicSplit topicFilter) }

def tmqTopicsAddRoute (topics : Topics π) (topicFilter memberAddr : Bytes) : Topics π :=
  { topics with
    root := (addTopic topics.root topicFilter).modifyValue
      (fun data => { data with subscribeMembers := tmqStrNew memberAddr :: data.subscribeMembers })
      (tmqTopicSplit topicFilter) }

/-- The test of `try_remove_topic`. -/
def removable (node : TopicNode π) : Bool :=
  node.value.subscribers.isNone && node.children.isEmpty && node.value.retainMessage.isNone

/-- `try_remove_topic` at the node whose path, read from the node up to the
root, is given. -/
def tryRemoveTopic (root : TopicNode π) : List Bytes → TopicNode π
  | [] => root
  | level :: parent =>
      match root.find? (level :: parent).reverse with
      | none => root
      | some node =>
          if removable node then tryRemoveTopic (root.eraseChild parent.reverse level) parent
          else root

/-- The subscribers table without a client; an empty table is freed. -/
def eraseSubscriber (subscribers : SubscribeMap) (clientId : Bytes) : Option SubscribeMap :=
  let subscribers := subscribers.erase (cstr clientId)
  if subscribers.entries.length = 0 then none else some subscribers

def tmqTopicsRemoveSubscription (topics : Topics π) (topicFilter clientId : Bytes) :
    Option (Topics π) :=
  let levels := tmqTopicSplit topicFilter
  match findTopic topics.root topicFilter with
  | none => some topics
  | some node => do
      let subscribers ← node.value.subscribers
      let root := topics.root.modifyValue
        (fun data => { data with subscribers := eraseSubscriber subscribers clientId }) levels
      some { topics with root := tryRemoveTopic root levels.reverse }

structure PublishReq (π : Type) where
  topic : Bytes
  message : MqttMessage π
  retain : Bool
  isTunneledPub : Bool
  publisherUsername : Bytes
  publisherClientId : Bytes

structure PubEventData (J : Type) where
  clientId : Bytes
  username : Bytes
  qos : Nat
  retain : Bool
  payloadAsJson : Option J

/-- What a publish does at the nodes it visits, in order. Nodes are named by
their paths. -/
inductive MatchEvent (J : Type) where
  | publishEvent (path : List Bytes) (listener : EventListener) (event : PubEventData J)
  | clientOnMatch (path : List Bytes) (subscribers : SubscribeMap)
  | matchedMember (path : List Bytes) (memberAddr : Bytes)

section Publish

variable {J : Type} (cJsonParse : π → Option J)

/-- `trigger_event` for one listener. -/
def triggerListener (req : PublishReq π) (path : List Bytes) (listener : EventListener) :
    List (MatchEvent J) :=
  let event : PubEventData J :=
    { clientId := req.publisherClientId, username := req.publisherUsername,
      qos := req.message.qos, retain := req.retain, payloadAsJson := none }
  if listener.needJsonPayload then
    match cJsonParse req.message.message with
    | none => []
    | some json => [.publishEvent path listener { event with payloadAsJson := some json }]
  else [.publishEvent path listener event]

def triggerEvent (req : PublishReq π) (path : List Bytes) (data : TopicData π) :
    List (MatchEvent J) :=
  data.listeners.flatMap (triggerListener cJsonParse req path)

/-- What `match` does at a node that the topic matches. -/
def visitNode (req : PublishReq π) (path : List Bytes) (data : TopicData π) :
    List (MatchEvent J) :=
  (if req.isTunneledPub then [] else triggerEvent cJsonParse req path data) ++
    (data.subscribers.toList.map (.clientOnMatch path)) ++
    data.subscribeMembers.map (.matchedMember path)

/-- The retained message that `match` saves under a topic. -/
def retainOf (req : PublishReq π) : RetainMessage π :=
  ⟨⟨tmqStrNew req.message.message, req.message.qos⟩, tmqStrNew req.topic⟩

/-- The child in which `match` goes on for a level; a retained publish creates
the missing one. -/
def nextOrNew (children : Forest Bytes (TopicData π)) (level : Bytes) (retain : Bool) :
    Option (TopicNode π) :=
  match children.find? level with
  | none => if retain then some (.leaf .new) else none
  | some next => some next

/-- The children and the events after going on in one of them, if there is one. -/
def descend {α : Type} (children : Forest Bytes (TopicData π)) (level : Bytes)
    (next? : Option (TopicNode π)) (go : TopicNode π → TopicNode π × List α) :
    Forest Bytes (TopicData π) × List α :=
  match next? with
  | none => (children, [])
  | some next => (children.put level (go next).1, (go next).2)

/-- `match` at the node `path` for the levels that are left. -/
def matchNode (req : PublishReq π) (path : List Bytes) :
    List Bytes → TopicNode π → Bool → Bool → TopicNode π × List (MatchEvent J)
  | [], node, _, retain =>
      let saved := if retain then { node.value with retainMessage := some (retainOf req) }
        else node.value
      -- `#` includes the parent
      let parent := match node.children.find? multiWildcard with
        | none => []
        | some next => visitNode cJsonParse req (path ++ [multiWildcard]) next.value
      (.node saved node.children, visitNode cJsonParse req path node.value ++ parent)
  | level :: levels, node, isMultiWildcard, retain =>
      if isMultiWildcard then (node, visitNode cJsonParse req path node.value)
      else
        let literal := descend node.children level (nextOrNew node.children level retain)
          fun next => matchNode req (path ++ [level]) levels next false retain
        let single := descend literal.1 singleWildcard (literal.1.find? singleWildcard)
          fun next => matchNode req (path ++ [singleWildcard]) levels next false false
        let multi := descend single.1 multiWildcard (single.1.find? multiWildcard)
          fun next => matchNode req (path ++ [multiWildcard]) levels next true false
        (.node node.value multi.1, literal.2 ++ single.2 ++ multi.2)

def membersOf (events : List (MatchEvent J)) : Finset Bytes :=
  (events.filterMap fun
    | .matchedMember _ memberAddr => some memberAddr
    | _ => none).toFinset

/-- `tmq_topics_publish`: the tree it leaves, what happened at the matched
nodes, and the set handed to `route_on_match` if that is called. -/
def tmqTopicsPublish (topics : Topics π) (req : PublishReq π) :
    Topics π × List (MatchEvent J) × Option (Finset Bytes) :=
  let (root, events) := matchNode cJsonParse req [] (tmqTopicSplit req.topic) topics.root false
    req.retain
  let matchedMembers := topics.matchedMembers ∪ membersOf events
  let routes := if matchedMembers.Nonempty ∧ ¬ req.isTunneledPub then some matchedMembers else none
  ({ root := root, matchedMembers := ∅ }, events, routes)

end Publish

end TinyMqtt
