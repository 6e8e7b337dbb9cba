import TinyMqtt.Lib.Run
import TinyMqtt.Topic.Tree

/-!
A node of a cluster (`cluster/mqtt_cluster.c`) with its topic tree. Requests
that arrive from the members and from the clients are posted to the executor of
the logic thread, which handles them one by one; here any of the posted tasks
may be handled next, except that the tasks of one connection keep their order.
What the other brokers send is not restricted.

A table that the broker walks through is walked in an order that the hash
function decides; the order is part of the input. A table that is only looked
up is a function. Nodes of the topic tree are named by their paths. A write
through a pointer to a freed node has no result, and neither has a read past
the end of a string.
-/

namespace TinyMqtt

/-! ### Members -/

/-- `tmq_socket_addr_t` of an IPv4 peer. -/
structure SocketAddr where
  sinAddr : UInt8 × UInt8 × UInt8 × UInt8
  sinPort : UInt16
  deriving DecidableEq, Repr

/-- `tmq_addr_to_string`: `xxx.xxx.xxx.xxx:ppppp`. -/
def tmqAddrToString (addr : SocketAddr) : Bytes :=
  decimal addr.sinAddr.1.toNat ++ 46 :: decimal addr.sinAddr.2.1.toNat ++
    46 :: decimal addr.sinAddr.2.2.1.toNat ++ 46 :: decimal addr.sinAddr.2.2.2.toNat ++
    58 :: decimal addr.sinPort.toNat

/-- A connection to a member, named by its address. -/
structure MemberConn where
  address : Nat
  peerAddr : SocketAddr
  deriving DecidableEq, Repr

def tmqTcpConnId (conn : MemberConn) : Bytes := tmqAddrToString conn.peerAddr

abbrev MemberMap := AList fun _ : Bytes => MemberConn

/-! ### The route table -/

/-- `route_table_item_t` without its link. The node it points to is absent once
that node is freed. -/
structure RouteTableItem where
  posInTopicTree : Option (List Bytes)
  topicFilterName : Bytes
  deriving DecidableEq, Repr

/-- `route_table_t`: the items of a member, the last one added first. -/
abbrev RouteTable := Bytes → Option (List RouteTableItem)

def localRow : Bytes := [108, 111, 99, 97, 108]

/-- `route_table_add_item`. The head of a row is asked for its node, whose link
back into the table has to move. -/
def routeTableAddItem (table : RouteTable) (memberAddr topicFilter : Bytes)
    (topicTreeNode : List Bytes) : Option RouteTable :=
  let item : RouteTableItem := ⟨some topicTreeNode, cstr topicFilter⟩
  let row := cstr memberAddr
  match table row with
  | none => some (Function.update table row (some [item]))
  | some [] => some (Function.update table row (some [item]))
  | some (head :: items) =>
      if head.posInTopicTree = none then none
      else some (Function.update table row (some (item :: head :: items)))

/-- What is left of the pointers of an item when nodes of the tree are freed. -/
def RouteTableItem.release {π : Type} (root : TopicNode π) (item : RouteTableItem) :
    RouteTableItem :=
  { item with
    posInTopicTree := item.posInTopicTree.filter fun path => (root.find? path).isSome }

/-! ### Messages to the members -/

/-- A mail of `message_send_box`. -/
inductive ClusterMessage (π : Type) where
  /-- `cluster_route_sync_msg`; without a filter its string is the null pointer -/
  | routeSync (conn : MemberConn) (topicFilters : Option Bytes)
  /-- `cluster_publish_msg` -/
  | tunPublish (conn : MemberConn) (topic : Bytes) (message : MqttMessage π) (retain : Bool)
  deriving DecidableEq, Repr

def syncMsgAddTopic (topicFilters : Option Bytes) (topicFilter : Bytes) : Option Bytes :=
  match topicFilters with
  | none => some (tmqStrNew topicFilter ++ [0])
  | some filters => some (filters ++ cstr topicFilter ++ [0])

/-- The loop of `handle_cluster_route_operation` over the filters of a message,
with the bytes of the current filter read so far. It ends at an empty filter;
a message without one is read past its end. -/
def routeFilters (filter : Bytes) : Bytes → Option (List Bytes)
  | [] => none
  | c :: rest =>
      if c ≠ 0 then routeFilters (filter ++ [c]) rest
      else if filter = [] then some []
      else (routeFilters [] rest).map (filter :: ·)

/-! ### The node -/

/-- Where a publish request comes from. No function reads it. -/
inductive PublishOrigin where
  | client | tunnel
  deriving DecidableEq, Repr

/-- The tasks that wait in the executor. A route operation holds the address of
its member, and is listed with the connection it came in on. -/
inductive ClusterTask (π : Type) where
  /-- `handle_cluster_member_operation` with `MEMBER_ADD` -/
  | memberOperation (conn : MemberConn)
  /-- `handle_cluster_route_operation` with `ROUTE_ADD` -/
  | routeOperation (conn : MemberConn) (memberAddr topicFilters : Bytes)
  /-- `handle_publish_req` -/
  | publishReq (origin : PublishOrigin) (req : PublishReq π)

def ClusterTask.conn? {π : Type} : ClusterTask π → Option MemberConn
  | .memberOperation conn => some conn
  | .routeOperation conn _ _ => some conn
  | .publishReq _ _ => none

/-- `tmq_cluster_t` with the broker's topic tree. The send box keeps every mail
that was ever pushed. -/
structure ClusterNode (π : Type) where
  topics : Topics π
  routeTable : RouteTable
  members : MemberMap
  messageSendBox : List (ClusterMessage π)
  tasks : List (ClusterTask π)
  /-- the connections opened so far -/
  conns : List MemberConn

namespace ClusterNode

variable {π : Type}

/-- `tmq_cluster_init`. -/
def init : ClusterNode π where
  topics := tmqTopicsInit
  routeTable := fun _ => none
  members := ∅
  messageSendBox := []
  tasks := []
  conns := []

def post (node : ClusterNode π) (task : ClusterTask π) : ClusterNode π :=
  { node with tasks := node.tasks ++ [task] }

def push (node : ClusterNode π) (messages : List (ClusterMessage π)) : ClusterNode π :=
  { node with messageSendBox := node.messageSendBox ++ messages }

/-- The filters in the row of the broker's own clients. -/
def localFilters (node : ClusterNode π) : List Bytes :=
  ((node.routeTable localRow).getD []).map (·.topicFilterName)

/-! ### Handlers of the IO thread -/

def newConnHandler (node : ClusterNode π) (conn : MemberConn) : ClusterNode π :=
  { node with conns := conn :: node.conns }.post (.memberOperation conn)

/-- `add_route_message_handler`. Only an open connection delivers messages. -/
def addRouteMessageHandler (node : ClusterNode π) (conn : MemberConn) (topicFilters : Bytes) :
    Option (ClusterNode π) :=
  if conn ∈ node.conns then
    some (node.post (.routeOperation conn (tmqStrNew (tmqTcpConnId conn)) topicFilters))
  else none

/-- `mqtt_publish` of a request that the access control admits. -/
def mqttPublish (node : ClusterNode π) (origin : PublishOrigin) (topic : Bytes)
    (message : MqttMessage π) (retain : Bool) (username clientId : Bytes)
    (isTunneledPub : Bool) : ClusterNode π :=
  node.post (.publishReq origin
    { topic := topic, message := message, retain := retain, isTunneledPub := isTunneledPub,
      publisherUsername := tmqStrNew username, publisherClientId := tmqStrNew clientId })

/-- `receive_tunnel_publish_handler`. The null strings it passes on are copied
to empty ones. -/
def receiveTunnelPublishHandler (node : ClusterNode π) (pkt : PublishPkt π) : ClusterNode π :=
  node.mqttPublish .tunnel pkt.topic ⟨pkt.payload, publishQos pkt.flags⟩
    (publishRetain pkt.flags = 1) [] [] true

/-! ### Handlers of the logic thread -/

def handleClusterMemberOperation (node : ClusterNode π) (conn : MemberConn) : ClusterNode π :=
  let node := { node with members := node.members.insert (cstr (tmqTcpConnId conn)) conn }
  match node.routeTable localRow with
  | none => node
  | some items =>
      node.push [.routeSync conn (items.foldl (fun topicFilters item =>
        syncMsgAddTopic topicFilters item.topicFilterName) none)]

def tmqClusterAddRoute (node : ClusterNode π) (topicFilter : Bytes) (topicNode : List Bytes)
    (walk : List MemberConn) : Option (ClusterNode π) := do
  let routeTable ← routeTableAddItem node.routeTable localRow topicFilter topicNode
  if walk.Perm (node.members.entries.map (·.2)) then
    some ({ node with routeTable := routeTable }.push
      (walk.map fun conn => .routeSync conn (some (tmqStrNew topicFilter))))
  else none

/-- The `topic_exist` that `tmq_topics_add_subscription` returns. -/
def topicExist (topics : Topics π) (topicFilter : Bytes) : Bool :=
  match findTopic topics.root topicFilter with
  | none => false
  | some node => node.value.subscribers.isSome

variable [TmqString π]

/-- The rounds of `handle_cluster_route_operation`. The tree gets the string of
all filters each time, which is the first filter. -/
def addRoutes (node : ClusterNode π) (memberAddr topicFilters : Bytes) :
    List Bytes → Option (ClusterNode π)
  | [] => some node
  | topicFilter :: rest => do
      let topics := tmqTopicsAddRoute node.topics topicFilters memberAddr
      let routeTable ← routeTableAddItem node.routeTable memberAddr topicFilter
        (tmqTopicSplit topicFilters)
      addRoutes { node with topics := topics, routeTable := routeTable } memberAddr topicFilters
        rest

/-- `handle_cluster_route_operation`. A string ends with a zero byte that is not
part of it. -/
def handleClusterRouteOperation (node : ClusterNode π) (memberAddr topicFilters : Bytes) :
    Option (ClusterNode π) := do
  let filters ← routeFilters [] (topicFilters ++ [0])
  node.addRoutes memberAddr topicFilters filters

/-- `mqtt_tun_publish`. An address without a connection is a null pointer. -/
def mqttTunPublish (members : MemberMap) (topic : Bytes) (message : MqttMessage π) :
    List Bytes → Option (List (ClusterMessage π))
  | [] => some []
  | memberAddr :: rest => do
      let conn ← members.lookup memberAddr
      let messages ← mqttTunPublish members topic message rest
      some (.tunPublish conn (tmqStrNew topic) ⟨tmqStrNew message.message, message.qos⟩ false ::
        messages)

/-- The part of handling a topic request that concerns one filter to subscribe
to. An empty filter leaves `topic_exist` and the node unset. -/
def subscribe (node : ClusterNode π) (topicFilter clientId : Bytes) (info : SubscribeInfo)
    (walk : List MemberConn) : Option (ClusterNode π) :=
  if (cstr topicFilter).length < 1 then none
  else
    let next := { node with
      topics := (tmqTopicsAddSubscription node.topics topicFilter clientId info).2 }
    if topicExist node.topics topicFilter then some next
    else next.tmqClusterAddRoute topicFilter (tmqTopicSplit topicFilter) walk

/-- `tmq_topics_remove_subscription`, which may free nodes that routes point to. -/
def unsubscribe (node : ClusterNode π) (topicFilter clientId : Bytes) :
    Option (ClusterNode π) := do
  let topics ← tmqTopicsRemoveSubscription node.topics topicFilter clientId
  some { node with
    topics := topics
    routeTable := fun row => (node.routeTable row).map (·.map (·.release topics.root)) }

section Publish

variable {J : Type} (cJsonParse : π → Option J)

/-- `tmq_topics_publish` with `mqtt_tun_publish` as its `route_on_match`: the
node it leaves and what happened in the topic tree. -/
def topicsPublish (node : ClusterNode π) (req : PublishReq π) (walk : List Bytes) :
    Option (ClusterNode π × List (MatchEvent J)) :=
  let (topics, events, routes) := tmqTopicsPublish cJsonParse node.topics req
  match routes with
  | none => some ({ node with topics := topics }, events)
  | some matchedMembers =>
      if walk.Nodup ∧ walk.toFinset = matchedMembers then do
        let messages ← mqttTunPublish node.members req.topic req.message walk
        some ({ node with topics := topics }.push messages, events)
      else none

def handleTask (node : ClusterNode π) (walk : List Bytes) :
    ClusterTask π → Option (ClusterNode π)
  | .memberOperation conn => some (node.handleClusterMemberOperation conn)
  | .routeOperation _ memberAddr topicFilters =>
      node.handleClusterRouteOperation memberAddr topicFilters
  | .publishReq _ req => (node.topicsPublish cJsonParse req walk).map (·.1)

/-- The executor hands the task at an index to its handler. No task of the same
connection may stand before it. -/
def execute (node : ClusterNode π) (index : Nat) (walk : List Bytes) :
    Option (ClusterNode π) :=
  match node.tasks.drop index with
  | [] => none
  | task :: later =>
      let earlier := node.tasks.take index
      if task.conn? = none ∨ task.conn? ∉ earlier.map ClusterTask.conn? then
        handleTask cJsonParse { node with tasks := earlier ++ later } walk task
      else none

end Publish

end ClusterNode

inductive ClusterCall (π : Type) where
  | newConn (conn : MemberConn)
  | addRouteMessage (conn : MemberConn) (topicFilters : Bytes)
  | tunnelPublish (pkt : PublishPkt π)
  | clientPublish (topic : Bytes) (message : MqttMessage π) (retain : Bool)
      (username clientId : Bytes)
  | execute (index : Nat) (walk : List Bytes)
  /-- the will of a session that is closed, published by the logic thread itself -/
  | publishWill (topic : Bytes) (message : MqttMessage π) (retain : Bool)
      (username clientId : Bytes) (walk : List Bytes)
  | subscribe (topicFilter clientId : Bytes) (info : SubscribeInfo) (walk : List MemberConn)
  | unsubscribe (topicFilter clientId : Bytes)
  | addListener (topicFilter : Bytes) (listener : EventListener)

variable {π J : Type} [TmqString π] (cJsonParse : π → Option J)

def ClusterCall.step (node : ClusterNode π) : ClusterCall π → Option (ClusterNode π)
  | .newConn conn => some (node.newConnHandler conn)
  | .addRouteMessage conn topicFilters => node.addRouteMessageHandler conn topicFilters
  | .tunnelPublish pkt => some (node.receiveTunnelPublishHandler pkt)
  | .clientPublish topic message retain username clientId =>
      some (node.mqttPublish .client topic message retain username clientId false)
  | .execute index walk => node.execute cJsonParse index walk
  | .publishWill topic message retain username clientId walk =>
      (node.topicsPublish cJsonParse
        { topic := topic, message := message, retain := retain, isTunneledPub := false,
          publisherUsername := username, publisherClientId := clientId } walk).map (·.1)
  | .subscribe topicFilter clientId info walk => node.subscribe topicFilter clientId info walk
  | .unsubscribe topicFilter clientId => node.unsubscribe topicFilter clientId
  | .addListener topicFilter listener =>
      some { node with topics := tmqTopicsAddListener node.topics topicFilter listener }

end TinyMqtt
