import TinyMqtt.Cluster.Cluster
import TinyMqtt.Topic.Matching

/-!
What the handlers of a cluster node leave alone, and what a call can do. A call
either posts a task, hands a posted task to its handler, or changes the topic
tree from the logic thread; the pointers from the route table into the tree
matter to none of the properties of a node.
-/

namespace TinyMqtt

/-! ### Member addresses -/

/-- No member is named like the row of the local routes: an address starts with
a digit. -/
theorem tmqTcpConnId_ne_localRow (conn : MemberConn) : cstr (tmqTcpConnId conn) ≠ localRow := by
  have hdigit : ∀ n : Fin 256, ∃ first rest, decimal n.val = first :: rest ∧ first ≠ 0 ∧
      first ≠ 108 := by
    intro n
    have hhead : ∀ n : Fin 256, ((decimal n.val).head?.all fun first =>
        decide (first ≠ 0 ∧ first ≠ 108)) = true ∧ decimal n.val ≠ [] := by
      decide +kernel
    obtain ⟨hall, hne⟩ := hhead n
    obtain ⟨first, rest, hdecimal⟩ := List.exists_cons_of_ne_nil hne
    rw [hdecimal] at hall
    exact ⟨first, rest, hdecimal, by simpa using hall⟩
  obtain ⟨first, rest, hdecimal, hzero, hletter⟩ :=
    hdigit ⟨conn.peerAddr.sinAddr.1.toNat, conn.peerAddr.sinAddr.1.toNat_lt⟩
  intro hsame
  dsimp only at hdecimal
  rw [tmqTcpConnId, tmqAddrToString, hdecimal] at hsame
  simp only [List.cons_append, cstr, List.takeWhile_cons, hzero, ne_eq, not_false_eq_true,
    decide_true, if_true, localRow, List.cons.injEq] at hsame
  exact hletter hsame.1

/-! ### The route table -/

def RouteTable.names (table : RouteTable) (row : Bytes) : List Bytes :=
  ((table row).getD []).map (·.topicFilterName)

theorem names_routeTableAddItem {table next : RouteTable} {memberAddr topicFilter : Bytes}
    {topicTreeNode : List Bytes}
    (hadd : routeTableAddItem table memberAddr topicFilter topicTreeNode = some next)
    (row : Bytes) :
    RouteTable.names next row = if row = cstr memberAddr then
      cstr topicFilter :: RouteTable.names table row else RouteTable.names table row := by
  have hupdate : ∀ items, (table (cstr memberAddr)).getD [] = items →
      RouteTable.names (Function.update table (cstr memberAddr)
          (some (⟨some topicTreeNode, cstr topicFilter⟩ :: items))) row
        = if row = cstr memberAddr then cstr topicFilter :: RouteTable.names table row
          else RouteTable.names table row := by
    intro items hitems
    unfold RouteTable.names
    rw [Function.update_apply]
    split
    · rename_i hrow
      rw [hrow, hitems]
      rfl
    · rfl
  unfold routeTableAddItem at hadd
  dsimp only at hadd
  split at hadd
  · rename_i hrow
    rw [← Option.some.inj hadd]
    exact hupdate [] (by rw [hrow]; rfl)
  · rename_i hrow
    rw [← Option.some.inj hadd]
    exact hupdate [] (by rw [hrow]; rfl)
  · rename_i head items hrow
    split at hadd
    · cases hadd
    · rw [← Option.some.inj hadd]
      exact hupdate (head :: items) (by rw [hrow]; rfl)

theorem names_release {π : Type} (table : RouteTable) (root : TopicNode π) (row : Bytes) :
    RouteTable.names (fun row => (table row).map (·.map (·.release root))) row
      = RouteTable.names table row := by
  unfold RouteTable.names
  dsimp only
  cases table row with
  | none => rfl
  | some items =>
      simp only [Option.map_some, Option.getD_some, List.map_map]
      rfl

/-! ### Routes in the topic tree -/

namespace ClusterNode

variable {π J : Type}

/-- What `handle_cluster_route_operation` can have done. -/
structure RoutesAdded (memberAddr : Bytes) (node next : ClusterNode π) : Prop where
  members : next.members = node.members
  messageSendBox : next.messageSendBox = node.messageSendBox
  tasks : next.tasks = node.tasks
  conns : next.conns = node.conns
  matchedMembers : next.topics.matchedMembers = node.topics.matchedMembers
  names : ∀ row, row ≠ cstr memberAddr →
    RouteTable.names next.routeTable row = RouteTable.names node.routeTable row
  routes : ∀ path member, member ∈ (dataAt next.topics.root path).subscribeMembers →
    member = cstr memberAddr ∨ member ∈ (dataAt node.topics.root path).subscribeMembers

theorem mem_tmqTopicsAddRoute {topics : Topics π} {topicFilter memberAddr : Bytes}
    {path : List Bytes} {member : Bytes}
    (hmember : member ∈
      (dataAt (tmqTopicsAddRoute topics topicFilter memberAddr).root path).subscribeMembers) :
    member = cstr memberAddr ∨ member ∈ (dataAt topics.root path).subscribeMembers := by
  rw [tmqTopicsAddRoute, dataAt_addTopic] at hmember
  split at hmember
  · simpa using hmember
  · exact .inr hmember

theorem routesAdded_addRoutes {node next : ClusterNode π} {memberAddr topicFilters : Bytes}
    {filters : List Bytes} (hadd : node.addRoutes memberAddr topicFilters filters = some next) :
    RoutesAdded memberAddr node next := by
  induction filters generalizing node with
  | nil =>
      obtain rfl := Option.some.inj hadd
      exact ⟨rfl, rfl, rfl, rfl, rfl, fun _ _ => rfl, fun _ _ => .inr⟩
  | cons topicFilter filters ih =>
      obtain ⟨routeTable, htable, hrest⟩ := Option.bind_eq_some_iff.mp hadd
      obtain ⟨hmembers, hbox, htasks, hconns, hmatched, hnames, hroutes⟩ := ih hrest
      refine ⟨hmembers, hbox, htasks, hconns, hmatched, ?_, ?_⟩
      · intro row hrow
        rw [hnames row hrow, names_routeTableAddItem htable, if_neg hrow]
      · intro path member hmember
        rcases hroutes path member hmember with hown | hadded
        · exact .inl hown
        · exact mem_tmqTopicsAddRoute hadded

theorem routesAdded_handle {node next : ClusterNode π} {memberAddr topicFilters : Bytes}
    (hhandle : node.handleClusterRouteOperation memberAddr topicFilters = some next) :
    RoutesAdded memberAddr node next := by
  obtain ⟨filters, -, hadd⟩ := Option.bind_eq_some_iff.mp hhandle
  exact routesAdded_addRoutes hadd

/-! ### Publishes -/

variable [TmqString π] (cJsonParse : π → Option J)

/-- A publish changes the topic tree and may queue messages. -/
theorem topicsPublish_cases {node next : ClusterNode π} {req : PublishReq π} {walk : List Bytes}
    {events : List (MatchEvent J)}
    (hpublish : node.topicsPublish cJsonParse req walk = some (next, events)) :
    events = (tmqTopicsPublish cJsonParse node.topics req).2.1 ∧
      ∃ messages, next = { node with
        topics := (tmqTopicsPublish cJsonParse node.topics req).1 }.push messages ∧
        ((tmqTopicsPublish cJsonParse node.topics req).2.2 = none ∧ messages = [] ∨
          (tmqTopicsPublish cJsonParse node.topics req).2.2 = some walk.toFinset ∧ walk.Nodup ∧
            mqttTunPublish node.members req.topic req.message walk = some messages) := by
  unfold topicsPublish at hpublish
  dsimp only at hpublish
  split at hpublish
  · rename_i hroutes
    obtain ⟨rfl, rfl⟩ := Prod.mk.inj (Option.some.inj hpublish)
    refine ⟨rfl, [], ?_, .inl ⟨hroutes, rfl⟩⟩
    rw [push, List.append_nil]
  · rename_i matchedMembers hroutes
    split at hpublish
    · rename_i hwalk
      obtain ⟨messages, hmessages, hsome⟩ := Option.bind_eq_some_iff.mp hpublish
      obtain ⟨rfl, rfl⟩ := Prod.mk.inj (Option.some.inj hsome)
      exact ⟨rfl, messages, rfl, .inr ⟨hwalk.2 ▸ hroutes, hwalk.1, hmessages⟩⟩
    · cases hpublish

/-- What `mqtt_tun_publish` queues: one message for each address it walks over. -/
theorem mqttTunPublish_eq {members : MemberMap} {topic : Bytes} {message : MqttMessage π}
    {walk : List Bytes} {messages : List (ClusterMessage π)}
    (hqueued : mqttTunPublish members topic message walk = some messages) :
    ∃ conns : List MemberConn, walk.map members.lookup = conns.map some ∧
      messages = conns.map fun conn => .tunPublish conn (cstr topic)
        ⟨tmqStrNew message.message, message.qos⟩ false := by
  induction walk generalizing messages with
  | nil =>
      obtain rfl := Option.some.inj hqueued
      exact ⟨[], rfl, rfl⟩
  | cons memberAddr walk ih =>
      obtain ⟨conn, hconn, hqueued⟩ := Option.bind_eq_some_iff.mp hqueued
      obtain ⟨others, hothers, hsome⟩ := Option.bind_eq_some_iff.mp hqueued
      obtain rfl := Option.some.inj hsome
      obtain ⟨conns, hlookup, rfl⟩ := ih hothers
      exact ⟨conn :: conns, by simp [hconn, hlookup], rfl⟩

/-! ### Calls -/

inductive Step (node next : ClusterNode π) : Prop where
  | opened (conn : MemberConn) (hnext : next = node.newConnHandler conn)
  | routesReceived (conn : MemberConn) (topicFilters : Bytes) (hconn : conn ∈ node.conns)
      (hnext : next = node.post (.routeOperation conn (cstr (tmqTcpConnId conn)) topicFilters))
  | requested (origin : PublishOrigin) (req : PublishReq π)
      (hflag : req.isTunneledPub = true ↔ origin = .tunnel)
      (hnext : next = node.post (.publishReq origin req))
  | joined (conn : MemberConn) (earlier later : List (ClusterTask π))
      (htasks : node.tasks = earlier ++ .memberOperation conn :: later)
      (hnext : next
        = { node with tasks := earlier ++ later }.handleClusterMemberOperation conn)
  | routed (conn : MemberConn) (memberAddr topicFilters : Bytes)
      (earlier later : List (ClusterTask π))
      (htasks : node.tasks = earlier ++ .routeOperation conn memberAddr topicFilters :: later)
      (hfirst : some conn ∉ earlier.map ClusterTask.conn?)
      (hnext : { node with tasks := earlier ++ later }.handleClusterRouteOperation memberAddr
        topicFilters = some next)
  /-- a request that waited, or a will -/
  | published (req : PublishReq π) (walk : List Bytes) (tasks : List (ClusterTask π))
      (events : List (MatchEvent J))
      (htasks : tasks = node.tasks ∨ ∃ origin earlier later,
        node.tasks = earlier ++ .publishReq origin req :: later ∧ tasks = earlier ++ later)
      (hnext : { node with tasks := tasks }.topicsPublish cJsonParse req walk
        = some (next, events))
  | subscribed (topicFilter clientId : Bytes) (info : SubscribeInfo) (walk : List MemberConn)
      (hnext : node.subscribe topicFilter clientId info walk = some next)
  | unsubscribed (topicFilter clientId : Bytes)
      (hnext : node.unsubscribe topicFilter clientId = some next)
  | listened (topicFilter : Bytes) (listener : EventListener)
      (hnext : next
        = { node with topics := tmqTopicsAddListener node.topics topicFilter listener })

theorem step_of_execute {node next : ClusterNode π} {index : Nat} {walk : List Bytes}
    (hexecute : node.execute cJsonParse index walk = some next) : Step cJsonParse node next := by
  unfold execute at hexecute
  cases hdrop : node.tasks.drop index with
  | nil =>
      rw [hdrop] at hexecute
      cases hexecute
  | cons task later =>
      rw [hdrop] at hexecute
      dsimp only at hexecute
      have htasks : node.tasks = node.tasks.take index ++ task :: later := by
        rw [← hdrop, List.take_append_drop]
      split at hexecute
      · rename_i hfirst
        cases task with
        | memberOperation conn => exact .joined conn _ later htasks (Option.some.inj hexecute).symm
        | routeOperation conn memberAddr topicFilters =>
            refine .routed conn memberAddr topicFilters _ later htasks ?_ hexecute
            simpa [ClusterTask.conn?] using hfirst
        | publishReq origin req =>
            obtain ⟨⟨final, events⟩, hpublish, rfl⟩ := Option.map_eq_some_iff.mp hexecute
            exact .published req walk _ events (.inr ⟨origin, _, later, htasks, rfl⟩) hpublish
      · cases hexecute

theorem step_of_call {node next : ClusterNode π} {call : ClusterCall π}
    (hcall : call.step cJsonParse node = some next) : Step cJsonParse node next := by
  cases call with
  | newConn conn => exact .opened conn (Option.some.inj hcall).symm
  | addRouteMessage conn topicFilters =>
      simp only [ClusterCall.step, addRouteMessageHandler] at hcall
      split at hcall
      · rename_i hconn
        exact .routesReceived conn topicFilters hconn (Option.some.inj hcall).symm
      · cases hcall
  | tunnelPublish pkt => exact .requested .tunnel _ (by simp) (Option.some.inj hcall).symm
  | clientPublish topic message retain username clientId =>
      exact .requested .client _ (by simp) (Option.some.inj hcall).symm
  | execute index walk => exact step_of_execute cJsonParse hcall
  | publishWill topic message retain username clientId walk =>
      obtain ⟨⟨final, events⟩, hpublish, rfl⟩ := Option.map_eq_some_iff.mp hcall
      exact .published _ walk node.tasks events (.inl rfl) hpublish
  | subscribe topicFilter clientId info walk => exact .subscribed _ _ _ _ hcall
  | unsubscribe topicFilter clientId => exact .unsubscribed _ _ hcall
  | addListener topicFilter listener => exact .listened _ _ (Option.some.inj hcall).symm

end ClusterNode

end TinyMqtt
