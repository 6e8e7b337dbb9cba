import TinyMqtt.Cluster.Announce

/-!
Forwarding between the nodes of a cluster. A publish of a client is sent once
to each member with a matching route, however many of its routes match; a
publish that came through a tunnel is sent nowhere, so that a message makes one
hop. The addresses in the topic tree belong to members, because the route
operations of a connection wait behind its member operation.
-/

namespace TinyMqtt

variable {π J : Type}

/-- Whether a message is a `CLUSTER_TUN_PUBLISH` on the connection. -/
def ClusterMessage.tunnels (conn : MemberConn) : ClusterMessage π → Bool
  | .routeSync _ _ => false
  | .tunPublish receiver _ _ _ => receiver = conn

/-! ### The members that a publish meets -/

section Publish

variable [TmqString π] (cJsonParse : π → Option J)

/-- A publish meets the members with a route at a visited filter. -/
theorem mem_membersOf_publish (req : PublishReq π) (root : TopicNode π) (member : Bytes) :
    member ∈ membersOf (matchNode cJsonParse req [] (tmqTopicSplit req.topic) root false
        req.retain).2 ↔
      ∃ path ∈ visitedFilters (tmqTopicSplit req.topic),
        member ∈ (dataAt root path).subscribeMembers := by
  rw [mem_membersOf, matchNode_visits]
  simp only [List.mem_flatMap, List.nil_append]
  constructor
  · rintro ⟨visited, path, hpath, hvisit⟩
    exact ⟨path, hpath, (mem_membersOf_visitNode cJsonParse req path _ member).mp ⟨visited, hvisit⟩⟩
  · rintro ⟨path, hpath, hmember⟩
    obtain ⟨visited, hvisit⟩ := (mem_membersOf_visitNode cJsonParse req path _ member).mpr hmember
    exact ⟨visited, path, hpath, hvisit⟩

/-- The members handed to `route_on_match`. -/
theorem mem_routes {topics : Topics π} (hempty : topics.matchedMembers = ∅) {req : PublishReq π}
    (hclient : req.isTunneledPub = false) (member : Bytes) :
    member ∈ ((tmqTopicsPublish cJsonParse topics req).2.2.getD ∅) ↔
      ∃ path ∈ visitedFilters (tmqTopicSplit req.topic),
        member ∈ (dataAt topics.root path).subscribeMembers := by
  rw [← mem_membersOf_publish cJsonParse]
  simp only [tmqTopicsPublish, hempty, Finset.empty_union, hclient]
  split
  · rfl
  · rename_i hnone
    have hnil : membersOf (matchNode cJsonParse req [] (tmqTopicSplit req.topic) topics.root false
        req.retain).2 = ∅ := by
      rw [← Finset.not_nonempty_iff_eq_empty]
      intro hsome
      exact hnone ⟨hsome, by simp⟩
    rw [hnil]
    rfl

theorem routes_tunneled (topics : Topics π) {req : PublishReq π}
    (htunneled : req.isTunneledPub = true) :
    (tmqTopicsPublish cJsonParse topics req).2.2 = none := by
  simp [tmqTopicsPublish, htunneled]

/-- A tunneled publish triggers no listener. -/
theorem publishEvent_notMem_publish (topics : Topics π) {req : PublishReq π}
    (htunneled : req.isTunneledPub = true) (path : List Bytes) (listener : EventListener)
    (event : PubEventData J) :
    .publishEvent path listener event ∉ (tmqTopicsPublish cJsonParse topics req).2.1 := by
  simp only [tmqTopicsPublish, matchNode_visits]
  intro hmem
  obtain ⟨filter, -, hvisit⟩ := List.mem_flatMap.mp hmem
  simp [visitNode, htunneled] at hvisit

end Publish

namespace ClusterNode

/-! ### Members and waiting operations -/

/-- The member of the connection is known, or will be before a task that comes
after the given ones. -/
def Joins (members : MemberMap) (tasks : List (ClusterTask π)) (conn : MemberConn) : Prop :=
  cstr (tmqTcpConnId conn) ∈ members ∨ .memberOperation conn ∈ tasks

/-- Every waiting route operation comes after the member operation of its
connection. -/
def RoutesWait (members : MemberMap) (tasks : List (ClusterTask π)) : Prop :=
  ∀ earlier conn memberAddr topicFilters later,
    tasks = earlier ++ .routeOperation conn memberAddr topicFilters :: later →
      Joins members earlier conn

theorem Joins.append {members : MemberMap} {tasks : List (ClusterTask π)} {conn : MemberConn}
    (h : Joins members tasks conn) (more : List (ClusterTask π)) :
    Joins members (tasks ++ more) conn :=
  h.imp_right (List.mem_append_left more)

/-- A task may be removed when the members know whom it joined. -/
theorem Joins.remove {members members' : MemberMap} {earlier later : List (ClusterTask π)}
    {task : ClusterTask π} {conn : MemberConn}
    (h : Joins members (earlier ++ task :: later) conn)
    (hmore : ∀ memberAddr, memberAddr ∈ members → memberAddr ∈ members')
    (htask : ∀ joined, task = .memberOperation joined → cstr (tmqTcpConnId joined) ∈ members') :
    Joins members' (earlier ++ later) conn := by
  rcases h with hknown | hwaits
  · exact .inl (hmore _ hknown)
  · rcases List.mem_append.mp hwaits with hearlier | hrest
    · exact .inr (List.mem_append_left later hearlier)
    · rcases List.mem_cons.mp hrest with hsame | hlater
      · exact .inl (htask conn hsame.symm)
      · exact .inr (List.mem_append_right earlier hlater)

theorem RoutesWait.append {members : MemberMap} {tasks : List (ClusterTask π)}
    (h : RoutesWait members tasks) {task : ClusterTask π}
    (htask : ∀ conn memberAddr topicFilters,
      task = .routeOperation conn memberAddr topicFilters → Joins members tasks conn) :
    RoutesWait members (tasks ++ [task]) := by
  intro earlier conn memberAddr topicFilters later hsplit
  rcases List.eq_nil_or_concat later with rfl | ⟨init, last, rfl⟩
  · obtain ⟨rfl, hlast⟩ := List.append_inj' hsplit rfl
    exact htask conn memberAddr topicFilters (List.head_eq_of_cons_eq hlast)
  · have hsplit' : tasks ++ [task]
        = (earlier ++ .routeOperation conn memberAddr topicFilters :: init) ++ [last] := by
      rw [hsplit]
      simp
    obtain ⟨htasks, -⟩ := List.append_inj' hsplit' rfl
    exact h earlier conn memberAddr topicFilters init htasks

theorem RoutesWait.remove {members members' : MemberMap} {front back : List (ClusterTask π)}
    {task : ClusterTask π} (h : RoutesWait members (front ++ task :: back))
    (hmore : ∀ memberAddr, memberAddr ∈ members → memberAddr ∈ members')
    (htask : ∀ joined, task = .memberOperation joined → cstr (tmqTcpConnId joined) ∈ members') :
    RoutesWait members' (front ++ back) := by
  intro earlier conn memberAddr topicFilters later hsplit
  -- the route operation stood before or after the task that is removed
  rcases List.append_eq_append_iff.mp hsplit with ⟨middle, rfl, rfl⟩ | ⟨middle, rfl, hback⟩
  · have hjoins := h (front ++ task :: middle) conn memberAddr topicFilters later (by simp)
    exact hjoins.remove hmore htask
  · cases middle with
    | nil =>
        rw [List.nil_append] at hback
        have hjoins := h (earlier ++ [task]) conn memberAddr topicFilters later (by simp [← hback])
        have hremoved := @Joins.remove π members members' earlier [] task conn hjoins hmore htask
        rwa [List.append_nil] at hremoved
    | cons first middle =>
        obtain ⟨rfl, rfl⟩ := List.cons.inj hback
        have hjoins := h earlier conn memberAddr topicFilters (middle ++ task :: back) (by simp)
        exact hjoins.imp_left (hmore _)

/-- The invariant of the routes of a node. -/
structure Routed (node : ClusterNode π) : Prop where
  scratch : node.topics.matchedMembers = ∅
  keyed : ∀ memberAddr conn, node.members.lookup memberAddr = some conn →
    memberAddr = cstr (tmqTcpConnId conn)
  known : ∀ path, ∀ memberAddr ∈ (dataAt node.topics.root path).subscribeMembers,
    memberAddr ∈ node.members
  opened : ∀ conn ∈ node.conns, Joins node.members node.tasks conn
  owned : RoutesOwned node.tasks
  waiting : RoutesWait node.members node.tasks
  flagged : ∀ origin req, .publishReq origin req ∈ node.tasks →
    (req.isTunneledPub = true ↔ origin = .tunnel)

theorem routed_init : Routed (init : ClusterNode π) where
  scratch := rfl
  keyed := by simp [init]
  known := by
    intro path memberAddr hmember
    rw [init, tmqTopicsInit, dataAt_leaf_new] at hmember
    cases hmember
  opened := by simp [init]
  owned := announced_init.owned
  waiting := by
    intro earlier conn memberAddr topicFilters later hsplit
    simp [init] at hsplit
  flagged := by simp [init]

/-- Posting a task. -/
theorem Routed.post {node : ClusterNode π} (h : Routed node) {task : ClusterTask π}
    (howned : RoutesOwned [task])
    (hroute : ∀ conn memberAddr topicFilters,
      task = .routeOperation conn memberAddr topicFilters → conn ∈ node.conns)
    (hflag : ∀ origin req, task = .publishReq origin req →
      (req.isTunneledPub = true ↔ origin = .tunnel)) : Routed (node.post task) where
  scratch := h.scratch
  keyed := h.keyed
  known := h.known
  opened := by
    intro conn hconn
    exact (h.opened conn hconn).append [task]
  owned := h.owned.append howned
  waiting := by
    refine h.waiting.append ?_
    intro conn memberAddr topicFilters htask
    exact h.opened conn (hroute conn memberAddr topicFilters htask)
  flagged := by
    intro origin req hmem
    rcases List.mem_append.mp hmem with hold | hnew
    · exact h.flagged origin req hold
    · exact hflag origin req (List.mem_singleton.mp hnew).symm

/-- Taking a task out of the executor, once its member is known. -/
theorem Routed.take {node : ClusterNode π} (h : Routed node)
    {earlier later : List (ClusterTask π)} {task : ClusterTask π}
    (htasks : node.tasks = earlier ++ task :: later)
    (htask : ∀ joined, task = .memberOperation joined →
      cstr (tmqTcpConnId joined) ∈ node.members) :
    Routed { node with tasks := earlier ++ later } where
  scratch := h.scratch
  keyed := h.keyed
  known := h.known
  opened := by
    intro conn hconn
    have hjoins := h.opened conn hconn
    rw [htasks] at hjoins
    exact hjoins.remove (fun _ => id) htask
  owned := h.owned.remove htasks
  waiting := by
    have hwaiting := h.waiting
    rw [htasks] at hwaiting
    exact hwaiting.remove (fun _ => id) htask
  flagged := by
    intro origin req hmem
    apply h.flagged origin req
    rw [htasks, List.mem_append, List.mem_cons]
    exact (List.mem_append.mp hmem).imp_right .inr

/-- A change of the topic tree that adds no route. -/
theorem Routed.topics {node : ClusterNode π} (h : Routed node) {topics : Topics π}
    (hscratch : topics.matchedMembers = ∅)
    (hroutes : ∀ path, ∀ memberAddr ∈ (dataAt topics.root path).subscribeMembers,
      memberAddr ∈ (dataAt node.topics.root path).subscribeMembers) :
    Routed { node with topics := topics } where
  scratch := hscratch
  keyed := h.keyed
  known := by
    intro path memberAddr hmember
    exact h.known path memberAddr (hroutes path memberAddr hmember)
  opened := h.opened
  owned := h.owned
  waiting := h.waiting
  flagged := h.flagged

/-- The route table and the send box play no part. -/
theorem Routed.congr {node : ClusterNode π} (h : Routed node) (routeTable : RouteTable)
    (messageSendBox : List (ClusterMessage π)) :
    Routed { node with routeTable := routeTable, messageSendBox := messageSendBox } :=
  ⟨h.scratch, h.keyed, h.known, h.opened, h.owned, h.waiting, h.flagged⟩

theorem Routed.addMember {node : ClusterNode π} (h : Routed node) (conn : MemberConn) :
    Routed { node with members := node.members.insert (cstr (tmqTcpConnId conn)) conn } where
  scratch := h.scratch
  keyed := by
    intro memberAddr receiver hreceiver
    dsimp only at hreceiver
    by_cases hown : memberAddr = cstr (tmqTcpConnId conn)
    · rw [hown, AList.lookup_insert] at hreceiver
      rw [hown, Option.some.inj hreceiver]
    · rw [AList.lookup_insert_ne hown] at hreceiver
      exact h.keyed memberAddr receiver hreceiver
  known := by
    intro path memberAddr hmember
    exact (AList.mem_insert _).mpr (.inr (h.known path memberAddr hmember))
  opened := by
    intro opened hopened
    exact (h.opened opened hopened).imp_left fun hknown => (AList.mem_insert _).mpr (.inr hknown)
  owned := h.owned
  waiting := by
    intro earlier conn memberAddr topicFilters later hsplit
    refine (h.waiting earlier conn memberAddr topicFilters later hsplit).imp_left ?_
    exact fun hknown => (AList.mem_insert _).mpr (.inr hknown)
  flagged := h.flagged

variable [TmqString π] (cJsonParse : π → Option J)

/-- A publish leaves the routes as they are. -/
theorem Routed.publish {node : ClusterNode π} (h : Routed node) (req : PublishReq π) :
    Routed { node with topics := (tmqTopicsPublish cJsonParse node.topics req).1 } := by
  refine h.topics rfl ?_
  intro path memberAddr hmember
  simp only [tmqTopicsPublish, dataAt_matchNode] at hmember
  split at hmember <;> exact hmember

omit [TmqString π] in
theorem routes_tmqTopicsAddSubscription (topics : Topics π) (topicFilter clientId : Bytes)
    (info : SubscribeInfo) (path : List Bytes) :
    (dataAt (tmqTopicsAddSubscription topics topicFilter clientId info).2.root
      path).subscribeMembers = (dataAt topics.root path).subscribeMembers := by
  unfold tmqTopicsAddSubscription
  split
  · rfl
  · dsimp only
    rw [dataAt_addTopic]
    split <;> rfl

omit [TmqString π] in
theorem mem_tmqTopicsRemoveSubscription {topics next : Topics π} {topicFilter clientId : Bytes}
    (hremove : tmqTopicsRemoveSubscription topics topicFilter clientId = some next)
    {path : List Bytes} {memberAddr : Bytes}
    (hmember : memberAddr ∈ (dataAt next.root path).subscribeMembers) :
    memberAddr ∈ (dataAt topics.root path).subscribeMembers := by
  rcases removeSubscription_cases hremove with rfl | ⟨subscribers, htable, rfl⟩
  · exact hmember
  · have hwithout : (dataAt (withoutSubscription topics.root topicFilter clientId subscribers)
        path).subscribeMembers = (dataAt topics.root path).subscribeMembers := by
      rw [withoutSubscription, dataAt_modifyValue (exists_of_table htable)]
      split <;> rfl
    rw [← hwithout]
    rcases dataAt_tryRemoveTopic_or
      (withoutSubscription topics.root topicFilter clientId subscribers)
      (tmqTopicSplit topicFilter).reverse path with hsame | hgone
    · rwa [hsame] at hmember
    · rw [hgone] at hmember
      cases hmember

omit [TmqString π] in
/-- A member that connects waits for its operation. -/
theorem Routed.newConn {node : ClusterNode π} (h : Routed node) (conn : MemberConn) :
    Routed (node.newConnHandler conn) := by
  have hposted : Routed (node.post (.memberOperation conn)) := by
    apply h.post <;> simp [RoutesOwned]
  refine ⟨h.scratch, h.keyed, h.known, ?_, hposted.owned, hposted.waiting, hposted.flagged⟩
  intro opened hopened
  rcases List.mem_cons.mp hopened with rfl | hold
  · exact .inr (List.mem_append_right _ List.mem_cons_self)
  · exact hposted.opened opened hold

omit [TmqString π] in
theorem Routed.joined {node : ClusterNode π} (h : Routed node) {conn : MemberConn}
    {earlier later : List (ClusterTask π)}
    (htasks : node.tasks = earlier ++ .memberOperation conn :: later) :
    Routed ({ node with tasks := earlier ++ later }.handleClusterMemberOperation conn) := by
  have hjoined : Routed { node with
      members := node.members.insert (cstr (tmqTcpConnId conn)) conn,
      tasks := earlier ++ later } := by
    refine (h.addMember conn).take htasks ?_
    intro joined hsame
    obtain rfl := ClusterTask.memberOperation.inj hsame
    exact (AList.mem_insert _).mpr (.inl rfl)
  unfold handleClusterMemberOperation
  dsimp only
  split
  · exact hjoined
  · exact hjoined.congr _ _

omit [TmqString π] in
/-- The routes of a message are those of a member, since its operation came
first. -/
theorem Routed.routed {node next : ClusterNode π} (h : Routed node) {conn : MemberConn}
    {memberAddr topicFilters : Bytes} {earlier later : List (ClusterTask π)}
    (htasks : node.tasks = earlier ++ .routeOperation conn memberAddr topicFilters :: later)
    (hfirst : some conn ∉ earlier.map ClusterTask.conn?)
    (hnext : { node with tasks := earlier ++ later }.handleClusterRouteOperation memberAddr
      topicFilters = some next) : Routed next := by
  have hown : memberAddr = cstr (tmqTcpConnId conn) := by
    apply h.owned conn memberAddr topicFilters
    simp [htasks]
  have hknown : memberAddr ∈ node.members := by
    rcases h.waiting earlier conn memberAddr topicFilters later htasks with hmember | hwaits
    · rwa [hown]
    · refine (hfirst ?_).elim
      exact List.mem_map.mpr ⟨_, hwaits, rfl⟩
  have htaken := h.take htasks (by simp)
  obtain ⟨hmembers, -, htasks', hconns, hmatched, -, hroutes⟩ := routesAdded_handle hnext
  constructor
  · rw [hmatched]
    exact htaken.scratch
  · rw [hmembers]
    exact htaken.keyed
  · intro path member hmember
    rw [hmembers]
    rcases hroutes path member hmember with hnew | hold
    · rwa [hnew, hown, cstr_cstr, ← hown]
    · exact htaken.known path member hold
  · rw [hmembers, htasks', hconns]
    exact htaken.opened
  · rw [htasks']
    exact htaken.owned
  · rw [hmembers, htasks']
    exact htaken.waiting
  · rw [htasks']
    exact htaken.flagged

omit [TmqString π] in
theorem Routed.subscribed {node next : ClusterNode π} (h : Routed node)
    {topicFilter clientId : Bytes} {info : SubscribeInfo} {walk : List MemberConn}
    (hnext : node.subscribe topicFilter clientId info walk = some next) : Routed next := by
  have hsame : Routed { node with
      topics := (tmqTopicsAddSubscription node.topics topicFilter clientId info).2 } := by
    refine h.topics ?_ ?_
    · unfold tmqTopicsAddSubscription
      split <;> exact h.scratch
    · intro path memberAddr hmember
      rwa [routes_tmqTopicsAddSubscription] at hmember
  unfold subscribe at hnext
  split at hnext
  · cases hnext
  · dsimp only at hnext
    split at hnext
    · obtain rfl := Option.some.inj hnext
      exact hsame
    · obtain ⟨routeTable, -, hwalked⟩ := Option.bind_eq_some_iff.mp hnext
      split at hwalked
      · obtain rfl := Option.some.inj hwalked
        exact hsame.congr _ _
      · cases hwalked

omit [TmqString π] in
theorem Routed.unsubscribed {node next : ClusterNode π} (h : Routed node)
    {topicFilter clientId : Bytes} (hnext : node.unsubscribe topicFilter clientId = some next) :
    Routed next := by
  obtain ⟨topics, hremove, hsome⟩ := Option.bind_eq_some_iff.mp hnext
  obtain rfl := Option.some.inj hsome
  have hsame : Routed { node with topics := topics } := by
    refine h.topics ?_ ?_
    · rw [matchedMembers_removeSubscription hremove]
      exact h.scratch
    · intro path memberAddr hmember
      exact mem_tmqTopicsRemoveSubscription hremove hmember
  exact hsame.congr _ _

theorem routed_step {node next : ClusterNode π} (h : Routed node)
    (hstep : Step cJsonParse node next) : Routed next := by
  cases hstep with
  | opened conn hnext =>
      obtain rfl := hnext
      exact h.newConn conn
  | routesReceived conn topicFilters hconn hnext =>
      obtain rfl := hnext
      apply h.post
      · intro other memberAddr filters hmem
        simp only [List.mem_singleton, ClusterTask.routeOperation.injEq] at hmem
        rw [hmem.1, hmem.2.1]
      · intro other memberAddr filters hsame
        obtain ⟨rfl, -, -⟩ := ClusterTask.routeOperation.inj hsame
        exact hconn
      · intro origin req hsame
        cases hsame
  | requested origin req hflag hnext =>
      obtain rfl := hnext
      apply h.post
      · simp [RoutesOwned]
      · simp
      · intro origin' req' hsame
        obtain ⟨rfl, rfl⟩ := ClusterTask.publishReq.inj hsame
        exact hflag
  | joined conn earlier later htasks hnext =>
      obtain rfl := hnext
      exact h.joined htasks
  | routed conn memberAddr topicFilters earlier later htasks hfirst hnext =>
      exact h.routed htasks hfirst hnext
  | published req walk tasks events htasks hnext =>
      obtain ⟨-, messages, rfl, -⟩ := topicsPublish_cases cJsonParse hnext
      have htaken : Routed { node with tasks := tasks } := by
        rcases htasks with rfl | ⟨origin, earlier, later, htasks, rfl⟩
        · exact h
        · exact h.take htasks (by simp)
      exact (htaken.publish cJsonParse req).congr _ _
  | subscribed topicFilter clientId info walk hnext => exact h.subscribed hnext
  | unsubscribed topicFilter clientId hnext => exact h.unsubscribed hnext
  | listened topicFilter listener hnext =>
      obtain rfl := hnext
      refine h.topics h.scratch ?_
      intro path memberAddr hmember
      rw [tmqTopicsAddListener, dataAt_addTopic] at hmember
      split at hmember <;> exact hmember

/-! ### What a publish queues -/

/-- What a publish of a client queues: copies for members, at most one each, one
for a member with a route that matches and none for a member all of whose
routes do not. MQTT gives no meaning to a filter in which `#` stands before the
end; a member with such a route gets at most one copy like every other. -/
structure Forwarded (node : ClusterNode π) (req : PublishReq π)
    (sent : List (ClusterMessage π)) : Prop where
  copies : ∀ message ∈ sent, ∃ memberAddr conn, node.members.lookup memberAddr = some conn ∧
    message = .tunPublish conn (cstr req.topic)
      ⟨tmqStrNew req.message.message, req.message.qos⟩ false
  atMostOne : ∀ memberAddr conn, node.members.lookup memberAddr = some conn →
    sent.countP (·.tunnels conn) ≤ 1
  matching : ∀ memberAddr conn, node.members.lookup memberAddr = some conn →
    (∃ filter, ValidFilter filter ∧ filterMatches filter (tmqTopicSplit req.topic) = true ∧
      memberAddr ∈ (dataAt node.topics.root filter).subscribeMembers) →
    sent.countP (·.tunnels conn) = 1
  others : ∀ memberAddr conn, node.members.lookup memberAddr = some conn →
    (∀ filter, memberAddr ∈ (dataAt node.topics.root filter).subscribeMembers →
      ValidFilter filter ∧ filterMatches filter (tmqTopicSplit req.topic) = false) →
    sent.countP (·.tunnels conn) = 0

/-- Forwarding is one hop and free of duplicates at a node, whatever tasks wait
there. -/
structure ForwardsOnce (node : ClusterNode π) : Prop where
  /-- nothing is left over from the last publish -/
  scratch : node.topics.matchedMembers = ∅
  /-- every address that `mqtt_tun_publish` looks up has a connection -/
  present : ∀ req matchedMembers,
    (tmqTopicsPublish cJsonParse node.topics req).2.2 = some matchedMembers →
    ∀ memberAddr ∈ matchedMembers, memberAddr ∈ node.members
  /-- so that the publish is handled in whatever order the members are walked -/
  handled : ∀ tasks req (walk : List Bytes), walk.Nodup →
    (∀ matchedMembers, (tmqTopicsPublish cJsonParse node.topics req).2.2 = some matchedMembers →
      walk.toFinset = matchedMembers) →
    { node with tasks := tasks }.topicsPublish cJsonParse req walk ≠ none
  /-- the flag of a waiting request tells where it came from -/
  flagged : ∀ origin req, .publishReq origin req ∈ node.tasks →
    (req.isTunneledPub = true ↔ origin = .tunnel)
  client : ∀ tasks req walk next events, req.isTunneledPub = false →
    { node with tasks := tasks }.topicsPublish cJsonParse req walk = some (next, events) →
    ∃ sent, next.messageSendBox = node.messageSendBox ++ sent ∧ Forwarded node req sent
  tunnel : ∀ tasks req walk next events, req.isTunneledPub = true →
    { node with tasks := tasks }.topicsPublish cJsonParse req walk = some (next, events) →
    next.messageSendBox = node.messageSendBox ∧
      ∀ path listener event, .publishEvent path listener event ∉ events

omit [TmqString π] in
/-- Different addresses have different connections, so a connection is found as
often as its address. -/
theorem Routed.count_conns {node : ClusterNode π} (h : Routed node) {walk : List Bytes}
    {conns : List MemberConn} (hwalk : walk.map node.members.lookup = conns.map some)
    {memberAddr : Bytes} {conn : MemberConn}
    (hconn : node.members.lookup memberAddr = some conn) :
    conns.count conn = walk.count memberAddr := by
  induction walk generalizing conns with
  | nil =>
      rw [List.map_nil, eq_comm, List.map_eq_nil_iff] at hwalk
      rw [hwalk]
      rfl
  | cons first walk ih =>
      cases conns with
      | nil => cases hwalk
      | cons found conns =>
          obtain ⟨hfound, hrest⟩ := List.cons.inj hwalk
          have hsame : found = conn ↔ first = memberAddr := by
            constructor
            · rintro rfl
              rw [h.keyed first found hfound, h.keyed memberAddr found hconn]
            · rintro rfl
              exact Option.some.inj (hfound.symm.trans hconn)
          rw [List.count_cons, List.count_cons, ih hrest]
          simp only [beq_iff_eq, hsame]

theorem mqttTunPublish_isSome {members : MemberMap} {walk : List Bytes}
    (hwalk : ∀ memberAddr ∈ walk, memberAddr ∈ members) (topic : Bytes)
    (message : MqttMessage π) : (mqttTunPublish members topic message walk).isSome := by
  induction walk with
  | nil => rfl
  | cons memberAddr walk ih =>
      obtain ⟨hfirst, hrest⟩ := List.forall_mem_cons.mp hwalk
      obtain ⟨conn, hconn⟩ := Option.isSome_iff_exists.mp (AList.lookup_isSome.mpr hfirst)
      obtain ⟨messages, hmessages⟩ := Option.isSome_iff_exists.mp (ih hrest)
      simp [mqttTunPublish, hconn, hmessages]

theorem Routed.present {node : ClusterNode π} (h : Routed node) {req : PublishReq π}
    {matchedMembers : Finset Bytes}
    (hroutes : (tmqTopicsPublish cJsonParse node.topics req).2.2 = some matchedMembers) :
    ∀ memberAddr ∈ matchedMembers, memberAddr ∈ node.members := by
  intro memberAddr hmatched
  have hclient : req.isTunneledPub = false := by
    by_contra htunneled
    rw [routes_tunneled cJsonParse node.topics (by simpa using htunneled)] at hroutes
    cases hroutes
  have hmet := mem_routes cJsonParse h.scratch hclient memberAddr
  rw [hroutes] at hmet
  obtain ⟨path, -, hmember⟩ := hmet.mp hmatched
  exact h.known path memberAddr hmember

/-- The messages for the members that a client's publish met. -/
theorem Routed.forwarded {node : ClusterNode π} (h : Routed node) {req : PublishReq π}
    (hclient : req.isTunneledPub = false) {walk : List Bytes} (hnodup : walk.Nodup)
    (hroutes : (tmqTopicsPublish cJsonParse node.topics req).2.2.getD ∅ = walk.toFinset)
    {conns : List MemberConn} (hconns : walk.map node.members.lookup = conns.map some) :
    Forwarded node req (conns.map fun conn => .tunPublish conn (cstr req.topic)
      ⟨tmqStrNew req.message.message, req.message.qos⟩ false) := by
  have hcount : ∀ {memberAddr conn}, node.members.lookup memberAddr = some conn →
      (conns.map fun conn => (.tunPublish conn (cstr req.topic)
        ⟨tmqStrNew req.message.message, req.message.qos⟩ false : ClusterMessage π)).countP
          (·.tunnels conn) = if memberAddr ∈ walk then 1 else 0 := by
    intro memberAddr conn hconn
    rw [← List.Nodup.count hnodup, ← h.count_conns hconns hconn, List.countP_map]
    rfl
  have hmem : ∀ memberAddr, memberAddr ∈ walk ↔
      ∃ path ∈ visitedFilters (tmqTopicSplit req.topic),
        memberAddr ∈ (dataAt node.topics.root path).subscribeMembers := by
    intro memberAddr
    rw [← mem_routes cJsonParse h.scratch hclient, hroutes, List.mem_toFinset]
  constructor
  · intro message hmessage
    obtain ⟨conn, hconn, rfl⟩ := List.mem_map.mp hmessage
    have hfound : some conn ∈ walk.map node.members.lookup := by
      rw [hconns]
      exact List.mem_map_of_mem hconn
    obtain ⟨memberAddr, -, hlookup⟩ := List.mem_map.mp hfound
    exact ⟨memberAddr, conn, hlookup, rfl⟩
  · intro memberAddr conn hconn
    rw [hcount hconn]
    split <;> decide
  · rintro memberAddr conn hconn ⟨filter, hvalid, hmatches, hmember⟩
    rw [hcount hconn, if_pos]
    exact (hmem memberAddr).mpr ⟨filter, (mem_visitedFilters hvalid _).mpr hmatches, hmember⟩
  · intro memberAddr conn hconn hnone
    rw [hcount hconn, if_neg]
    intro hwalked
    obtain ⟨path, hvisited, hmember⟩ := (hmem memberAddr).mp hwalked
    obtain ⟨hvalid, hmatches⟩ := hnone path hmember
    rw [(mem_visitedFilters hvalid _).mp hvisited] at hmatches
    cases hmatches

theorem Routed.forwardsOnce {node : ClusterNode π} (h : Routed node) :
    ForwardsOnce cJsonParse node where
  scratch := h.scratch
  present := fun req matchedMembers hroutes => h.present cJsonParse hroutes
  handled := by
    intro tasks req walk hnodup hwalk
    unfold topicsPublish
    dsimp only
    cases hroutes : (tmqTopicsPublish cJsonParse node.topics req).2.2 with
    | none => simp
    | some matchedMembers =>
        have hset := hwalk matchedMembers hroutes
        have hpresent : ∀ memberAddr ∈ walk, memberAddr ∈ node.members := by
          intro memberAddr hmember
          apply h.present cJsonParse hroutes
          rwa [← hset, List.mem_toFinset]
        obtain ⟨messages, hmessages⟩ := Option.isSome_iff_exists.mp
          (mqttTunPublish_isSome hpresent req.topic req.message)
        simp [hnodup, hset, hmessages]
  flagged := h.flagged
  client := by
    intro tasks req walk next events hclient hpublish
    obtain ⟨-, messages, rfl, hmessages⟩ := topicsPublish_cases cJsonParse hpublish
    refine ⟨messages, rfl, ?_⟩
    rcases hmessages with ⟨hnone, rfl⟩ | ⟨hsome, hnodup, hqueued⟩
    · refine @Routed.forwarded π J _ cJsonParse node h req hclient [] List.nodup_nil ?_ [] rfl
      dsimp only at hnone
      rw [hnone]
      rfl
    · obtain ⟨conns, hconns, rfl⟩ := mqttTunPublish_eq hqueued
      refine h.forwarded cJsonParse hclient hnodup ?_ hconns
      dsimp only at hsome
      rw [hsome]
      rfl
  tunnel := by
    intro tasks req walk next events htunneled hpublish
    obtain ⟨rfl, messages, rfl, hmessages⟩ := topicsPublish_cases cJsonParse hpublish
    have hnone := routes_tunneled cJsonParse node.topics htunneled
    rcases hmessages with ⟨-, rfl⟩ | ⟨hsome, -, -⟩
    · refine ⟨List.append_nil _, ?_⟩
      intro path listener event
      exact publishEvent_notMem_publish cJsonParse node.topics htunneled path listener event
    · dsimp only at hsome
      rw [hnone] at hsome
      cases hsome

/-- In every reachable state forwarding is one hop and free of duplicates. -/
theorem forwardsOnce_of_runs (calls : List (ClusterCall π)) (node : ClusterNode π)
    (hrun : Run.runs (ClusterCall.step cJsonParse) init calls = some node) :
    ForwardsOnce cJsonParse node := by
  apply Routed.forwardsOnce
  refine Run.runs_maintains ?_ routed_init hrun
  intro node call next h hstep
  exact routed_step cJsonParse h (step_of_call cJsonParse hstep)

/-- A member joins and announces the filters `a` and `a/#`, and a client
publishes to `a`. -/
def sampleForward : List (ClusterCall Bytes) :=
  [.newConn sampleMember, .addRouteMessage sampleMember [97, 0],
    .addRouteMessage sampleMember [97, 47, 35, 0], .execute 0 [], .execute 0 [], .execute 0 [],
    .clientPublish [97] ⟨[49], 1⟩ false [] [112]]

theorem forwardsOnce_sampleForward :
    ∃ node, Run.runs (ClusterCall.step parseDigit) init sampleForward = some node ∧
      (node.execute parseDigit 0 [tmqTcpConnId sampleMember]).map
        (·.messageSendBox.countP (·.tunnels sampleMember)) = some 1 ∧
      ForwardsOnce parseDigit node := by
  refine ⟨_, rfl, rfl, ?_⟩
  exact forwardsOnce_of_runs parseDigit sampleForward _ rfl

end ClusterNode

end TinyMqtt
