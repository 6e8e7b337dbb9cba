import TinyMqtt.Cluster.Effects

/-!
The announcement of the local routes. A member that joins is sent the whole
local row as one string, a filter that is added later is sent to every member
on its own; together each member is told the filters of the local row, neither
more nor fewer, in whatever order joins and subscriptions come.
-/

namespace TinyMqtt

/-! ### Strings of filters -/

/-- A filter that survives in a string of filters: it is not empty and does not
contain the separator. -/
def ProperFilter (filter : Bytes) : Prop := filter ≠ [] ∧ 0 ∉ filter

instance (filter : Bytes) : Decidable (ProperFilter filter) :=
  inferInstanceAs (Decidable (filter ≠ [] ∧ 0 ∉ filter))

theorem ProperFilter.cstr_eq {filter : Bytes} (h : ProperFilter filter) : cstr filter = filter :=
  (cstr_eq_self_iff filter).mpr h.2

theorem routeFilters_append {seen filter : Bytes} (hzero : 0 ∉ filter) (hne : seen ++ filter ≠ [])
    (rest : Bytes) :
    routeFilters seen (filter ++ 0 :: rest)
      = (routeFilters [] rest).map ((seen ++ filter) :: ·) := by
  induction filter generalizing seen with
  | nil =>
      rw [List.append_nil] at hne
      simp [routeFilters, hne]
  | cons c filter ih =>
      obtain ⟨hc, hfilter⟩ := List.ne_and_not_mem_of_not_mem_cons hzero
      have hlonger : seen ++ [c] ++ filter ≠ [] := by simp
      rw [List.cons_append, routeFilters, if_pos (Ne.symm hc), ih hfilter hlonger]
      simp

/-- Filters with their separators, up to an empty one. -/
theorem routeFilters_flatMap {filters : List Bytes} (hproper : ∀ f ∈ filters, ProperFilter f)
    (rest : Bytes) :
    routeFilters [] (filters.flatMap (· ++ [0]) ++ 0 :: rest) = some filters := by
  induction filters with
  | nil => simp [routeFilters]
  | cons filter filters ih =>
      obtain ⟨hfilter, hothers⟩ := List.forall_mem_cons.mp hproper
      have happend := @routeFilters_append [] filter hfilter.2 hfilter.1
        (filters.flatMap (· ++ [0]) ++ 0 :: rest)
      rw [ih hothers] at happend
      simpa using happend

/-- The string of all filters of a row. -/
theorem foldl_syncMsgAddTopic {filters : List Bytes} (hproper : ∀ f ∈ filters, ProperFilter f)
    (start : Option Bytes) :
    filters.foldl syncMsgAddTopic start
      = if filters = [] then start else some (start.getD [] ++ filters.flatMap (· ++ [0])) := by
  induction filters generalizing start with
  | nil => rfl
  | cons filter filters ih =>
      obtain ⟨hfilter, hothers⟩ := List.forall_mem_cons.mp hproper
      have hfirst : syncMsgAddTopic start filter = some (start.getD [] ++ (filter ++ [0])) := by
        cases start <;> simp [syncMsgAddTopic, hfilter.cstr_eq]
      rw [List.foldl_cons, ih hothers, hfirst, if_neg (List.cons_ne_nil _ _)]
      split
      · rename_i hnil
        simp [hnil]
      · simp

/-- The filters that a message holds for its receiver: the string is sent with
its terminator and is given another one when it is read. -/
def sentFilters (topicFilters : Option Bytes) : List Bytes :=
  (routeFilters [] (topicFilters.getD [] ++ [0, 0])).getD []

theorem sentFilters_row {filters : List Bytes} (hproper : ∀ f ∈ filters, ProperFilter f) :
    sentFilters (filters.foldl syncMsgAddTopic none) = filters := by
  rw [foldl_syncMsgAddTopic hproper]
  unfold sentFilters
  split
  · rename_i hnil
    rw [hnil]
    rfl
  · rw [Option.getD_some, Option.getD_none, List.nil_append, routeFilters_flatMap hproper]
    rfl

theorem sentFilters_single {filter : Bytes} (hproper : ProperFilter filter) :
    sentFilters (some filter) = [filter] := by
  have hone := @routeFilters_append [] filter hproper.2 hproper.1 [0]
  rw [sentFilters, Option.getD_some, hone]
  rfl

theorem properFilter_cstr {filter : Bytes} (hlength : ¬ (cstr filter).length < 1) :
    ProperFilter (cstr filter) := by
  refine ⟨?_, zero_not_mem_cstr filter⟩
  intro hnil
  rw [hnil] at hlength
  exact hlength Nat.zero_lt_one

/-! ### Queued filters -/

variable {π J : Type}

def ClusterMessage.announced (conn : MemberConn) : ClusterMessage π → List Bytes
  | .routeSync receiver topicFilters => if receiver = conn then sentFilters topicFilters else []
  | .tunPublish _ _ _ _ => []

namespace ClusterNode

/-- The filters in the `CLUSTER_ROUTE_SYNC` messages queued for a connection. -/
def queuedFilters (node : ClusterNode π) (conn : MemberConn) : List Bytes :=
  node.messageSendBox.flatMap (·.announced conn)

/-- Every member has been announced the filters of the local row, and no other
filter. -/
def AnnouncesRoutes (node : ClusterNode π) : Prop :=
  ∀ memberAddr conn, node.members.lookup memberAddr = some conn → ∀ topicFilter,
    topicFilter ∈ node.queuedFilters conn ↔ topicFilter ∈ node.localFilters

theorem queuedFilters_push (node : ClusterNode π) (messages : List (ClusterMessage π))
    (conn : MemberConn) :
    (node.push messages).queuedFilters conn
      = node.queuedFilters conn ++ messages.flatMap (·.announced conn) := by
  rw [queuedFilters, push, List.flatMap_append]
  rfl

/-- A waiting route operation is for the member whose connection it came in on. -/
def RoutesOwned (tasks : List (ClusterTask π)) : Prop :=
  ∀ conn memberAddr topicFilters, .routeOperation conn memberAddr topicFilters ∈ tasks →
    memberAddr = cstr (tmqTcpConnId conn)

theorem RoutesOwned.append {tasks : List (ClusterTask π)} (h : RoutesOwned tasks)
    {task : ClusterTask π} (htask : RoutesOwned [task]) : RoutesOwned (tasks ++ [task]) := by
  intro conn memberAddr topicFilters hmem
  rcases List.mem_append.mp hmem with hold | hnew
  · exact h conn memberAddr topicFilters hold
  · exact htask conn memberAddr topicFilters hnew

theorem RoutesOwned.remove {tasks earlier later : List (ClusterTask π)} (h : RoutesOwned tasks)
    {task : ClusterTask π} (htasks : tasks = earlier ++ task :: later) :
    RoutesOwned (earlier ++ later) := by
  intro conn memberAddr topicFilters hmem
  apply h conn memberAddr topicFilters
  rw [htasks, List.mem_append, List.mem_cons]
  rw [List.mem_append] at hmem
  exact hmem.imp_right .inr

/-- The invariant of the announcements. A connection that is no member any more,
because another one took its address, keeps what it was sent. -/
structure Announced (node : ClusterNode π) : Prop where
  proper : ∀ topicFilter ∈ node.localFilters, ProperFilter topicFilter
  sound : ∀ conn, ∀ topicFilter ∈ node.queuedFilters conn, topicFilter ∈ node.localFilters
  complete : ∀ memberAddr conn, node.members.lookup memberAddr = some conn →
    ∀ topicFilter ∈ node.localFilters, topicFilter ∈ node.queuedFilters conn
  owned : RoutesOwned node.tasks

theorem announced_init : Announced (init : ClusterNode π) where
  proper := by simp [init, localFilters]
  sound := by simp [init, queuedFilters]
  complete := by simp [init, localFilters]
  owned := by
    intro conn memberAddr topicFilters hmem
    cases hmem

/-- A step that changes neither the members nor the local row, and queues no
filters. -/
theorem Announced.quiet {node next : ClusterNode π} (h : Announced node)
    (hmembers : next.members = node.members) (hlocal : next.localFilters = node.localFilters)
    (hqueued : ∀ conn, next.queuedFilters conn = node.queuedFilters conn)
    (howned : RoutesOwned next.tasks) : Announced next where
  proper := by
    rw [hlocal]
    exact h.proper
  sound := by
    intro conn
    rw [hqueued, hlocal]
    exact h.sound conn
  complete := by
    intro memberAddr conn
    rw [hmembers, hlocal, hqueued]
    exact h.complete memberAddr conn
  owned := howned

/-- A connection that joins is sent the whole row. -/
theorem Announced.join {node : ClusterNode π} (h : Announced node) (conn : MemberConn) :
    Announced (node.handleClusterMemberOperation conn) := by
  have hlookup : ∀ {memberAddr receiver}, (node.members.insert (cstr (tmqTcpConnId conn))
      conn).lookup memberAddr = some receiver → receiver = conn ∨
        node.members.lookup memberAddr = some receiver := by
    intro memberAddr receiver hreceiver
    by_cases hown : memberAddr = cstr (tmqTcpConnId conn)
    · rw [hown, AList.lookup_insert] at hreceiver
      exact .inl (Option.some.inj hreceiver).symm
    · rw [AList.lookup_insert_ne hown] at hreceiver
      exact .inr hreceiver
  unfold handleClusterMemberOperation
  dsimp only
  cases hrow : node.routeTable localRow with
  | none =>
      have hnone : node.localFilters = [] := by
        rw [localFilters, hrow]
        rfl
      refine ⟨h.proper, h.sound, ?_, h.owned⟩
      intro memberAddr receiver hreceiver topicFilter hfilter
      change topicFilter ∈ node.localFilters at hfilter
      rw [hnone] at hfilter
      cases hfilter
  | some items =>
      have hnames : node.localFilters = items.map (·.topicFilterName) := by
        rw [localFilters, hrow]
        rfl
      have hsent : sentFilters (items.foldl (fun topicFilters item =>
          syncMsgAddTopic topicFilters item.topicFilterName) none) = node.localFilters := by
        have hproper := h.proper
        rw [hnames] at hproper
        rw [hnames, ← sentFilters_row hproper, List.foldl_map]
      dsimp only
      refine ⟨h.proper, ?_, ?_, h.owned⟩
      · intro receiver topicFilter hqueued
        rw [queuedFilters_push, List.mem_append] at hqueued
        rcases hqueued with hold | hnew
        · exact h.sound receiver topicFilter hold
        · rw [List.flatMap_singleton, ClusterMessage.announced, hsent] at hnew
          split at hnew
          · exact hnew
          · cases hnew
      · intro memberAddr receiver hreceiver topicFilter hfilter
        rw [queuedFilters_push, List.mem_append, List.flatMap_singleton,
          ClusterMessage.announced, hsent]
        rcases hlookup hreceiver with rfl | hold
        · rw [if_pos rfl]
          exact .inr hfilter
        · exact .inl (h.complete memberAddr receiver hold topicFilter hfilter)

/-- A filter that is added is sent to every member. -/
theorem Announced.addRoute {node next : ClusterNode π} (h : Announced node)
    {topicFilter : Bytes} {topicNode : List Bytes} {walk : List MemberConn}
    (hproper : ProperFilter (cstr topicFilter))
    (hadd : node.tmqClusterAddRoute topicFilter topicNode walk = some next) : Announced next := by
  obtain ⟨routeTable, htable, hwalked⟩ := Option.bind_eq_some_iff.mp hadd
  split at hwalked
  · rename_i hwalk
    obtain rfl := Option.some.inj hwalked
    have hnames : RouteTable.names routeTable localRow = cstr topicFilter :: node.localFilters := by
      rw [names_routeTableAddItem htable, if_pos (by decide)]
      rfl
    have hannounced : ∀ conn filter, filter ∈ (walk.map fun receiver =>
        (.routeSync receiver (some (tmqStrNew topicFilter)) : ClusterMessage π)).flatMap
          (·.announced conn) ↔ conn ∈ walk ∧ filter = cstr topicFilter := by
      intro conn filter
      rw [List.flatMap_map, List.mem_flatMap]
      simp only [ClusterMessage.announced, tmqStrNew_bytes, sentFilters_single hproper]
      constructor
      · rintro ⟨receiver, hreceiver, hfilter⟩
        split at hfilter
        · rename_i hsame
          exact ⟨hsame ▸ hreceiver, List.mem_singleton.mp hfilter⟩
        · cases hfilter
      · rintro ⟨hconn, rfl⟩
        exact ⟨conn, hconn, by simp⟩
    have hlocal : ∀ filter, filter ∈ RouteTable.names routeTable localRow ↔
        filter = cstr topicFilter ∨ filter ∈ node.localFilters := by
      intro filter
      rw [hnames, List.mem_cons]
    constructor
    · intro filter hfilter
      rcases (hlocal filter).mp hfilter with rfl | hold
      · exact hproper
      · exact h.proper filter hold
    · intro conn filter hqueued
      rw [queuedFilters_push, List.mem_append] at hqueued
      rcases hqueued with hold | hnew
      · exact (hlocal filter).mpr (.inr (h.sound conn filter hold))
      · exact (hlocal filter).mpr (.inl ((hannounced conn filter).mp hnew).2)
    · intro memberAddr conn hconn filter hfilter
      rw [queuedFilters_push, List.mem_append]
      rcases (hlocal filter).mp hfilter with rfl | hold
      · have hmember : conn ∈ walk := by
          rw [hwalk.mem_iff, List.mem_map]
          exact ⟨⟨memberAddr, conn⟩, AList.mem_lookup_iff.mp hconn, rfl⟩
        exact .inr ((hannounced conn _).mpr ⟨hmember, rfl⟩)
      · exact .inl (h.complete memberAddr conn hconn filter hold)
    · exact h.owned
  · cases hwalked

variable [TmqString π] (cJsonParse : π → Option J)

theorem announced_step {node next : ClusterNode π} (h : Announced node)
    (hstep : Step cJsonParse node next) : Announced next := by
  cases hstep with
  | opened conn hnext =>
      obtain rfl := hnext
      refine h.quiet rfl rfl (fun _ => rfl) (h.owned.append ?_)
      intro conn memberAddr topicFilters hmem
      simp at hmem
  | routesReceived conn topicFilters hconn hnext =>
      obtain rfl := hnext
      refine h.quiet rfl rfl (fun _ => rfl) (h.owned.append ?_)
      intro conn memberAddr topicFilters hmem
      simp only [List.mem_singleton, ClusterTask.routeOperation.injEq] at hmem
      rw [hmem.1, hmem.2.1]
  | requested origin req hflag hnext =>
      obtain rfl := hnext
      refine h.quiet rfl rfl (fun _ => rfl) (h.owned.append ?_)
      intro conn memberAddr topicFilters hmem
      simp at hmem
  | joined conn earlier later htasks hnext =>
      obtain rfl := hnext
      have hremoved : Announced { node with tasks := earlier ++ later } :=
        h.quiet rfl rfl (fun _ => rfl) (h.owned.remove htasks)
      exact hremoved.join conn
  | routed conn memberAddr topicFilters earlier later htasks hfirst hnext =>
      have hadded := routesAdded_handle hnext
      have hown : memberAddr = cstr (tmqTcpConnId conn) := by
        apply h.owned conn memberAddr topicFilters
        simp [htasks]
      refine h.quiet hadded.members ?_ ?_ ?_
      · apply hadded.names
        rw [hown, cstr_cstr]
        exact (tmqTcpConnId_ne_localRow conn).symm
      · intro receiver
        rw [queuedFilters, hadded.messageSendBox]
        rfl
      · rw [hadded.tasks]
        exact h.owned.remove htasks
  | published req walk tasks events htasks hnext =>
      obtain ⟨-, messages, rfl, hmessages⟩ := topicsPublish_cases cJsonParse hnext
      have hquiet : ∀ conn, messages.flatMap (·.announced conn) = [] := by
        intro conn
        rcases hmessages with ⟨-, rfl⟩ | ⟨-, -, hqueued⟩
        · rfl
        · obtain ⟨conns, -, rfl⟩ := mqttTunPublish_eq hqueued
          simp [ClusterMessage.announced]
      refine h.quiet rfl rfl ?_ ?_
      · intro conn
        rw [queuedFilters_push, hquiet, List.append_nil]
        rfl
      · rcases htasks with rfl | ⟨origin, earlier, later, htasks, rfl⟩
        · exact h.owned
        · exact h.owned.remove htasks
  | subscribed topicFilter clientId info walk hnext =>
      unfold subscribe at hnext
      split at hnext
      · cases hnext
      · rename_i hlength
        dsimp only at hnext
        have hsame : Announced { node with
            topics := (tmqTopicsAddSubscription node.topics topicFilter clientId info).2 } :=
          h.quiet rfl rfl (fun _ => rfl) h.owned
        split at hnext
        · obtain rfl := Option.some.inj hnext
          exact hsame
        · exact hsame.addRoute (properFilter_cstr hlength) hnext
  | unsubscribed topicFilter clientId hnext =>
      obtain ⟨topics, -, hsome⟩ := Option.bind_eq_some_iff.mp hnext
      obtain rfl := Option.some.inj hsome
      refine h.quiet rfl ?_ (fun _ => rfl) h.owned
      exact names_release node.routeTable topics.root localRow
  | listened topicFilter listener hnext =>
      obtain rfl := hnext
      exact h.quiet rfl rfl (fun _ => rfl) h.owned

/-- In every reachable state every member has been announced exactly the
filters of the local row. -/
theorem announcesRoutes_of_runs (calls : List (ClusterCall π)) (node : ClusterNode π)
    (hrun : Run.runs (ClusterCall.step cJsonParse) init calls = some node) :
    AnnouncesRoutes node := by
  have hannounced : Announced node := by
    refine Run.runs_maintains ?_ announced_init hrun
    intro node call next h hstep
    exact announced_step cJsonParse h (step_of_call cJsonParse hstep)
  intro memberAddr conn hconn topicFilter
  constructor
  · exact hannounced.sound conn topicFilter
  · exact hannounced.complete memberAddr conn hconn topicFilter

/-- The connection of a member at `10.0.0.2:1883`. -/
def sampleMember : MemberConn := ⟨1, ⟨(10, 0, 0, 2), 1883⟩⟩

/-- A subscription to `a`, a join and a subscription to `b`. -/
def sampleJoin : List (ClusterCall Bytes) :=
  [.subscribe [97] [112] ⟨0, 1⟩ [], .newConn sampleMember, .execute 0 [],
    .subscribe [98] [112] ⟨0, 1⟩ [sampleMember]]

theorem announcesRoutes_sampleJoin :
    ∃ node, Run.runs (ClusterCall.step parseDigit) init sampleJoin = some node ∧
      node.localFilters = [[98], [97]] ∧ AnnouncesRoutes node := by
  refine ⟨_, rfl, rfl, ?_⟩
  exact announcesRoutes_of_runs parseDigit sampleJoin _ rfl

end ClusterNode

end TinyMqtt
