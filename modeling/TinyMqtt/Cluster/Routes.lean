import TinyMqtt.Cluster.Announce
import TinyMqtt.Topic.Occupied

/-!
The pointers from the route table into the topic tree. Every item of the table
holds the node of its filter. Two places break this: a route message hands the
string of all its filters to the topic tree, which takes the first one each
time, and the pruning after an unsubscribe frees nodes that items point to.
-/

namespace TinyMqtt

variable {π J : Type}

/-! ### Items of a row -/

/-- The head of a row, if there is one, points to a node that is not freed. -/
def HeadLive (table : RouteTable) (row : Bytes) : Prop :=
  ∀ item ∈ ((table row).getD []).head?, item.posInTopicTree ≠ none

instance (table : RouteTable) (row : Bytes) : Decidable (HeadLive table row) :=
  inferInstanceAs (Decidable (∀ item ∈ ((table row).getD []).head?, item.posInTopicTree ≠ none))

theorem routeTableAddItem_eq (table : RouteTable) (memberAddr topicFilter : Bytes)
    (topicTreeNode : List Bytes) :
    routeTableAddItem table memberAddr topicFilter topicTreeNode
      = if HeadLive table (cstr memberAddr) then
          some (Function.update table (cstr memberAddr)
            (some (⟨some topicTreeNode, cstr topicFilter⟩ ::
              (table (cstr memberAddr)).getD [])))
        else none := by
  unfold routeTableAddItem HeadLive
  dsimp only
  split
  · rename_i hrow
    simp [hrow]
  · rename_i hrow
    simp [hrow]
  · rename_i head items hrow
    simp [hrow]

theorem headLive_update (table : RouteTable) (row : Bytes) (path : List Bytes) (name : Bytes)
    (items : List RouteTableItem) :
    HeadLive (Function.update table row (some (⟨some path, name⟩ :: items))) row := by
  intro item hitem
  rw [Function.update_self, Option.getD_some, List.head?_cons] at hitem
  obtain rfl := Option.some.inj hitem
  exact Option.some_ne_none _

namespace ClusterNode

/-! ### Route messages -/

/-- What the rounds for the filters of a message do when each is given the node
`path`. -/
structure RoutesInstalled (node next : ClusterNode π) (memberAddr : Bytes) (path : List Bytes)
    (filters : List Bytes) : Prop where
  row : (next.routeTable (cstr memberAddr)).getD []
    = (filters.map fun filter => ⟨some path, cstr filter⟩).reverse
      ++ (node.routeTable (cstr memberAddr)).getD []
  others : ∀ row, row ≠ cstr memberAddr → next.routeTable row = node.routeTable row
  members : ∀ p, cstr memberAddr ∈ (dataAt next.topics.root p).subscribeMembers ↔
    cstr memberAddr ∈ (dataAt node.topics.root p).subscribeMembers ∨ (filters ≠ [] ∧ p = path)
  nodes : ∀ p, next.topics.root.valueAt p ≠ none ↔
    (filters ≠ [] ∧ p <+: path) ∨ node.topics.root.valueAt p ≠ none

theorem addRoutes_installs {node : ClusterNode π} {memberAddr topicFilters : Bytes}
    {filters : List Bytes} (hlive : filters ≠ [] → HeadLive node.routeTable (cstr memberAddr)) :
    ∃ next, node.addRoutes memberAddr topicFilters filters = some next ∧
      RoutesInstalled node next memberAddr (tmqTopicSplit topicFilters) filters := by
  induction filters generalizing node with
  | nil => exact ⟨node, rfl, by simp, fun _ _ => rfl, by simp, by simp⟩
  | cons filter filters ih =>
      have hadd := routeTableAddItem_eq node.routeTable memberAddr filter
        (tmqTopicSplit topicFilters)
      rw [if_pos (hlive (List.cons_ne_nil _ _))] at hadd
      obtain ⟨next, hnext, hrow, hothers, hmembers, hnodes⟩ := @ih
        { node with
          topics := tmqTopicsAddRoute node.topics topicFilters memberAddr
          routeTable := Function.update node.routeTable (cstr memberAddr)
            (some (⟨some (tmqTopicSplit topicFilters), cstr filter⟩ ::
              (node.routeTable (cstr memberAddr)).getD [])) }
        fun _ => headLive_update _ _ _ _ _
      dsimp only at hrow hothers hmembers hnodes
      refine ⟨next, ?_, ?_, ?_, ?_, ?_⟩
      · rw [addRoutes, hadd]
        exact hnext
      · rw [hrow, Function.update_self]
        simp
      · intro row hrow
        rw [hothers row hrow, Function.update_of_ne hrow]
      · intro p
        rw [hmembers, tmqTopicsAddRoute, dataAt_addTopic]
        split
        · rename_i hpath
          simp [hpath]
        · rename_i hpath
          simp [hpath]
      · intro p
        rw [hnodes, tmqTopicsAddRoute, valueAt_addTopic_ne_none]
        simp
        tauto

theorem addRoutes_stuck {node : ClusterNode π} {memberAddr topicFilters : Bytes}
    {filters : List Bytes} (hne : filters ≠ [])
    (hdangling : ¬ HeadLive node.routeTable (cstr memberAddr)) :
    node.addRoutes memberAddr topicFilters filters = none := by
  obtain ⟨filter, rest, rfl⟩ := List.exists_cons_of_ne_nil hne
  rw [addRoutes, routeTableAddItem_eq, if_neg hdangling]
  rfl

/-- The string of a route message for these filters, as it is received: with
the terminator that is sent along. -/
def routeMessage (filters : List Bytes) : Bytes :=
  (filters.foldl syncMsgAddTopic none).getD [] ++ [0]

theorem routeFilters_routeMessage {filters : List Bytes}
    (hproper : ∀ f ∈ filters, ProperFilter f) :
    routeFilters [] (routeMessage filters ++ [0]) = some filters := by
  rw [routeMessage, foldl_syncMsgAddTopic hproper]
  split
  · rename_i hnil
    rw [hnil]
    rfl
  · have hread := routeFilters_flatMap hproper [0]
    simpa using hread

/-- As a C string the message is its first filter. -/
theorem cstr_routeMessage {filter : Bytes} {filters : List Bytes}
    (hproper : ∀ f ∈ filter :: filters, ProperFilter f) :
    cstr (routeMessage (filter :: filters)) = filter := by
  obtain ⟨hfilter, -⟩ := List.forall_mem_cons.mp hproper
  rw [routeMessage, foldl_syncMsgAddTopic hproper, if_neg (List.cons_ne_nil _ _)]
  simp only [Option.getD_some, Option.getD_none, List.nil_append, List.flatMap_cons,
    List.append_assoc]
  rw [cstr, List.takeWhile_append_of_pos]
  · simp
  · intro c hc
    have hne : c ≠ 0 := fun hzero => hfilter.2 (hzero ▸ hc)
    simpa using hne

/-- The routes of the filters are in the tree and in the row of the member, and
no others. -/
structure InstallsRoutes (node next : ClusterNode π) (memberAddr : Bytes) (filters : List Bytes) :
    Prop where
  members : ∀ path, cstr memberAddr ∈ (dataAt next.topics.root path).subscribeMembers ↔
    cstr memberAddr ∈ (dataAt node.topics.root path).subscribeMembers ∨
      path ∈ filters.map tmqTopicSplit
  row : ∃ items, (next.routeTable (cstr memberAddr)).getD []
      = items ++ (node.routeTable (cstr memberAddr)).getD [] ∧
    items.Perm (filters.map fun filter => ⟨some (tmqTopicSplit filter), filter⟩)

/-- Handling a route message ends after its last filter and installs the routes
of all of them. -/
def RouteSyncInstalls (node : ClusterNode π) (memberAddr : Bytes) (filters : List Bytes) : Prop :=
  routeFilters [] (routeMessage filters ++ [0]) = some filters ∧
    ∃ next, node.handleClusterRouteOperation memberAddr (routeMessage filters) = some next ∧
      InstallsRoutes node next memberAddr filters

theorem handleClusterRouteOperation_routeMessage {node : ClusterNode π} {memberAddr : Bytes}
    {filters : List Bytes} (hproper : ∀ f ∈ filters, ProperFilter f) :
    node.handleClusterRouteOperation memberAddr (routeMessage filters)
      = node.addRoutes memberAddr (routeMessage filters) filters := by
  rw [handleClusterRouteOperation, routeFilters_routeMessage hproper]
  rfl

/-- The node that each round is given is that of the first filter. -/
theorem tmqTopicSplit_routeMessage {filters : List Bytes}
    (hproper : ∀ f ∈ filters, ProperFilter f) (hsame : ∀ f ∈ filters, ∀ g ∈ filters, f = g)
    {f : Bytes} (hf : f ∈ filters) : tmqTopicSplit (routeMessage filters) = tmqTopicSplit f := by
  cases filters with
  | nil => cases hf
  | cons first rest =>
      rw [tmqTopicSplit_inj, cstr_routeMessage hproper, (hproper f hf).cstr_eq]
      exact hsame first List.mem_cons_self f hf

/-- Where each filter has its own node in the row, the one node given is that
of every filter. -/
theorem RoutesInstalled.same_of_installs {node next : ClusterNode π} {memberAddr : Bytes}
    {path : List Bytes} {filters : List Bytes}
    (h : RoutesInstalled node next memberAddr path filters)
    (hproper : ∀ f ∈ filters, ProperFilter f)
    (hinstalls : InstallsRoutes node next memberAddr filters) :
    ∀ f ∈ filters, ∀ g ∈ filters, f = g := by
  obtain ⟨items, hrow, hitems⟩ := hinstalls.row
  obtain rfl := List.append_cancel_right (h.row.symm.trans hrow)
  have hpath : ∀ f ∈ filters, tmqTopicSplit f = path := by
    intro f hf
    have hitem := hitems.mem_iff.mpr (List.mem_map.mpr ⟨f, hf, rfl⟩)
    rw [List.mem_reverse, List.mem_map] at hitem
    obtain ⟨g, -, hg⟩ := hitem
    exact (Option.some.inj (RouteTableItem.mk.inj hg).1).symm
  intro f hf g hg
  have hsplit := (hpath f hf).trans (hpath g hg).symm
  rwa [tmqTopicSplit_inj, (hproper f hf).cstr_eq, (hproper g hg).cstr_eq] at hsplit

theorem RoutesInstalled.installs {node next : ClusterNode π} {memberAddr : Bytes}
    {path : List Bytes} {filters : List Bytes}
    (h : RoutesInstalled node next memberAddr path filters)
    (hproper : ∀ f ∈ filters, ProperFilter f) (hpath : ∀ f ∈ filters, path = tmqTopicSplit f) :
    InstallsRoutes node next memberAddr filters := by
  refine ⟨?_, _, h.row, ?_⟩
  · intro p
    rw [h.members, List.mem_map]
    apply or_congr_right
    constructor
    · rintro ⟨hne, rfl⟩
      obtain ⟨f, hf⟩ := List.exists_mem_of_ne_nil _ hne
      exact ⟨f, hf, (hpath f hf).symm⟩
    · rintro ⟨f, hf, rfl⟩
      exact ⟨List.ne_nil_of_mem hf, (hpath f hf).symm⟩
  · have hitems : (filters.map fun filter => (⟨some path, cstr filter⟩ : RouteTableItem))
        = filters.map fun filter => ⟨some (tmqTopicSplit filter), filter⟩ := by
      apply List.map_congr_left
      intro f hf
      rw [hpath f hf, (hproper f hf).cstr_eq]
    rw [hitems]
    exact List.reverse_perm _

/-- A route message is installed just when all its filters are the same one,
and the head of the member's row is no dangling item. -/
theorem routeSyncInstalls_iff (node : ClusterNode π) (memberAddr : Bytes) (filters : List Bytes)
    (hproper : ∀ f ∈ filters, ProperFilter f) :
    RouteSyncInstalls node memberAddr filters ↔
      (∀ f ∈ filters, ∀ g ∈ filters, f = g) ∧
        (filters ≠ [] → HeadLive node.routeTable (cstr memberAddr)) := by
  have hhandle := @handleClusterRouteOperation_routeMessage π node memberAddr filters hproper
  constructor
  · rintro ⟨-, next, hnext, hinstalls⟩
    rw [hhandle] at hnext
    have hlive : filters ≠ [] → HeadLive node.routeTable (cstr memberAddr) := by
      intro hne
      by_contra hdangling
      rw [addRoutes_stuck hne hdangling] at hnext
      cases hnext
    obtain ⟨next', hnext', hinstalled⟩ := @addRoutes_installs π node memberAddr
      (routeMessage filters) filters hlive
    obtain rfl := Option.some.inj (hnext'.symm.trans hnext)
    exact ⟨hinstalled.same_of_installs hproper hinstalls, hlive⟩
  · rintro ⟨hsame, hlive⟩
    obtain ⟨next, hnext, hinstalled⟩ := @addRoutes_installs π node memberAddr
      (routeMessage filters) filters hlive
    exact ⟨routeFilters_routeMessage hproper, next, hhandle.trans hnext,
      hinstalled.installs hproper fun _ hf => tmqTopicSplit_routeMessage hproper hsame hf⟩

theorem routeSyncInstalls_iff_repeated :
    let filters : List Bytes := [[97], [97]]
    (∀ f ∈ filters, ProperFilter f) ∧
      (RouteSyncInstalls (init : ClusterNode Bytes) [109] filters ↔
        (∀ f ∈ filters, ∀ g ∈ filters, f = g) ∧
          (filters ≠ [] → HeadLive (init : ClusterNode Bytes).routeTable (cstr [109]))) :=
  ⟨by decide, routeSyncInstalls_iff init [109] [[97], [97]] (by decide)⟩

/-- Of the filters `a` and `b` only the first gets to the tree. -/
theorem not_routeSyncInstalls_two :
    let filters : List Bytes := [[97], [98]]
    (∀ f ∈ filters, ProperFilter f) ∧
      ¬ RouteSyncInstalls (init : ClusterNode Bytes) [109] filters := by
  refine ⟨by decide, ?_⟩
  rintro ⟨-, next, hnext, hmembers, -⟩
  obtain rfl := Option.some.inj hnext
  have hsecond := (hmembers [[98]]).mpr (.inr (by decide))
  revert hsecond
  decide

/-! ### Live items -/

/-- Every item of the route table points to the node of its filter, and that
node is in the tree. -/
def RoutesLive (node : ClusterNode π) : Prop :=
  ∀ row, ∀ item ∈ (node.routeTable row).getD [],
    item.posInTopicTree = some (tmqTopicSplit item.topicFilterName) ∧
      node.topics.root.valueAt (tmqTopicSplit item.topicFilterName) ≠ none

/-- Unsubscribing takes the last client from the subscribers of a node that has
no child and no retained message. -/
def FreesNode (root : TopicNode π) (topicFilter clientId : Bytes) : Prop :=
  ∃ subscribers, (dataAt root (tmqTopicSplit topicFilter)).subscribers = some subscribers ∧
    eraseSubscriber subscribers clientId = none ∧
    (∀ level, root.valueAt (tmqTopicSplit topicFilter ++ [level]) = none) ∧
    (dataAt root (tmqTopicSplit topicFilter)).retainMessage = none

/-- What keeps the items live: no empty filter is subscribed, whose item would
get a node that nobody set; no node is freed; and a route operation that is
handled has one filter in its message, perhaps several times. -/
def KeepsRoutes (node : ClusterNode π) : ClusterCall π → Prop
  | .subscribe topicFilter _ _ _ => cstr topicFilter ≠ []
  | .unsubscribe topicFilter clientId => ¬ FreesNode node.topics.root topicFilter clientId
  | .execute index _ => ∀ conn memberAddr topicFilters filters,
      node.tasks[index]? = some (.routeOperation conn memberAddr topicFilters) →
      routeFilters [] (topicFilters ++ [0]) = some filters →
      ∀ filter ∈ filters, filter = cstr topicFilters
  | _ => True

/-- Without an item for a freed node no call follows a dangling pointer. -/
theorem RoutesLive.addItem {node : ClusterNode π} (h : RoutesLive node)
    (memberAddr topicFilter : Bytes) (topicTreeNode : List Bytes) :
    routeTableAddItem node.routeTable memberAddr topicFilter topicTreeNode ≠ none := by
  rw [routeTableAddItem_eq, if_pos]
  · exact Option.some_ne_none _
  · intro item hitem
    rw [(h _ item (List.mem_of_mem_head? hitem)).1]
    exact Option.some_ne_none _

/-- A step that leaves the table alone and removes no node. -/
theorem RoutesLive.of_grown {node next : ClusterNode π} (h : RoutesLive node)
    (htable : next.routeTable = node.routeTable)
    (hnodes : ∀ path, node.topics.root.valueAt path ≠ none →
      next.topics.root.valueAt path ≠ none) : RoutesLive next := by
  intro row item hitem
  rw [htable] at hitem
  obtain ⟨hpos, hexists⟩ := h row item hitem
  exact ⟨hpos, hnodes _ hexists⟩

/-- A step that adds items for one filter, whose node is in the tree then. -/
theorem RoutesLive.of_items {node next : ClusterNode π} (h : RoutesLive node)
    {memberAddr topicFilter : Bytes} {filters : List Bytes}
    (hrow : (next.routeTable (cstr memberAddr)).getD []
      = (filters.map fun filter => ⟨some (tmqTopicSplit topicFilter), cstr filter⟩).reverse
        ++ (node.routeTable (cstr memberAddr)).getD [])
    (hothers : ∀ row, row ≠ cstr memberAddr → next.routeTable row = node.routeTable row)
    (hfilters : ∀ filter ∈ filters, cstr filter = cstr topicFilter ∧
      next.topics.root.valueAt (tmqTopicSplit topicFilter) ≠ none)
    (hnodes : ∀ path, node.topics.root.valueAt path ≠ none →
      next.topics.root.valueAt path ≠ none) : RoutesLive next := by
  intro row item hitem
  by_cases hmember : row = cstr memberAddr
  · rw [hmember, hrow, List.mem_append, List.mem_reverse, List.mem_map] at hitem
    rcases hitem with ⟨filter, hfilter, rfl⟩ | hitem
    · have hpath : tmqTopicSplit (cstr filter) = tmqTopicSplit topicFilter := by
        rw [tmqTopicSplit_inj, cstr_cstr, (hfilters filter hfilter).1]
      rw [hpath]
      exact ⟨rfl, (hfilters filter hfilter).2⟩
    · obtain ⟨hpos, hexists⟩ := h _ item hitem
      exact ⟨hpos, hnodes _ hexists⟩
  · rw [hothers row hmember] at hitem
    obtain ⟨hpos, hexists⟩ := h row item hitem
    exact ⟨hpos, hnodes _ hexists⟩

/-! ### Steps -/

/-- An unsubscribe that takes not the last purpose of a node frees none. -/
theorem valueAt_removeSubscription_of_kept {topics next : Topics π} {topicFilter clientId : Bytes}
    (hkept : ¬ FreesNode topics.root topicFilter clientId)
    (hremove : tmqTopicsRemoveSubscription topics topicFilter clientId = some next)
    (path : List Bytes) : next.root.valueAt path ≠ none ↔ topics.root.valueAt path ≠ none := by
  rcases removeSubscription_cases hremove with rfl | ⟨subscribers, htable, rfl⟩
  · exact Iff.rfl
  · have hexists := exists_of_table htable
    rw [← valueAt_withoutSubscription _ _ clientId subscribers] at hexists
    obtain ⟨found, hfind⟩ := Trie.exists_find?_of_valueAt hexists
    have hstays : ¬ removable found = true := by
      intro hremovable
      obtain ⟨hsubscribers, hchildren, hretain⟩ := (removable_iff hfind).mp hremovable
      apply hkept
      rw [dataAt_withoutSubscription htable, if_pos rfl] at hsubscribers
      rw [retain_withoutSubscription htable] at hretain
      refine ⟨subscribers, htable, hsubscribers, ?_, hretain⟩
      intro level
      by_contra hchild
      exact (valueAt_withoutSubscription _ _ clientId subscribers _).mpr hchild (hchildren level)
    dsimp only
    obtain ⟨level, parent, hreversed⟩ := List.exists_cons_of_ne_nil
      (List.reverse_ne_nil_iff.mpr (tmqTopicSplit_ne_nil topicFilter))
    have hlevels : (level :: parent).reverse = tmqTopicSplit topicFilter := by
      rw [← hreversed, List.reverse_reverse]
    rw [hreversed, tryRemoveTopic, hlevels, hfind]
    dsimp only
    rw [if_neg hstays, valueAt_withoutSubscription]

theorem RoutesLive.unsubscribe {node next : ClusterNode π} (h : RoutesLive node)
    {topicFilter clientId : Bytes} (hkept : ¬ FreesNode node.topics.root topicFilter clientId)
    (hnext : node.unsubscribe topicFilter clientId = some next) : RoutesLive next := by
  obtain ⟨topics, hremove, hsome⟩ := Option.bind_eq_some_iff.mp hnext
  obtain rfl := Option.some.inj hsome
  have hnodes := valueAt_removeSubscription_of_kept hkept hremove
  intro row item hitem
  dsimp only at hitem ⊢
  cases hrow : node.routeTable row with
  | none =>
      rw [hrow] at hitem
      cases hitem
  | some items =>
      rw [hrow, Option.map_some, Option.getD_some, List.mem_map] at hitem
      obtain ⟨old, hold, rfl⟩ := hitem
      obtain ⟨hpos, hexists⟩ := h row old (by rw [hrow]; exact hold)
      have hexists' := (hnodes _).mpr hexists
      refine ⟨?_, hexists'⟩
      rw [RouteTableItem.release, hpos, Option.filter_some, if_pos]
      exact Option.isSome_iff_exists.mpr (Trie.exists_find?_of_valueAt hexists')

theorem RoutesLive.subscribe {node next : ClusterNode π} (h : RoutesLive node)
    {topicFilter clientId : Bytes} {info : SubscribeInfo} {walk : List MemberConn}
    (hnext : node.subscribe topicFilter clientId info walk = some next) : RoutesLive next := by
  unfold ClusterNode.subscribe at hnext
  split at hnext
  · cases hnext
  · rename_i hlength
    dsimp only at hnext
    have hroot : (tmqTopicsAddSubscription node.topics topicFilter clientId info).2.root
        = (addTopic node.topics.root topicFilter).modifyValue (TopicData.subscribe clientId info)
          (tmqTopicSplit topicFilter) := by
      simp only [tmqTopicsAddSubscription, hlength, ↓reduceIte]
    have hnodes : ∀ path, (tmqTopicsAddSubscription node.topics topicFilter clientId
        info).2.root.valueAt path ≠ none ↔ path <+: tmqTopicSplit topicFilter ∨
          node.topics.root.valueAt path ≠ none := by
      intro path
      rw [hroot]
      exact valueAt_addTopic_ne_none _ _ _ _
    split at hnext
    · obtain rfl := Option.some.inj hnext
      refine @RoutesLive.of_grown π node _ h rfl ?_
      intro path hexists
      exact (hnodes path).mpr (.inr hexists)
    · obtain ⟨routeTable, hadd, hwalked⟩ := Option.bind_eq_some_iff.mp hnext
      split at hwalked
      · obtain rfl := Option.some.inj hwalked
        rw [routeTableAddItem_eq] at hadd
        split at hadd
        · obtain rfl := Option.some.inj hadd
          refine @RoutesLive.of_items π node _ h localRow topicFilter [topicFilter] ?_ ?_ ?_ ?_
          · simp [push]
          · intro row hrow
            simp [push, Function.update_of_ne hrow]
          · intro filter hfilter
            rw [List.mem_singleton.mp hfilter]
            exact ⟨rfl, (hnodes _).mpr (.inl List.prefix_rfl)⟩
          · intro path hexists
            exact (hnodes path).mpr (.inr hexists)
        · cases hadd
      · cases hwalked

theorem RoutesLive.routeOperation {node next : ClusterNode π} (h : RoutesLive node)
    {memberAddr topicFilters : Bytes}
    (hsame : ∀ filters, routeFilters [] (topicFilters ++ [0]) = some filters →
      ∀ filter ∈ filters, filter = cstr topicFilters)
    (hnext : node.handleClusterRouteOperation memberAddr topicFilters = some next) :
    RoutesLive next := by
  obtain ⟨filters, hfilters, hadd⟩ := Option.bind_eq_some_iff.mp hnext
  have hlive : HeadLive node.routeTable (cstr memberAddr) := by
    intro item hitem
    rw [(h _ item (List.mem_of_mem_head? hitem)).1]
    exact Option.some_ne_none _
  obtain ⟨next', hnext', hinstalled⟩ := @addRoutes_installs π node memberAddr topicFilters filters
    fun _ => hlive
  obtain rfl := Option.some.inj (hnext'.symm.trans hadd)
  refine @RoutesLive.of_items π node _ h memberAddr topicFilters filters hinstalled.row
    hinstalled.others ?_ ?_
  · intro filter hfilter
    rw [hsame filters hfilters filter hfilter, cstr_cstr]
    exact ⟨rfl, (hinstalled.nodes _).mpr (.inl ⟨List.ne_nil_of_mem hfilter, List.prefix_rfl⟩)⟩
  · intro path hexists
    exact (hinstalled.nodes path).mpr (.inr hexists)

section Runs

variable [TmqString π] (cJsonParse : π → Option J)

theorem RoutesLive.publish {node next : ClusterNode π} (h : RoutesLive node) {req : PublishReq π}
    {walk : List Bytes} {events : List (MatchEvent J)}
    (hpublish : node.topicsPublish cJsonParse req walk = some (next, events)) :
    RoutesLive next := by
  obtain ⟨-, messages, rfl, -⟩ := topicsPublish_cases cJsonParse hpublish
  refine @RoutesLive.of_grown π node _ h rfl ?_
  intro path hexists
  simp only [push, tmqTopicsPublish]
  cases hretain : req.retain with
  | false =>
      rw [matchNode_unretained]
      exact hexists
  | true => exact (valueAt_matchNode_ne_none cJsonParse req [] _ _ path).mpr (.inr hexists)

theorem RoutesLive.execute {node next : ClusterNode π} (h : RoutesLive node) {index : Nat}
    {walk : List Bytes} (hallowed : KeepsRoutes node (.execute index walk))
    (hexecute : node.execute cJsonParse index walk = some next) : RoutesLive next := by
  unfold ClusterNode.execute at hexecute
  cases hdrop : node.tasks.drop index with
  | nil =>
      rw [hdrop] at hexecute
      cases hexecute
  | cons task later =>
      rw [hdrop] at hexecute
      dsimp only at hexecute
      have htask : node.tasks[index]? = some task := by
        rw [← List.head?_drop, hdrop]
        rfl
      have hwaiting : ∀ tasks, RoutesLive { node with tasks := tasks } := fun _ => h
      split at hexecute
      · cases task with
        | memberOperation conn =>
            obtain rfl := Option.some.inj hexecute
            unfold handleClusterMemberOperation
            dsimp only
            split
            · exact h
            · exact h
        | routeOperation conn memberAddr topicFilters =>
            apply (hwaiting _).routeOperation _ hexecute
            intro filters hfilters
            exact hallowed conn memberAddr topicFilters filters htask hfilters
        | publishReq origin req =>
            obtain ⟨⟨final, events⟩, hpublish, rfl⟩ := Option.map_eq_some_iff.mp hexecute
            exact (hwaiting _).publish cJsonParse hpublish
      · cases hexecute

theorem routesLive_step {node next : ClusterNode π} (h : RoutesLive node) {call : ClusterCall π}
    (hallowed : KeepsRoutes node call) (hstep : call.step cJsonParse node = some next) :
    RoutesLive next := by
  cases call with
  | newConn conn =>
      obtain rfl := Option.some.inj hstep
      exact h
  | addRouteMessage conn topicFilters =>
      simp only [ClusterCall.step, addRouteMessageHandler] at hstep
      split at hstep
      · obtain rfl := Option.some.inj hstep
        exact h
      · cases hstep
  | tunnelPublish pkt =>
      obtain rfl := Option.some.inj hstep
      exact h
  | clientPublish topic message retain username clientId =>
      obtain rfl := Option.some.inj hstep
      exact h
  | execute index walk => exact h.execute cJsonParse hallowed hstep
  | publishWill topic message retain username clientId walk =>
      obtain ⟨⟨final, events⟩, hpublish, rfl⟩ := Option.map_eq_some_iff.mp hstep
      exact h.publish cJsonParse hpublish
  | subscribe topicFilter clientId info walk => exact h.subscribe hstep
  | unsubscribe topicFilter clientId => exact h.unsubscribe hallowed hstep
  | addListener topicFilter listener =>
      obtain rfl := Option.some.inj hstep
      refine @RoutesLive.of_grown π node _ h rfl ?_
      intro path hexists
      simp only [tmqTopicsAddListener]
      rw [valueAt_addTopic_ne_none]
      exact .inr hexists

/-- When no empty filter is subscribed, no unsubscribe frees a node and each
route message that is handled has one filter, every item points to the node of its filter, and
`route_table_add_item` meets no dangling pointer. The clean-up of a session is
an unsubscribe of each of its filters. -/
theorem routesLive_of_runs (calls : List (ClusterCall π)) (node : ClusterNode π)
    (hrun : Run.runs (ClusterCall.step cJsonParse) init calls = some node)
    (hcalls : Run.Admissible KeepsRoutes (ClusterCall.step cJsonParse) init calls) :
    RoutesLive node ∧ ∀ memberAddr topicFilter topicTreeNode,
      routeTableAddItem node.routeTable memberAddr topicFilter topicTreeNode ≠ none := by
  have hlive : RoutesLive node := by
    refine Run.runs_preserves ?_ ?_ hcalls hrun
    · intro node call next h hallowed hstep
      exact routesLive_step cJsonParse h hallowed hstep
    · intro row item hitem
      cases hitem
  exact ⟨hlive, hlive.addItem⟩

end Runs

/-- Two clients subscribe `a`, one unsubscribes it, and a member routes `b`. -/
def liveCalls : List (ClusterCall Bytes) :=
  [.subscribe [97] [112] ⟨0, 1⟩ [], .subscribe [97] [113] ⟨1, 1⟩ [], .unsubscribe [97] [112],
    .newConn sampleMember, .addRouteMessage sampleMember [98, 0, 0], .execute 0 [], .execute 0 []]

theorem routesLive_of_runs_sample :
    ∃ node, Run.runs (ClusterCall.step parseDigit) init liveCalls = some node ∧
      Run.Admissible KeepsRoutes (ClusterCall.step parseDigit) init liveCalls ∧
      RoutesLive node ∧ ∀ memberAddr topicFilter topicTreeNode,
        routeTableAddItem node.routeTable memberAddr topicFilter topicTreeNode ≠ none := by
  have hcalls : Run.Admissible KeepsRoutes (ClusterCall.step parseDigit) init liveCalls := by
    refine ⟨show [(97 : UInt8)] ≠ [] by decide, show [(97 : UInt8)] ≠ [] by decide, ?_, trivial,
      trivial, ?_, ?_, trivial⟩
    · rintro ⟨subscribers, hsubscribers, herased, -⟩
      obtain rfl := Option.some.inj hsubscribers
      revert herased
      decide
    · intro conn memberAddr topicFilters filters htask hfilters
      cases htask
    · intro conn memberAddr topicFilters filters htask hfilters
      cases htask
      cases hfilters
      decide
  exact ⟨_, rfl, hcalls, routesLive_of_runs parseDigit liveCalls _ rfl hcalls⟩

/-- The last subscriber of `a` leaves, and the item of `a` has lost its node. -/
theorem not_routesLive_unsubscribed :
    ¬ ∀ calls node, Run.runs (ClusterCall.step parseDigit) init calls = some node →
      RoutesLive node := by
  intro hall
  have hlive := hall [.subscribe [97] [112] ⟨0, 1⟩ [], .unsubscribe [97] [112]] _ rfl localRow
    ⟨none, [97]⟩ (by decide)
  cases hlive.1

end ClusterNode

end TinyMqtt
