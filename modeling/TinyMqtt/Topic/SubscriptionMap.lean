import TinyMqtt.Lib.Run
import TinyMqtt.Topic.Spec

/-!
The topic tree as a map from filters and clients to subscriptions. Every
filter that names a node with a subscribers table can be unsubscribed, and so
can every filter that names no node. A node without a table is in the tree
only on the way to a longer subscribed filter, and unsubscribing it follows a
null pointer.
-/

namespace TinyMqtt

variable {π : Type}

abbrev NonemptyFilter := { filter : Bytes // cstr filter ≠ [] }

inductive SubscriptionCall where
  | add (topicFilter : NonemptyFilter) (clientId : Bytes) (info : SubscribeInfo)
  | remove (topicFilter : NonemptyFilter) (clientId : Bytes)

def SubscriptionCall.step (topics : Topics π) : SubscriptionCall → Option (Topics π)
  | .add topicFilter clientId info =>
      some (tmqTopicsAddSubscription topics topicFilter clientId info).2
  | .remove topicFilter clientId => tmqTopicsRemoveSubscription topics topicFilter clientId

/-- The QoS of the subscriptions by filter and client identifier. -/
abbrev SubscriptionMap := Bytes → Bytes → Option UInt8

def SubscriptionMap.set (subscriptions : SubscriptionMap) (topicFilter clientId : Bytes)
    (qos : Option UInt8) : SubscriptionMap :=
  fun filter client =>
    if filter = cstr topicFilter ∧ client = cstr clientId then qos else subscriptions filter client

def SubscriptionCall.mapStep (subscriptions : SubscriptionMap) : SubscriptionCall → SubscriptionMap
  | .add topicFilter clientId info => subscriptions.set topicFilter clientId (some info.qos)
  | .remove topicFilter clientId => subscriptions.set topicFilter clientId none

/-- The QoS a tree holds for a client under a filter. -/
def qosAt (root : TopicNode π) (path : List Bytes) (clientId : Bytes) : Option UInt8 :=
  (dataAt root path).subscribers.bind fun subscribers =>
    (subscribers.lookup clientId).map SubscribeInfo.qos

/-- The tree holds the subscriptions of the map and no others. -/
structure HoldsMap (root : TopicNode π) (subscriptions : SubscriptionMap) : Prop where
  holds : ∀ filter clientId,
    qosAt root (tmqTopicSplit filter) clientId = subscriptions (cstr filter) clientId
  filters : ∀ path, (dataAt root path).subscribers ≠ none → ∃ filter, path = tmqTopicSplit filter

/-- Unsubscribing a filter is defined: somebody has subscribed it, or it is
not the beginning of a longer subscribed filter. -/
def SubscriptionCall.Defined (subscriptions : SubscriptionMap) : SubscriptionCall → Prop
  | .add _ _ _ => True
  | .remove topicFilter _ =>
      (∃ clientId, subscriptions (cstr topicFilter) clientId ≠ none) ∨
        ∀ filter clientId, subscriptions (cstr filter) clientId ≠ none →
          tmqTopicSplit topicFilter <+: tmqTopicSplit filter →
          tmqTopicSplit topicFilter = tmqTopicSplit filter

/-- A node below the root is needed: it has subscribers, a child or a retained
message. -/
def Needed (root : TopicNode π) (path : List Bytes) : Prop :=
  root.valueAt path ≠ none → (dataAt root path).subscribers ≠ none ∨
    (∃ level, root.valueAt (path ++ [level]) ≠ none) ∨ (dataAt root path).retainMessage ≠ none

/-- The invariant of trees that only subscriptions have built. -/
structure SubscriptionTree (root : TopicNode π) : Prop where
  needed : ∀ path, path ≠ [] → Needed root path
  tables : ∀ path subscribers, (dataAt root path).subscribers = some subscribers →
    subscribers.entries ≠ []
  unretained : ∀ path, (dataAt root path).retainMessage = none

/-! ### Subscribing -/

theorem split_ne_nil_of_nonempty (topicFilter : NonemptyFilter) :
    ¬ (cstr topicFilter.1).length < 1 := by
  rw [Nat.lt_one_iff, List.length_eq_zero_iff]
  exact topicFilter.2

theorem root_addSubscription (topics : Topics π) (topicFilter : NonemptyFilter) (clientId : Bytes)
    (info : SubscribeInfo) :
    (tmqTopicsAddSubscription topics topicFilter clientId info).2.root
      = (addTopic topics.root topicFilter).modifyValue (TopicData.subscribe clientId info)
        (tmqTopicSplit topicFilter) := by
  simp only [tmqTopicsAddSubscription, split_ne_nil_of_nonempty topicFilter, ↓reduceIte]

theorem holdsMap_add {topics : Topics π} {subscriptions : SubscriptionMap}
    (h : HoldsMap topics.root subscriptions) (topicFilter : NonemptyFilter) (clientId : Bytes)
    (info : SubscribeInfo) :
    HoldsMap (tmqTopicsAddSubscription topics topicFilter clientId info).2.root
      (subscriptions.set topicFilter clientId (some info.qos)) := by
  rw [root_addSubscription]
  constructor
  · intro filter client
    have hbefore := h.holds filter client
    unfold qosAt at *
    rw [dataAt_addTopic, SubscriptionMap.set]
    by_cases hfilter : cstr filter = cstr topicFilter
    · rw [if_pos (tmqTopicSplit_inj.mpr hfilter)]
      by_cases hclient : client = cstr clientId
      · rw [if_pos ⟨hfilter, hclient⟩, hclient, TopicData.subscribe, Option.bind_some,
          AList.lookup_insert]
        rfl
      · rw [if_neg (by simp [hclient]), ← hbefore, TopicData.subscribe, Option.bind_some,
          AList.lookup_insert_ne hclient]
        cases (dataAt topics.root (tmqTopicSplit filter)).subscribers with
        | none => rfl
        | some subscribers => rfl
    · rw [if_neg (mt tmqTopicSplit_inj.mp hfilter), if_neg (by simp [hfilter])]
      exact hbefore
  · intro path hpath
    rw [dataAt_addTopic] at hpath
    split at hpath
    · rename_i hsame
      exact ⟨topicFilter, hsame⟩
    · exact h.filters path hpath

theorem subscriptionTree_add {topics : Topics π} (h : SubscriptionTree topics.root)
    (topicFilter : NonemptyFilter) (clientId : Bytes) (info : SubscribeInfo) :
    SubscriptionTree (tmqTopicsAddSubscription topics topicFilter clientId info).2.root := by
  rw [root_addSubscription]
  constructor
  · intro path hne hexists
    rw [valueAt_addTopic_ne_none] at hexists
    rw [dataAt_addTopic]
    by_cases hsame : path = tmqTopicSplit topicFilter
    · rw [if_pos hsame]
      exact .inl (by simp [TopicData.subscribe])
    · rw [if_neg hsame]
      by_cases hstarts : path <+: tmqTopicSplit topicFilter
      · obtain ⟨rest, hrest⟩ := hstarts
        cases rest with
        | nil => exact (hsame (by simpa using hrest)).elim
        | cons level rest =>
            refine .inr (.inl ⟨level, ?_⟩)
            rw [valueAt_addTopic_ne_none]
            exact .inl ⟨rest, by simpa using hrest⟩
      · have hold := hexists.resolve_left hstarts
        refine (h.needed path hne hold).imp_right ?_
        rintro (⟨level, hlevel⟩ | hretain)
        · exact .inl ⟨level, by rw [valueAt_addTopic_ne_none]; exact .inr hlevel⟩
        · exact .inr hretain
  · intro path subscribers hsubscribers
    rw [dataAt_addTopic] at hsubscribers
    split at hsubscribers
    · obtain rfl := Option.some.inj hsubscribers
      simp [AList.insert, List.kinsert]
    · exact h.tables path subscribers hsubscribers
  · intro path
    rw [dataAt_addTopic]
    split
    · exact h.unretained path
    · exact h.unretained path

/-! ### Unsubscribing -/

theorem holdsMap_remove {topics : Topics π} {subscriptions : SubscriptionMap}
    (h : HoldsMap topics.root subscriptions) {topicFilter : Bytes} {subscribers : SubscribeMap}
    (htable : (dataAt topics.root (tmqTopicSplit topicFilter)).subscribers = some subscribers)
    (clientId : Bytes) :
    HoldsMap (tryRemoveTopic (withoutSubscription topics.root topicFilter clientId subscribers)
        (tmqTopicSplit topicFilter).reverse)
      (subscriptions.set topicFilter clientId none) := by
  constructor
  · intro filter client
    have hbefore := h.holds filter client
    unfold qosAt at *
    rw [subscribers_removeSubscription htable, SubscriptionMap.set]
    by_cases hfilter : cstr filter = cstr topicFilter
    · have hsplit := tmqTopicSplit_inj.mpr hfilter
      rw [if_pos hsplit]
      rw [hsplit, htable, Option.bind_some] at hbefore
      have hlookup := congrArg (Option.map SubscribeInfo.qos)
        (eraseSubscriber_lookup subscribers clientId client)
      rw [Option.map_bind] at hlookup
      refine hlookup.trans ?_
      by_cases hclient : client = cstr clientId
      · rw [if_pos hclient, if_pos ⟨hfilter, hclient⟩]
        rfl
      · rw [if_neg hclient, if_neg (by simp [hclient])]
        exact hbefore
    · rw [if_neg (mt tmqTopicSplit_inj.mp hfilter), if_neg (by simp [hfilter])]
      exact hbefore
  · intro path hpath
    rw [subscribers_removeSubscription htable] at hpath
    split at hpath
    · rename_i hsame
      exact ⟨topicFilter, hsame⟩
    · exact h.filters path hpath

/-- A removal of a filter that nobody has subscribed changes no map. -/
theorem SubscriptionMap.set_none {subscriptions : SubscriptionMap} {topicFilter : Bytes}
    (habsent : ∀ clientId, subscriptions (cstr topicFilter) clientId = none) (clientId : Bytes) :
    subscriptions.set topicFilter clientId none = subscriptions := by
  funext filter client
  rw [SubscriptionMap.set]
  split
  · rename_i hsame
    rw [hsame.1, habsent]
  · rfl

/-- The pruning leaves only nodes that are needed, or that hold something it
does not look at, when only the node it starts at may have lost its purpose. -/
theorem kept_tryRemoveTopic (Holds : TopicData π → Prop) {root : TopicNode π}
    {reversed : List Bytes}
    (h : ∀ path, path ≠ [] → path ≠ reversed.reverse →
      Needed root path ∨ Holds (dataAt root path)) :
    ∀ path, path ≠ [] → (tryRemoveTopic root reversed).valueAt path ≠ none →
      Needed (tryRemoveTopic root reversed) path ∨
        Holds (dataAt (tryRemoveTopic root reversed) path) := by
  induction reversed generalizing root with
  | nil =>
      intro path hne _
      exact h path hne hne
  | cons level parent ih =>
      unfold tryRemoveTopic
      cases hfind : root.find? (level :: parent).reverse with
      | none =>
          intro path hne hexists
          apply h path hne
          rintro rfl
          apply hexists
          dsimp only
          rw [Trie.valueAt, hfind]
          rfl
      | some node =>
          dsimp only
          split
          · apply ih
            intro path hne hparent
            by_cases hoff : parent.reverse ++ [level] <+: path
            · left
              intro hexists
              rw [Trie.valueAt_eraseChild, if_pos hoff] at hexists
              exact (hexists rfl).elim
            · have hkept : dataAt (root.eraseChild parent.reverse level) path = dataAt root path := by
                rw [dataAt, dataAt, Trie.valueAt_eraseChild, if_neg hoff]
              have hother : path ≠ (level :: parent).reverse := by
                rintro rfl
                exact hoff (by simp)
              rw [hkept]
              refine (h path hne hother).imp_left fun hneeded hexists => ?_
              rw [Trie.valueAt_eraseChild, if_neg hoff] at hexists
              rw [hkept]
              refine (hneeded hexists).imp_right (Or.imp_left ?_)
              rintro ⟨next, hnext⟩
              refine ⟨next, ?_⟩
              rw [Trie.valueAt_eraseChild, if_neg]
              · exact hnext
              · intro hstarts
                rcases List.prefix_concat_iff.mp hstarts with hsame | hshorter
                · exact hparent (List.append_inj_left' hsame rfl).symm
                · exact hoff hshorter
          · rename_i hstays
            intro path hne _
            by_cases hsame : path = (level :: parent).reverse
            · subst hsame
              left
              intro _
              rw [removable_iff hfind] at hstays
              by_contra hunneeded
              push Not at hunneeded
              exact hstays hunneeded
            · exact h path hne hsame

/-- The pruning leaves only needed nodes, when only the node it starts at may
have lost its purpose. -/
theorem needed_tryRemoveTopic {root : TopicNode π} {reversed : List Bytes}
    (h : ∀ path, path ≠ [] → path ≠ reversed.reverse → Needed root path) :
    ∀ path, path ≠ [] → Needed (tryRemoveTopic root reversed) path := by
  intro path hne hexists
  refine ((kept_tryRemoveTopic (fun _ => False) ?_ path hne hexists).resolve_right id) hexists
  intro path hne hother
  exact .inl (h path hne hother)

theorem subscriptionTree_remove {topics : Topics π} (h : SubscriptionTree topics.root)
    {topicFilter : Bytes} {subscribers : SubscribeMap}
    (htable : (dataAt topics.root (tmqTopicSplit topicFilter)).subscribers = some subscribers)
    (clientId : Bytes) :
    SubscriptionTree (tryRemoveTopic
      (withoutSubscription topics.root topicFilter clientId subscribers)
      (tmqTopicSplit topicFilter).reverse) := by
  constructor
  · apply needed_tryRemoveTopic
    intro path hne hother hexists
    rw [List.reverse_reverse] at hother
    unfold withoutSubscription at *
    rw [modifyValue_isSome] at hexists
    rw [dataAt_modifyValue (exists_of_table htable), if_neg hother]
    simp only [modifyValue_isSome]
    exact h.needed path hne hexists
  · intro path table hpath
    rw [subscribers_removeSubscription htable] at hpath
    split at hpath
    · exact eraseSubscriber_nonempty hpath
    · exact h.tables path table hpath
  · intro path
    rw [(dataAt_tryRemoveTopic _ _ _).2, withoutSubscription,
      dataAt_modifyValue (exists_of_table htable)]
    split
    · exact h.unretained path
    · exact h.unretained path

/-! ### Definedness -/

/-- A table has a client. -/
theorem SubscriptionTree.exists_client {root : TopicNode π} (h : SubscriptionTree root)
    {path : List Bytes} (htable : (dataAt root path).subscribers ≠ none) :
    ∃ clientId, qosAt root path clientId ≠ none := by
  obtain ⟨subscribers, hsubscribers⟩ := Option.ne_none_iff_exists'.mp htable
  obtain ⟨entry, hentry⟩ := List.exists_mem_of_ne_nil _ (h.tables path subscribers hsubscribers)
  have hlookup : subscribers.lookup entry.1 = some entry.2 := AList.mem_lookup_iff.mpr hentry
  refine ⟨entry.1, ?_⟩
  rw [qosAt, hsubscribers, Option.bind_some, hlookup]
  simp

/-- Below a node without a table there is one with a table. -/
theorem SubscriptionTree.exists_longer {root : TopicNode π} (h : SubscriptionTree root)
    {path : List Bytes} (hne : path ≠ []) (hexists : root.valueAt path ≠ none) :
    ∃ rest, (dataAt root (path ++ rest)).subscribers ≠ none := by
  obtain ⟨node, hnode⟩ := Trie.exists_find?_of_valueAt hexists
  have hbelow : ∀ rest, root.valueAt (path ++ rest) = node.valueAt rest := by
    intro rest
    rw [Trie.valueAt_append, hnode, Option.bind_some]
  obtain ⟨rest, data, hdata, htable⟩ := Trie.exists_valueAt_of_descends
    (P := fun data : TopicData π => data.subscribers ≠ none) node fun rest data hdata => by
      rw [← hbelow] at hdata
      rw [← dataAt_of_valueAt hdata]
      refine (h.needed (path ++ rest) (by simp [hne]) (by simp [hdata])).imp_right ?_
      rintro (⟨level, hlevel⟩ | hretain)
      · refine ⟨level, ?_⟩
        rwa [← hbelow, ← List.append_assoc]
      · exact (hretain (h.unretained _)).elim
  rw [← hbelow] at hdata
  refine ⟨rest, ?_⟩
  rwa [dataAt_of_valueAt hdata]

/-- The filters that cannot be unsubscribed: a node without a table has a
subscribed filter below it. -/
theorem defined_of_not_stuck {root : TopicNode π} {subscriptions : SubscriptionMap}
    (hholds : HoldsMap root subscriptions) (htree : SubscriptionTree root)
    {topicFilter : NonemptyFilter} (clientId : Bytes) :
    (SubscriptionCall.remove topicFilter clientId).Defined subscriptions ↔
      root.valueAt (tmqTopicSplit topicFilter) = none ∨
        (dataAt root (tmqTopicSplit topicFilter)).subscribers ≠ none := by
  constructor
  · rintro (⟨client, hclient⟩ | hlast)
    · right
      intro hnone
      rw [← hholds.holds, qosAt, hnone] at hclient
      exact hclient rfl
    · by_contra hstuck
      push Not at hstuck
      obtain ⟨hexists, hnone⟩ := hstuck
      obtain ⟨rest, hrest⟩ := htree.exists_longer (tmqTopicSplit_ne_nil _) hexists
      obtain ⟨filter, hfilter⟩ := hholds.filters _ hrest
      rw [hfilter] at hrest
      obtain ⟨client, hclient⟩ := htree.exists_client hrest
      rw [hholds.holds] at hclient
      have hsame := hlast filter client hclient ⟨rest, hfilter⟩
      rw [hsame] at hnone
      exact hrest hnone
  · rintro (habsent | htable)
    · right
      intro filter client hclient hstarts
      by_contra hne
      rw [← hholds.holds] at hclient
      have hexists : root.valueAt (tmqTopicSplit filter) ≠ none := by
        intro hnone
        rw [qosAt, dataAt_of_absent hnone] at hclient
        exact hclient rfl
      exact Trie.valueAt_prefix hstarts hexists habsent
    · left
      obtain ⟨client, hclient⟩ := htree.exists_client htable
      rw [hholds.holds] at hclient
      exact ⟨client, hclient⟩

theorem mapsTo_none_of_absent {root : TopicNode π} {subscriptions : SubscriptionMap}
    (hholds : HoldsMap root subscriptions) {topicFilter : Bytes}
    (habsent : root.valueAt (tmqTopicSplit topicFilter) = none) (clientId : Bytes) :
    subscriptions (cstr topicFilter) clientId = none := by
  rw [← hholds.holds, qosAt, dataAt_of_absent habsent]
  rfl

/-! ### Runs -/

def TreeHolds (topics : Topics π) (subscriptions : SubscriptionMap) : Prop :=
  SubscriptionTree topics.root ∧ HoldsMap topics.root subscriptions

theorem dataAt_init (path : List Bytes) :
    dataAt (tmqTopicsInit : Topics π).root path = .new := by
  rw [dataAt, tmqTopicsInit, Trie.leaf_valueAt]
  split <;> rfl

theorem treeHolds_init : TreeHolds (tmqTopicsInit : Topics π) fun _ _ => none := by
  constructor
  · constructor
    · intro path hne hexists
      rw [tmqTopicsInit, Trie.leaf_valueAt, if_neg hne] at hexists
      exact (hexists rfl).elim
    · intro path subscribers hsubscribers
      rw [dataAt_init] at hsubscribers
      cases hsubscribers
    · intro path
      rw [dataAt_init]
      rfl
  · constructor
    · intro filter clientId
      rw [qosAt, dataAt_init]
      rfl
    · intro path hpath
      rw [dataAt_init] at hpath
      exact (hpath rfl).elim

theorem treeHolds_step (topics : Topics π) (subscriptions : SubscriptionMap)
    (call : SubscriptionCall) (h : TreeHolds topics subscriptions)
    (hdefined : call.Defined subscriptions) :
    ∃ next, call.step topics = some next ∧ TreeHolds next (call.mapStep subscriptions) := by
  obtain ⟨htree, hholds⟩ := h
  cases call with
  | add topicFilter clientId info =>
      refine ⟨_, rfl, ?_, ?_⟩
      · exact subscriptionTree_add htree topicFilter clientId info
      · exact holdsMap_add hholds topicFilter clientId info
  | remove topicFilter clientId =>
      rcases (defined_of_not_stuck hholds htree clientId).mp hdefined with habsent | htable
      · refine ⟨topics, removeSubscription_absent habsent clientId, htree, ?_⟩
        rw [SubscriptionCall.mapStep,
          SubscriptionMap.set_none (mapsTo_none_of_absent hholds habsent)]
        exact hholds
      · obtain ⟨subscribers, hsubscribers⟩ := Option.ne_none_iff_exists'.mp htable
        refine ⟨_, removeSubscription_table hsubscribers clientId, ?_, ?_⟩
        · exact subscriptionTree_remove htree hsubscribers clientId
        · exact holdsMap_remove hholds hsubscribers clientId

theorem treeHolds_stuck (topics : Topics π) (subscriptions : SubscriptionMap)
    (call : SubscriptionCall) (h : TreeHolds topics subscriptions)
    (hundefined : ¬ call.Defined subscriptions) : call.step topics = none := by
  obtain ⟨htree, hholds⟩ := h
  cases call with
  | add topicFilter clientId info => exact (hundefined trivial).elim
  | remove topicFilter clientId =>
      rw [defined_of_not_stuck hholds htree] at hundefined
      push Not at hundefined
      exact removeSubscription_stuck hundefined.1 hundefined.2 clientId

/-- Every call of a sequence is defined and the tree ends with the map of the
calls just when no call unsubscribes a filter that nobody has subscribed and
that is the beginning of a longer subscribed one. -/
theorem topicTree_refines_map (calls : List SubscriptionCall) :
    (∃ topics : Topics π, Run.runs SubscriptionCall.step tmqTopicsInit calls = some topics ∧
        HoldsMap topics.root (calls.foldl SubscriptionCall.mapStep fun _ _ => none)) ↔
      Run.Admissible SubscriptionCall.Defined
        (fun subscriptions call => some (call.mapStep subscriptions)) (fun _ _ => none) calls := by
  apply Run.runs_simulates_iff treeHolds_step treeHolds_stuck ?_ treeHolds_init
  intro topics subscriptions h
  exact h.2

/-- One client subscribes `a/b`, another one unsubscribes `a`. -/
def unsubscribeInterior : List SubscriptionCall :=
  [.add ⟨[97, 47, 98], by decide⟩ [112] ⟨0, 1⟩, .remove ⟨[97], by decide⟩ [113]]

theorem topicTree_not_map_interior :
    ¬ ∃ topics : Topics Bytes,
      Run.runs SubscriptionCall.step tmqTopicsInit unsubscribeInterior = some topics ∧
        HoldsMap topics.root
          (unsubscribeInterior.foldl SubscriptionCall.mapStep fun _ _ => none) := by
  rintro ⟨topics, hrun, -⟩
  have hstuck : Run.runs SubscriptionCall.step (tmqTopicsInit : Topics Bytes) unsubscribeInterior
      = none := rfl
  rw [hstuck] at hrun
  cases hrun

end TinyMqtt
