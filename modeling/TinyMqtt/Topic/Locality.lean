import TinyMqtt.Topic.Matching

/-!
What an unsubscribe takes away. `try_remove_topic` deletes the nodes that only
led to the subscription, but it looks for subscribers, children and a retained
message alone. A listener or a route on a deleted node goes with it.
-/

namespace TinyMqtt

variable {π J : Type}

/-! ### What the pruning deletes -/

/-- Everything at or below the node is on the way to the target and empty. -/
def Dead (root : TopicNode π) (target path : List Bytes) : Prop :=
  path ≠ [] ∧ path <+: target ∧ ∀ below, path <+: below → root.valueAt below ≠ none →
    below <+: target ∧ (dataAt root below).subscribers = none ∧
      (dataAt root below).retainMessage = none

theorem dead_of_removable {root node : TopicNode π} {target : List Bytes} (hne : target ≠ [])
    (hfind : root.find? target = some node) (hremovable : removable node = true) :
    Dead root target target := by
  obtain ⟨hsubscribers, hchildren, hretain⟩ := (removable_iff hfind).mp hremovable
  refine ⟨hne, List.prefix_rfl, ?_⟩
  intro below hstarts hexists
  have hsame : below = target := by
    by_contra hbelow
    exact hexists (valueAt_below hchildren hstarts hbelow)
  rw [hsame]
  exact ⟨List.prefix_rfl, hsubscribers, hretain⟩

theorem removable_of_dead {root node : TopicNode π} {target path : List Bytes}
    (hfind : root.find? target = some node) (hdead : Dead root target path) :
    removable node = true := by
  obtain ⟨-, hstarts, hbelow⟩ := hdead
  have hexists : root.valueAt target ≠ none := by
    rw [Trie.valueAt, hfind]
    exact Option.some_ne_none _
  obtain ⟨-, hsubscribers, hretain⟩ := hbelow target hstarts hexists
  rw [removable_iff hfind]
  refine ⟨hsubscribers, ?_, hretain⟩
  intro level
  by_contra hchild
  have hlonger := (hbelow (target ++ [level]) (hstarts.trans (List.prefix_append _ _)) hchild).1
  have hlength := hlonger.length_le
  simp at hlength

/-- Without its last node the way to the target is the way to the parent. -/
theorem dead_eraseChild {root : TopicNode π} {parent : List Bytes} {level : Bytes}
    (hlast : Dead root (parent ++ [level]) (parent ++ [level])) (path : List Bytes) :
    Dead (root.eraseChild parent level) parent path ↔
      path ≠ parent ++ [level] ∧ Dead root (parent ++ [level]) path := by
  have hdata : ∀ below, ¬ parent ++ [level] <+: below →
      dataAt (root.eraseChild parent level) below = dataAt root below := by
    intro below hoff
    rw [dataAt, dataAt, Trie.valueAt_eraseChild, if_neg hoff]
  constructor
  · rintro ⟨hne, hstarts, hbelow⟩
    constructor
    · rintro rfl
      have hlength := hstarts.length_le
      simp at hlength
    · refine ⟨hne, hstarts.trans (List.prefix_append _ _), ?_⟩
      intro below hpath hexists
      by_cases hoff : parent ++ [level] <+: below
      · exact hlast.2.2 below hoff hexists
      · obtain ⟨hparent, hempty⟩ := hbelow below hpath
          (by rwa [Trie.valueAt_eraseChild, if_neg hoff])
        rw [hdata below hoff] at hempty
        exact ⟨hparent.trans (List.prefix_append _ _), hempty⟩
  · rintro ⟨hother, hne, hstarts, hbelow⟩
    have hparent := (List.prefix_concat_iff.mp hstarts).resolve_left hother
    refine ⟨hne, hparent, ?_⟩
    intro below hpath hexists
    rw [Trie.valueAt_eraseChild] at hexists
    split at hexists
    · exact (hexists rfl).elim
    · rename_i hoff
      obtain ⟨htarget, hempty⟩ := hbelow below hpath hexists
      rw [hdata below hoff]
      refine ⟨(List.prefix_concat_iff.mp htarget).resolve_left ?_, hempty⟩
      rintro rfl
      exact hoff List.prefix_rfl

/-- The pruning deletes the dead nodes and what is below them. -/
theorem valueAt_tryRemoveTopic_eq {root : TopicNode π} {reversed : List Bytes}
    (hexists : root.valueAt reversed.reverse ≠ none) (path : List Bytes) :
    ((∃ dead, Dead root reversed.reverse dead ∧ dead <+: path) →
        (tryRemoveTopic root reversed).valueAt path = none) ∧
      ((¬ ∃ dead, Dead root reversed.reverse dead ∧ dead <+: path) →
        (tryRemoveTopic root reversed).valueAt path = root.valueAt path) := by
  induction reversed generalizing root with
  | nil =>
      constructor
      · rintro ⟨dead, ⟨hne, hstarts, -⟩, -⟩
        exact (hne (List.prefix_nil.mp hstarts)).elim
      · intro _
        rfl
  | cons level parent ih =>
      obtain ⟨node, hfind⟩ := Trie.exists_find?_of_valueAt hexists
      have hreverse : (level :: parent).reverse = parent.reverse ++ [level] := by simp
      unfold tryRemoveTopic
      simp only [hfind]
      split
      · rename_i hremovable
        have hlast := dead_of_removable (by simp) hfind hremovable
        rw [hreverse] at hlast hexists ⊢
        have hparent : (root.eraseChild parent.reverse level).valueAt parent.reverse ≠ none := by
          rw [Trie.valueAt_eraseChild, if_neg]
          · exact Trie.valueAt_prefix (List.prefix_append _ _) hexists
          · intro hstarts
            have hlength := hstarts.length_le
            simp at hlength
        obtain ⟨hgone, hkept⟩ := ih hparent
        simp only [dead_eraseChild hlast] at hgone hkept
        have herased := Trie.valueAt_eraseChild root parent.reverse level path
        by_cases hbelow : parent.reverse ++ [level] <+: path
        · rw [if_pos hbelow] at herased
          constructor
          · intro _
            by_cases hdead : ∃ dead, (dead ≠ parent.reverse ++ [level] ∧
                Dead root (parent.reverse ++ [level]) dead) ∧ dead <+: path
            · exact hgone hdead
            · rw [hkept hdead, herased]
          · intro hnone
            exact (hnone ⟨_, hlast, hbelow⟩).elim
        · rw [if_neg hbelow] at herased
          constructor
          · rintro ⟨dead, hdead, hstarts⟩
            apply hgone
            refine ⟨dead, ⟨?_, hdead⟩, hstarts⟩
            rintro rfl
            exact hbelow hstarts
          · intro hnone
            rw [hkept, herased]
            rintro ⟨dead, ⟨-, hdead⟩, hstarts⟩
            exact hnone ⟨dead, hdead, hstarts⟩
      · rename_i hstays
        constructor
        · rintro ⟨dead, hdead, -⟩
          exact (hstays (removable_of_dead hfind hdead)).elim
        · intro _
          rfl

/-! ### Subscribers tables -/

def SubscribedAt (root : TopicNode π) (path : List Bytes) (clientId : Bytes) : Prop :=
  ∃ subscribers, (dataAt root path).subscribers = some subscribers ∧
    subscribers.lookup clientId ≠ none

def TablesNonempty (root : TopicNode π) : Prop :=
  ∀ path subscribers, (dataAt root path).subscribers = some subscribers →
    subscribers.entries ≠ []

theorem TablesNonempty.exists_subscribed {root : TopicNode π} (h : TablesNonempty root)
    {path : List Bytes} (htable : (dataAt root path).subscribers ≠ none) :
    ∃ clientId, SubscribedAt root path clientId := by
  obtain ⟨subscribers, hsubscribers⟩ := Option.ne_none_iff_exists'.mp htable
  obtain ⟨entry, hentry⟩ := List.exists_mem_of_ne_nil _ (h path subscribers hsubscribers)
  have hlookup : subscribers.lookup entry.1 = some entry.2 := AList.mem_lookup_iff.mpr hentry
  exact ⟨entry.1, subscribers, hsubscribers, by simp [hlookup]⟩

theorem TablesNonempty.of_addTopic {root : TopicNode π} (h : TablesNonempty root)
    {f : TopicData π → TopicData π}
    (hf : ∀ data subscribers, (f data).subscribers = some subscribers →
      data.subscribers = some subscribers ∨ subscribers.entries ≠ []) (topicFilter : Bytes) :
    TablesNonempty ((addTopic root topicFilter).modifyValue f (tmqTopicSplit topicFilter)) := by
  intro path subscribers hsubscribers
  rw [dataAt_addTopic] at hsubscribers
  split at hsubscribers
  · rcases hf _ _ hsubscribers with hbefore | hnonempty
    · exact h path subscribers hbefore
    · exact hnonempty
  · exact h path subscribers hsubscribers

theorem TablesNonempty.of_removeSubscription {topics next : Topics π}
    (h : TablesNonempty topics.root) {topicFilter clientId : Bytes}
    (hremove : tmqTopicsRemoveSubscription topics topicFilter clientId = some next) :
    TablesNonempty next.root := by
  rcases removeSubscription_cases hremove with rfl | ⟨subscribers, htable, rfl⟩
  · exact h
  · intro path table hpath
    rw [subscribers_removeSubscription htable] at hpath
    split at hpath
    · exact eraseSubscriber_nonempty hpath
    · exact h path table hpath

theorem TablesNonempty.of_publish [TmqString π] (cJsonParse : π → Option J) {topics : Topics π}
    (h : TablesNonempty topics.root) (req : PublishReq π) :
    TablesNonempty (tmqTopicsPublish cJsonParse topics req).1.root := by
  intro path subscribers hsubscribers
  apply h path subscribers
  rw [← hsubscribers]
  simp only [tmqTopicsPublish, dataAt_matchNode]
  split <;> rfl

theorem tablesNonempty_step [TmqString π] (cJsonParse : π → Option J) {topics next : Topics π}
    (h : TablesNonempty topics.root) {call : TopicCall π}
    (hstep : call.step cJsonParse topics = some next) : TablesNonempty next.root := by
  cases call with
  | addSubscription topicFilter clientId info =>
      obtain rfl := Option.some.inj hstep
      unfold tmqTopicsAddSubscription
      split
      · exact h
      · apply h.of_addTopic
        intro data subscribers hsubscribers
        right
        obtain rfl := Option.some.inj hsubscribers
        simp [AList.insert, List.kinsert]
  | removeSubscription topicFilter clientId => exact h.of_removeSubscription hstep
  | addListener topicFilter listener =>
      obtain rfl := Option.some.inj hstep
      unfold tmqTopicsAddListener
      dsimp only
      apply h.of_addTopic
      intro data subscribers hsubscribers
      exact .inl hsubscribers
  | addRoute topicFilter memberAddr =>
      obtain rfl := Option.some.inj hstep
      unfold tmqTopicsAddRoute
      dsimp only
      apply h.of_addTopic
      intro data subscribers hsubscribers
      exact .inl hsubscribers
  | publish req =>
      obtain rfl := Option.some.inj hstep
      exact h.of_publish cJsonParse req

/-! ### Locality -/

/-- The node leads to nothing but the client's subscription of the filter: no
other subscription, no retained message and no node beside the way is found at
it or below it. -/
structure OnlyFor (root : TopicNode π) (topicFilter clientId : Bytes) (path : List Bytes) :
    Prop where
  ne_nil : path ≠ []
  onWay : path <+: tmqTopicSplit topicFilter
  chain : ∀ below, path <+: below → root.valueAt below ≠ none → below <+: tmqTopicSplit topicFilter
  unretained : ∀ below, path <+: below → (dataAt root below).retainMessage = none
  last : ∀ below client, path <+: below → SubscribedAt root below client →
    below = tmqTopicSplit topicFilter ∧ client = cstr clientId

/-- Nothing but the client's subscription of the filter is gone. -/
structure UnsubscribesOnly (topics next : Topics π) (topicFilter clientId : Bytes) : Prop where
  subscriptions : ∀ path client, (path ≠ tmqTopicSplit topicFilter ∨ client ≠ cstr clientId) →
    (dataAt next.root path).subscribers.bind (fun table => table.lookup client)
      = (dataAt topics.root path).subscribers.bind fun table => table.lookup client
  listeners : ∀ path, (dataAt next.root path).listeners = (dataAt topics.root path).listeners
  routes : ∀ path,
    (dataAt next.root path).subscribeMembers = (dataAt topics.root path).subscribeMembers
  retained : ∀ path,
    (dataAt next.root path).retainMessage = (dataAt topics.root path).retainMessage

theorem valueAt_withoutSubscription (root : TopicNode π) (topicFilter clientId : Bytes)
    (subscribers : SubscribeMap) (path : List Bytes) :
    (withoutSubscription root topicFilter clientId subscribers).valueAt path ≠ none ↔
      root.valueAt path ≠ none :=
  modifyValue_isSome _ root _ path

theorem retain_withoutSubscription {root : TopicNode π} {topicFilter : Bytes}
    {subscribers : SubscribeMap}
    (htable : (dataAt root (tmqTopicSplit topicFilter)).subscribers = some subscribers)
    (clientId : Bytes) (path : List Bytes) :
    (dataAt (withoutSubscription root topicFilter clientId subscribers) path).retainMessage
      = (dataAt root path).retainMessage := by
  rw [withoutSubscription, dataAt_modifyValue (exists_of_table htable)]
  split <;> rfl

/-- After the client is taken from the table, the dead nodes are those that
were only for its subscription. -/
theorem dead_withoutSubscription_iff {root : TopicNode π} (hnonempty : TablesNonempty root)
    {topicFilter : Bytes} {subscribers : SubscribeMap}
    (htable : (dataAt root (tmqTopicSplit topicFilter)).subscribers = some subscribers)
    (clientId : Bytes) (path : List Bytes) :
    Dead (withoutSubscription root topicFilter clientId subscribers) (tmqTopicSplit topicFilter)
        path ↔ OnlyFor root topicFilter clientId path := by
  have hlookup := eraseSubscriber_lookup subscribers clientId
  unfold Dead
  simp only [valueAt_withoutSubscription, retain_withoutSubscription htable,
    dataAt_withoutSubscription htable]
  constructor
  · rintro ⟨hne, hstarts, hbelow⟩
    refine ⟨hne, hstarts, fun below hpath hexists => (hbelow below hpath hexists).1, ?_, ?_⟩
    · intro below hpath
      by_cases hexists : root.valueAt below = none
      · rw [dataAt_of_absent hexists]
        rfl
      · exact (hbelow below hpath hexists).2.2
    · rintro below client hpath ⟨table, hbelowTable, hclient⟩
      have hempty := (hbelow below hpath (exists_of_table hbelowTable)).2.1
      split at hempty
      · rename_i hsame
        refine ⟨hsame, ?_⟩
        by_contra hother
        rw [hsame, htable] at hbelowTable
        obtain rfl := Option.some.inj hbelowTable
        have hkept := hlookup client
        rw [hempty, if_neg hother] at hkept
        exact hclient hkept.symm
      · rw [hempty] at hbelowTable
        cases hbelowTable
  · rintro ⟨hne, hstarts, hchain, hretain, hlast⟩
    refine ⟨hne, hstarts, ?_⟩
    intro below hpath hexists
    refine ⟨hchain below hpath hexists, ?_, hretain below hpath⟩
    split
    · rename_i hsame
      by_contra hkept
      obtain ⟨table, htable'⟩ := Option.ne_none_iff_exists'.mp hkept
      obtain ⟨entry, hentry⟩ := List.exists_mem_of_ne_nil _ (eraseSubscriber_nonempty htable')
      have hfound := hlookup entry.1
      rw [htable', Option.bind_some, AList.mem_lookup_iff.mpr hentry] at hfound
      split at hfound
      · cases hfound
      · rename_i hother
        exact hother (hlast below entry.1 hpath
          ⟨subscribers, by rw [hsame, htable], by simp [← hfound]⟩).2
    · rename_i hother
      by_contra hkept
      obtain ⟨client, hclient⟩ := hnonempty.exists_subscribed hkept
      exact hother (hlast below client hpath hclient).1

/-- What is only for a subscription stays so further down the way. -/
theorem OnlyFor.below {root : TopicNode π} {topicFilter clientId : Bytes}
    {path below : List Bytes} (h : OnlyFor root topicFilter clientId path) (hstarts : path <+: below)
    (hexists : root.valueAt below ≠ none) : OnlyFor root topicFilter clientId below := by
  constructor
  · rintro rfl
    exact h.ne_nil (List.prefix_nil.mp hstarts)
  · exact h.chain below hstarts hexists
  · intro further hfurther
    exact h.chain further (hstarts.trans hfurther)
  · intro further hfurther
    exact h.unretained further (hstarts.trans hfurther)
  · intro further client hfurther
    exact h.last further client (hstarts.trans hfurther)

/-- What the nodes hold after the unsubscribe of a subscribed filter. -/
theorem dataAt_unsubscribed {root : TopicNode π} (hnonempty : TablesNonempty root)
    {topicFilter : Bytes} {subscribers : SubscribeMap}
    (htable : (dataAt root (tmqTopicSplit topicFilter)).subscribers = some subscribers)
    (clientId : Bytes) (path : List Bytes) :
    (OnlyFor root topicFilter clientId path →
      dataAt (tryRemoveTopic (withoutSubscription root topicFilter clientId subscribers)
        (tmqTopicSplit topicFilter).reverse) path = .new) ∧
    (¬ OnlyFor root topicFilter clientId path →
      dataAt (tryRemoveTopic (withoutSubscription root topicFilter clientId subscribers)
        (tmqTopicSplit topicFilter).reverse) path
        = dataAt (withoutSubscription root topicFilter clientId subscribers) path) := by
  have hexists : (withoutSubscription root topicFilter clientId subscribers).valueAt
      (tmqTopicSplit topicFilter).reverse.reverse ≠ none := by
    rw [List.reverse_reverse, valueAt_withoutSubscription]
    exact exists_of_table htable
  obtain ⟨hgone, hkept⟩ := valueAt_tryRemoveTopic_eq hexists path
  simp only [List.reverse_reverse, dead_withoutSubscription_iff hnonempty htable] at hgone hkept
  constructor
  · intro honly
    exact dataAt_of_absent (hgone ⟨path, honly, List.prefix_rfl⟩)
  · intro hother
    by_cases hdead : ∃ dead, OnlyFor root topicFilter clientId dead ∧ dead <+: path
    · obtain ⟨dead, honly, hstarts⟩ := hdead
      have habsent : root.valueAt path = none := by
        by_contra hpath
        exact hother (honly.below hstarts hpath)
      rw [dataAt_of_absent (hgone ⟨dead, honly, hstarts⟩)]
      apply (dataAt_of_absent _).symm
      by_contra hpath
      exact (valueAt_withoutSubscription _ _ _ _ _).mp hpath habsent
    · rw [dataAt, dataAt, hkept hdead]

theorem tablesNonempty_runs [TmqString π] (cJsonParse : π → Option J) {calls : List (TopicCall π)}
    {topics : Topics π}
    (hrun : Run.runs (TopicCall.step cJsonParse) tmqTopicsInit calls = some topics) :
    TablesNonempty topics.root := by
  refine @Run.runs_relates _ Unit _ (fun _ => True) (TopicCall.step cJsonParse) (fun _ _ => ())
    (fun topics _ => TablesNonempty topics.root) ?_ calls (fun _ _ => trivial) tmqTopicsInit
    topics () ?_ hrun
  · intro topics _ call next h _ hstep
    exact tablesNonempty_step cJsonParse h hstep
  · intro path subscribers hsubscribers
    rw [tmqTopicsInit, dataAt_leaf_new] at hsubscribers
    cases hsubscribers

/-- Unsubscribing a subscribed filter takes away nothing else just when the
nodes that are only for the subscription have no listeners and no routes. -/
theorem unsubscribe_local_iff [TmqString π] (cJsonParse : π → Option J)
    (calls : List (TopicCall π)) (topics : Topics π)
    (hrun : Run.runs (TopicCall.step cJsonParse) tmqTopicsInit calls = some topics)
    (topicFilter clientId : Bytes)
    (hsubscribed : SubscribedAt topics.root (tmqTopicSplit topicFilter) (cstr clientId)) :
    ∃ next, tmqTopicsRemoveSubscription topics topicFilter clientId = some next ∧
      (UnsubscribesOnly topics next topicFilter clientId ↔
        ∀ path, OnlyFor topics.root topicFilter clientId path →
          (dataAt topics.root path).listeners = [] ∧
            (dataAt topics.root path).subscribeMembers = []) := by
  obtain ⟨subscribers, htable, -⟩ := hsubscribed
  have hnonempty := tablesNonempty_runs cJsonParse hrun
  have hdata := dataAt_unsubscribed hnonempty htable clientId
  refine ⟨_, removeSubscription_table htable clientId, ?_⟩
  have hwithout : ∀ path,
      (dataAt (withoutSubscription topics.root topicFilter clientId subscribers) path).listeners
        = (dataAt topics.root path).listeners ∧
      (dataAt (withoutSubscription topics.root topicFilter clientId subscribers)
        path).subscribeMembers = (dataAt topics.root path).subscribeMembers := by
    intro path
    rw [withoutSubscription, dataAt_modifyValue (exists_of_table htable)]
    split <;> exact ⟨rfl, rfl⟩
  constructor
  · intro honly path hpath
    have hlisteners := honly.listeners path
    have hroutes := honly.routes path
    dsimp only at hlisteners hroutes
    rw [(hdata path).1 hpath] at hlisteners hroutes
    exact ⟨hlisteners.symm, hroutes.symm⟩
  · intro hempty
    constructor
    · intro path client hother
      dsimp only
      rw [subscribers_removeSubscription htable]
      split
      · rename_i hsame
        rw [eraseSubscriber_lookup, if_neg (hother.resolve_left (not_not.mpr hsame)), hsame, htable]
        rfl
      · rfl
    · intro path
      by_cases hpath : OnlyFor topics.root topicFilter clientId path
      · rw [(hempty path hpath).1]
        dsimp only
        rw [(hdata path).1 hpath]
        rfl
      · dsimp only
        rw [(hdata path).2 hpath, (hwithout path).1]
    · intro path
      by_cases hpath : OnlyFor topics.root topicFilter clientId path
      · rw [(hempty path hpath).2]
        dsimp only
        rw [(hdata path).1 hpath]
        rfl
      · dsimp only
        rw [(hdata path).2 hpath, (hwithout path).2]
    · intro path
      dsimp only
      rw [(dataAt_tryRemoveTopic _ _ path).2, retain_withoutSubscription htable]

theorem validFilter_a : ValidFilter (tmqTopicSplit [97]) := by decide

/-- A listener on `a` and a subscription. -/
def listenedCalls (topicFilter : ValidTopicFilter) : List (TopicCall Bytes) :=
  [.addListener ⟨[97], validFilter_a⟩ ⟨0, false⟩, .addSubscription topicFilter [112] ⟨0, 1⟩]

theorem unsubscribe_local_iff_other :
    ∃ topics,
      Run.runs (TopicCall.step parseDigit) tmqTopicsInit (listenedCalls ⟨[98], by decide⟩)
        = some topics ∧
      SubscribedAt topics.root (tmqTopicSplit [98]) (cstr [112]) ∧
      ∃ next, tmqTopicsRemoveSubscription topics [98] [112] = some next ∧
        (UnsubscribesOnly topics next [98] [112] ↔
          ∀ path, OnlyFor topics.root [98] [112] path →
            (dataAt topics.root path).listeners = [] ∧
              (dataAt topics.root path).subscribeMembers = []) := by
  have hsubscribed : ∀ topics,
      Run.runs (TopicCall.step parseDigit) tmqTopicsInit (listenedCalls ⟨[98], by decide⟩)
        = some topics → SubscribedAt topics.root (tmqTopicSplit [98]) (cstr [112]) := by
    intro topics hrun
    obtain rfl := Option.some.inj hrun
    exact ⟨_, rfl, by decide⟩
  refine ⟨_, rfl, hsubscribed _ rfl, ?_⟩
  exact unsubscribe_local_iff parseDigit (listenedCalls ⟨[98], by decide⟩) _ rfl [98] [112] (hsubscribed _ rfl)

/-- Unsubscribing `a` takes the listener on `a` away. -/
theorem not_unsubscribesOnly_listener :
    ∃ topics next,
      Run.runs (TopicCall.step parseDigit) tmqTopicsInit (listenedCalls ⟨[97], by decide⟩)
        = some topics ∧
      SubscribedAt topics.root (tmqTopicSplit [97]) (cstr [112]) ∧
      tmqTopicsRemoveSubscription topics [97] [112] = some next ∧
      ¬ UnsubscribesOnly topics next [97] [112] := by
  refine ⟨_, _, rfl, ⟨_, rfl, by decide⟩, rfl, ?_⟩
  intro honly
  have hlisteners := honly.listeners [[97]]
  revert hlisteners
  decide

end TinyMqtt
