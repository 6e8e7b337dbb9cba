import TinyMqtt.Topic.Tree

/-!
What the operations on the topic tree do to the data found under a filter. A
node that is absent counts as one without subscribers, listeners, routes and
retained message, so creating nodes on the way changes no data.
-/

namespace TinyMqtt

variable {π : Type}

/-- The data under a filter. -/
def dataAt (root : TopicNode π) (path : List Bytes) : TopicData π :=
  (root.valueAt path).getD .new

theorem dataAt_of_valueAt {root : TopicNode π} {path : List Bytes} {data : TopicData π}
    (hvalue : root.valueAt path = some data) : dataAt root path = data := by
  rw [dataAt, hvalue]
  rfl

theorem dataAt_of_absent {root : TopicNode π} {path : List Bytes}
    (hvalue : root.valueAt path = none) : dataAt root path = .new := by
  rw [dataAt, hvalue]
  rfl

theorem dataAt_grow (root : TopicNode π) (levels path : List Bytes) :
    dataAt (root.grow .new levels) path = dataAt root path := by
  rw [dataAt, dataAt, Trie.valueAt_grow]
  split <;> simp

/-- Changing the data of a filter whose nodes are created first. -/
theorem dataAt_addTopic (root : TopicNode π) (f : TopicData π → TopicData π)
    (topicFilter : Bytes) (path : List Bytes) :
    dataAt ((addTopic root topicFilter).modifyValue f (tmqTopicSplit topicFilter)) path
      = if path = tmqTopicSplit topicFilter then f (dataAt root path) else dataAt root path := by
  have hgrow := dataAt_grow root (tmqTopicSplit topicFilter) path
  unfold dataAt addTopic at *
  rw [Trie.valueAt_modifyValue]
  split
  · rename_i hpath
    subst hpath
    rw [Trie.valueAt_grow, if_pos List.prefix_rfl]
    rfl
  · exact hgrow

/-- The nodes after a filter was added. -/
theorem valueAt_addTopic_ne_none (root : TopicNode π) (f : TopicData π → TopicData π)
    (topicFilter : Bytes) (path : List Bytes) :
    ((addTopic root topicFilter).modifyValue f (tmqTopicSplit topicFilter)).valueAt path ≠ none ↔
      path <+: tmqTopicSplit topicFilter ∨ root.valueAt path ≠ none := by
  unfold addTopic
  rw [Trie.valueAt_modifyValue, Trie.valueAt_grow]
  by_cases hstarts : path <+: tmqTopicSplit topicFilter
  · by_cases hpath : path = tmqTopicSplit topicFilter <;> simp [hstarts, hpath]
  · have hpath : path ≠ tmqTopicSplit topicFilter := by
      rintro rfl
      exact hstarts List.prefix_rfl
    simp [hstarts, hpath]

theorem modifyValue_isSome (f : TopicData π → TopicData π) (root : TopicNode π)
    (levels path : List Bytes) :
    (root.modifyValue f levels).valueAt path ≠ none ↔ root.valueAt path ≠ none := by
  rw [Trie.valueAt_modifyValue]
  split <;> simp

theorem dataAt_modifyValue {root : TopicNode π} {levels : List Bytes}
    (hexists : root.valueAt levels ≠ none) (f : TopicData π → TopicData π) (path : List Bytes) :
    dataAt (root.modifyValue f levels) path
      = if path = levels then f (dataAt root path) else dataAt root path := by
  unfold dataAt
  rw [Trie.valueAt_modifyValue]
  split
  · rename_i hpath
    subst hpath
    obtain ⟨data, hdata⟩ := Option.ne_none_iff_exists'.mp hexists
    rw [hdata]
    rfl
  · rfl

/-! ### Pruning -/

/-- A removable node has no data worth keeping and nothing below it. -/
theorem removable_iff {root node : TopicNode π} {path : List Bytes}
    (hfind : root.find? path = some node) :
    removable node = true ↔ (dataAt root path).subscribers = none ∧
      (∀ level, root.valueAt (path ++ [level]) = none) ∧
      (dataAt root path).retainMessage = none := by
  have hvalue : root.valueAt path = some node.value := by
    rw [Trie.valueAt, hfind]
    rfl
  rw [dataAt_of_valueAt hvalue, ← Trie.children_isEmpty_iff hfind]
  simp [removable, and_assoc]

/-- Below a node without children there is nothing. -/
theorem valueAt_below {root : TopicNode π} {path p : List Bytes}
    (hchildren : ∀ level, root.valueAt (path ++ [level]) = none) (hstarts : path <+: p)
    (hne : p ≠ path) : root.valueAt p = none := by
  obtain ⟨rest, rfl⟩ := hstarts
  cases rest with
  | nil => simp at hne
  | cons level rest =>
      by_contra hsome
      refine Trie.valueAt_prefix ?_ hsome (hchildren level)
      exact ⟨rest, by simp⟩

/-- `try_remove_topic` loses no subscription and no retained message. -/
theorem dataAt_tryRemoveTopic (root : TopicNode π) (reversed path : List Bytes) :
    (dataAt (tryRemoveTopic root reversed) path).subscribers = (dataAt root path).subscribers ∧
      (dataAt (tryRemoveTopic root reversed) path).retainMessage
        = (dataAt root path).retainMessage := by
  induction reversed generalizing root with
  | nil => exact ⟨rfl, rfl⟩
  | cons level parent ih =>
      unfold tryRemoveTopic
      cases hfind : root.find? (level :: parent).reverse with
      | none => exact ⟨rfl, rfl⟩
      | some node =>
          dsimp only
          split
          · rename_i hremovable
            obtain ⟨hsubscribers, hchildren, hretain⟩ := (removable_iff hfind).mp hremovable
            rw [(ih _).1, (ih _).2]
            have hpath : (level :: parent).reverse = parent.reverse ++ [level] := by simp
            by_cases hstarts : parent.reverse ++ [level] <+: path
            · have hgone : dataAt (root.eraseChild parent.reverse level) path = .new := by
                apply dataAt_of_absent
                rw [Trie.valueAt_eraseChild, if_pos hstarts]
              rw [hgone]
              by_cases hsame : path = parent.reverse ++ [level]
              · subst hsame
                rw [← hpath, hsubscribers, hretain]
                exact ⟨rfl, rfl⟩
              · have hbelow := valueAt_below (hpath ▸ hchildren) hstarts hsame
                rw [dataAt_of_absent hbelow]
                exact ⟨rfl, rfl⟩
            · have hsame : dataAt (root.eraseChild parent.reverse level) path = dataAt root path := by
                rw [dataAt, dataAt, Trie.valueAt_eraseChild, if_neg hstarts]
              rw [hsame]
              exact ⟨rfl, rfl⟩
          · exact ⟨rfl, rfl⟩

/-- `try_remove_topic` only removes nodes. -/
theorem valueAt_tryRemoveTopic {root : TopicNode π} {reversed path : List Bytes}
    {data : TopicData π} (hvalue : (tryRemoveTopic root reversed).valueAt path = some data) :
    root.valueAt path = some data := by
  induction reversed generalizing root with
  | nil => exact hvalue
  | cons level parent ih =>
      unfold tryRemoveTopic at hvalue
      cases hfind : root.find? (level :: parent).reverse with
      | none =>
          rw [hfind] at hvalue
          exact hvalue
      | some node =>
          rw [hfind] at hvalue
          dsimp only at hvalue
          split at hvalue
          · have herased := ih hvalue
            rw [Trie.valueAt_eraseChild] at herased
            split at herased
            · cases herased
            · exact herased
          · exact hvalue

/-- What is left of a node after the pruning is all or nothing. -/
theorem dataAt_tryRemoveTopic_or (root : TopicNode π) (reversed path : List Bytes) :
    dataAt (tryRemoveTopic root reversed) path = dataAt root path ∨
      dataAt (tryRemoveTopic root reversed) path = .new := by
  cases hvalue : (tryRemoveTopic root reversed).valueAt path with
  | none => exact .inr (dataAt_of_absent hvalue)
  | some data =>
      left
      rw [dataAt_of_valueAt hvalue, dataAt_of_valueAt (valueAt_tryRemoveTopic hvalue)]

/-! ### Unsubscribing -/

theorem exists_of_table {root : TopicNode π} {path : List Bytes} {subscribers : SubscribeMap}
    (htable : (dataAt root path).subscribers = some subscribers) : root.valueAt path ≠ none := by
  intro habsent
  rw [dataAt_of_absent habsent] at htable
  cases htable

theorem removeSubscription_absent {topics : Topics π} {topicFilter : Bytes}
    (habsent : topics.root.valueAt (tmqTopicSplit topicFilter) = none) (clientId : Bytes) :
    tmqTopicsRemoveSubscription topics topicFilter clientId = some topics := by
  rw [Trie.valueAt, Option.map_eq_none_iff] at habsent
  simp only [tmqTopicsRemoveSubscription, findTopic, habsent]

def withoutSubscription (root : TopicNode π) (topicFilter clientId : Bytes)
    (subscribers : SubscribeMap) : TopicNode π :=
  root.modifyValue (fun data => { data with subscribers := eraseSubscriber subscribers clientId })
    (tmqTopicSplit topicFilter)

theorem removeSubscription_table {topics : Topics π} {topicFilter : Bytes}
    {subscribers : SubscribeMap}
    (htable : (dataAt topics.root (tmqTopicSplit topicFilter)).subscribers = some subscribers)
    (clientId : Bytes) :
    tmqTopicsRemoveSubscription topics topicFilter clientId
      = some { topics with
          root := tryRemoveTopic (withoutSubscription topics.root topicFilter clientId subscribers)
            (tmqTopicSplit topicFilter).reverse } := by
  unfold dataAt Trie.valueAt at htable
  unfold tmqTopicsRemoveSubscription findTopic
  cases hfind : topics.root.find? (tmqTopicSplit topicFilter) with
  | none =>
      rw [hfind] at htable
      cases htable
  | some node =>
      rw [hfind] at htable
      have hnode : node.value.subscribers = some subscribers := htable
      simp only [hnode]
      rfl

theorem removeSubscription_stuck {topics : Topics π} {topicFilter : Bytes}
    (hexists : topics.root.valueAt (tmqTopicSplit topicFilter) ≠ none)
    (htable : (dataAt topics.root (tmqTopicSplit topicFilter)).subscribers = none)
    (clientId : Bytes) : tmqTopicsRemoveSubscription topics topicFilter clientId = none := by
  obtain ⟨node, hfind⟩ := Trie.exists_find?_of_valueAt hexists
  unfold dataAt Trie.valueAt at htable
  rw [hfind] at htable
  have hnode : node.value.subscribers = none := htable
  simp only [tmqTopicsRemoveSubscription, findTopic, hfind, hnode]
  rfl

/-- What an unsubscribe that is defined does. -/
theorem removeSubscription_cases {topics next : Topics π} {topicFilter clientId : Bytes}
    (hremove : tmqTopicsRemoveSubscription topics topicFilter clientId = some next) :
    next = topics ∨ ∃ subscribers,
      (dataAt topics.root (tmqTopicSplit topicFilter)).subscribers = some subscribers ∧
      next = { topics with
        root := tryRemoveTopic (withoutSubscription topics.root topicFilter clientId subscribers)
          (tmqTopicSplit topicFilter).reverse } := by
  cases hvalue : topics.root.valueAt (tmqTopicSplit topicFilter) with
  | none =>
      rw [removeSubscription_absent hvalue] at hremove
      exact .inl (Option.some.inj hremove).symm
  | some data =>
      cases htable : (dataAt topics.root (tmqTopicSplit topicFilter)).subscribers with
      | none =>
          rw [removeSubscription_stuck (by simp [hvalue]) htable] at hremove
          cases hremove
      | some subscribers =>
          rw [removeSubscription_table htable] at hremove
          exact .inr ⟨subscribers, rfl, (Option.some.inj hremove).symm⟩

/-- An unsubscribe leaves the other filters alone. -/
theorem dataAt_removeSubscription {topics next : Topics π} {topicFilter clientId : Bytes}
    (hremove : tmqTopicsRemoveSubscription topics topicFilter clientId = some next)
    {path : List Bytes} (hother : path ≠ tmqTopicSplit topicFilter) :
    dataAt next.root path = dataAt topics.root path ∨ dataAt next.root path = .new := by
  rcases removeSubscription_cases hremove with rfl | ⟨subscribers, htable, rfl⟩
  · exact .inl rfl
  · have hwithout : dataAt (withoutSubscription topics.root topicFilter clientId subscribers) path
        = dataAt topics.root path := by
      rw [withoutSubscription, dataAt_modifyValue (exists_of_table htable), if_neg hother]
    rw [← hwithout]
    apply dataAt_tryRemoveTopic_or

/-- A freed table and a table without the client answer a lookup alike. -/
theorem eraseSubscriber_lookup (subscribers : SubscribeMap) (clientId client : Bytes) :
    (eraseSubscriber subscribers clientId).bind (fun table => table.lookup client)
      = if client = cstr clientId then none else subscribers.lookup client := by
  have hlookup : (subscribers.erase (cstr clientId)).lookup client
      = if client = cstr clientId then none else subscribers.lookup client := by
    split
    · rename_i hclient
      rw [hclient, AList.lookup_erase]
    · rename_i hclient
      rw [AList.lookup_erase_ne hclient]
  unfold eraseSubscriber
  dsimp only
  split
  · rename_i hempty
    rw [← hlookup, Option.bind_none, AList.lookup, List.length_eq_zero_iff.mp hempty]
    rfl
  · rw [Option.bind_some, hlookup]

theorem eraseSubscriber_nonempty {subscribers table : SubscribeMap} {clientId : Bytes}
    (herase : eraseSubscriber subscribers clientId = some table) : table.entries ≠ [] := by
  unfold eraseSubscriber at herase
  dsimp only at herase
  split at herase
  · cases herase
  · rename_i hnonempty
    obtain rfl := Option.some.inj herase
    intro hnil
    rw [hnil] at hnonempty
    exact hnonempty rfl

theorem dataAt_withoutSubscription {root : TopicNode π} {topicFilter : Bytes}
    {subscribers : SubscribeMap}
    (htable : (dataAt root (tmqTopicSplit topicFilter)).subscribers = some subscribers)
    (clientId : Bytes) (path : List Bytes) :
    (dataAt (withoutSubscription root topicFilter clientId subscribers) path).subscribers
      = if path = tmqTopicSplit topicFilter then eraseSubscriber subscribers clientId
        else (dataAt root path).subscribers := by
  rw [withoutSubscription, dataAt_modifyValue (exists_of_table htable)]
  split <;> rfl

/-- The subscribers after an unsubscribe. -/
theorem subscribers_removeSubscription {root : TopicNode π} {topicFilter clientId : Bytes}
    {subscribers : SubscribeMap}
    (htable : (dataAt root (tmqTopicSplit topicFilter)).subscribers = some subscribers)
    (path : List Bytes) :
    (dataAt (tryRemoveTopic (withoutSubscription root topicFilter clientId subscribers)
        (tmqTopicSplit topicFilter).reverse) path).subscribers
      = if path = tmqTopicSplit topicFilter then eraseSubscriber subscribers clientId
        else (dataAt root path).subscribers := by
  rw [(dataAt_tryRemoveTopic _ _ path).1, dataAt_withoutSubscription htable]

end TinyMqtt
