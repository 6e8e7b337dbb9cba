import TinyMqtt.Topic.Locality
import TinyMqtt.Topic.SubscriptionMap

/-!
Every node of a topic tree is there for something. The nodes that a filter or a
retained message creates lead to the node it is stored in, and the pruning
after an unsubscribe takes the nodes away that lead nowhere any more. It stops
below the root.
-/

namespace TinyMqtt

variable {π J : Type}

/-- What can be asked of a topic tree, with filters of any form. -/
inductive TreeCall (π : Type) where
  | addSubscription (topicFilter clientId : Bytes) (info : SubscribeInfo)
  | removeSubscription (topicFilter clientId : Bytes)
  | addListener (topicFilter : Bytes) (listener : EventListener)
  | addRoute (topicFilter memberAddr : Bytes)
  | publish (req : PublishReq π)

def TreeCall.step [TmqString π] (cJsonParse : π → Option J) (topics : Topics π) :
    TreeCall π → Option (Topics π)
  | .addSubscription topicFilter clientId info =>
      some (tmqTopicsAddSubscription topics topicFilter clientId info).2
  | .removeSubscription topicFilter clientId =>
      tmqTopicsRemoveSubscription topics topicFilter clientId
  | .addListener topicFilter listener => some (tmqTopicsAddListener topics topicFilter listener)
  | .addRoute topicFilter memberAddr => some (tmqTopicsAddRoute topics topicFilter memberAddr)
  | .publish req => some (tmqTopicsPublish cJsonParse topics req).1

/-- The node leads further or holds something. -/
def Occupied (root : TopicNode π) (path : List Bytes) : Prop :=
  (∃ level, root.valueAt (path ++ [level]) ≠ none) ∨
    (∃ subscribers, (dataAt root path).subscribers = some subscribers ∧
      subscribers.entries ≠ []) ∨
    (dataAt root path).retainMessage ≠ none ∨ (dataAt root path).listeners ≠ [] ∨
    (dataAt root path).subscribeMembers ≠ []

/-- No node below the root is dead. -/
def NoDeadNodes (root : TopicNode π) : Prop :=
  ∀ path, path ≠ [] → root.valueAt path ≠ none → Occupied root path

/-- The loop of `try_remove_topic`, with the node named by its path from the
node up to the root. It needs a node that is still there, and the root has no
parent to be removed from. -/
def tryRemoveTopicLoop : Nat → TopicNode π → List Bytes → Option (TopicNode π)
  | 0, _, _ => none
  | fuel + 1, root, node => do
      let cur ← root.find? node.reverse
      if removable cur then
        match node with
        | [] => none
        | level :: parent =>
            let root := root.eraseChild parent.reverse level
            if parent = [] then some root else tryRemoveTopicLoop fuel root parent
      else some root

/-! ### Creating nodes -/

/-- Nodes that lead to an occupied one are occupied, and the others stay. -/
theorem NoDeadNodes.of_grown {root next : TopicNode π} (h : NoDeadNodes root)
    {target : List Bytes}
    (hnodes : ∀ path, next.valueAt path ≠ none ↔ path <+: target ∨ root.valueAt path ≠ none)
    (hdata : ∀ path, path ≠ target → dataAt next path = dataAt root path)
    (htarget : Occupied next target) : NoDeadNodes next := by
  intro path hne hexists
  by_cases hsame : path = target
  · rw [hsame]
    exact htarget
  · rcases (hnodes path).mp hexists with ⟨rest, hrest⟩ | hold
    · left
      cases rest with
      | nil => exact (hsame (by simpa using hrest)).elim
      | cons level rest =>
          refine ⟨level, (hnodes _).mpr (.inl ⟨rest, ?_⟩)⟩
          simpa using hrest
    · refine (h path hne hold).imp ?_ ?_
      · rintro ⟨level, hlevel⟩
        exact ⟨level, (hnodes _).mpr (.inr hlevel)⟩
      · rw [hdata path hsame]
        exact id

/-- A filter whose node gets something to hold. -/
theorem NoDeadNodes.of_addTopic {root : TopicNode π} (h : NoDeadNodes root)
    {f : TopicData π → TopicData π}
    (hf : ∀ data, (∃ subscribers, (f data).subscribers = some subscribers ∧
      subscribers.entries ≠ []) ∨ (f data).listeners ≠ [] ∨ (f data).subscribeMembers ≠ [])
    (topicFilter : Bytes) :
    NoDeadNodes ((addTopic root topicFilter).modifyValue f (tmqTopicSplit topicFilter)) := by
  apply h.of_grown (valueAt_addTopic_ne_none root f topicFilter)
  · intro path hother
    rw [dataAt_addTopic, if_neg hother]
  · right
    rw [dataAt_addTopic, if_pos rfl]
    exact (hf _).imp_right .inr

section Publish

variable [TmqString π] (cJsonParse : π → Option J)

/-- A retained publish creates the nodes of its topic. -/
theorem valueAt_matchNode_ne_none (req : PublishReq π) (path levels : List Bytes)
    (node : TopicNode π) (p : List Bytes) :
    (matchNode cJsonParse req path levels node false true).1.valueAt p ≠ none ↔
      p <+: levels ∨ node.valueAt p ≠ none := by
  induction levels generalizing path node p with
  | nil =>
      obtain ⟨data, children⟩ := node
      cases p with
      | nil => simp
      | cons level p => simp [matchNode, Trie.valueAt_cons]
  | cons level levels ih =>
      rw [matchNode_cons_tree]
      cases p with
      | nil => simp
      | cons level' p =>
          rw [Trie.valueAt_cons, Trie.valueAt_cons, nextOrNew_true, descend, Trie.children_node,
            Forest.find?_put, List.cons_prefix_cons]
          by_cases hlevel : level = level'
          · subst hlevel
            rw [if_pos rfl, Option.bind_some, ih]
            cases node.children.find? level with
            | none =>
                rw [Option.getD_none, Trie.leaf_valueAt]
                by_cases hp : p = [] <;> simp [hp]
            | some child => simp
          · rw [if_neg hlevel]
            simp [Ne.symm hlevel]

theorem noDeadNodes_publish {topics : Topics π} (h : NoDeadNodes topics.root)
    (req : PublishReq π) : NoDeadNodes (tmqTopicsPublish cJsonParse topics req).1.root := by
  simp only [tmqTopicsPublish]
  cases hretain : req.retain with
  | false =>
      rw [matchNode_unretained]
      exact h
  | true =>
      apply h.of_grown (valueAt_matchNode_ne_none cJsonParse req [] (tmqTopicSplit req.topic)
        topics.root)
      · intro path hother
        rw [dataAt_matchNode, if_neg (by simp [hother])]
      · right; right; left
        rw [dataAt_matchNode, if_pos ⟨rfl, rfl⟩]
        exact Option.some_ne_none _

end Publish

/-! ### Unsubscribing -/

theorem occupied_of_needed {root : TopicNode π} (htables : TablesNonempty root)
    {path : List Bytes} (hexists : root.valueAt path ≠ none)
    (h : Needed root path ∨ (dataAt root path).listeners ≠ [] ∨
      (dataAt root path).subscribeMembers ≠ []) : Occupied root path := by
  rcases h with hneeded | hrest
  · rcases hneeded hexists with htable | hlevel | hretain
    · obtain ⟨subscribers, hsubscribers⟩ := Option.ne_none_iff_exists'.mp htable
      exact .inr (.inl ⟨subscribers, hsubscribers, htables path subscribers hsubscribers⟩)
    · exact .inl hlevel
    · exact .inr (.inr (.inl hretain))
  · exact .inr (.inr (.inr hrest))

theorem needed_of_occupied {root : TopicNode π} {path : List Bytes} (h : Occupied root path) :
    Needed root path ∨ (dataAt root path).listeners ≠ [] ∨
      (dataAt root path).subscribeMembers ≠ [] := by
  rcases h with hlevel | ⟨subscribers, hsubscribers, -⟩ | hretain | hrest
  · exact .inl fun _ => .inr (.inl hlevel)
  · exact .inl fun _ => .inl (by simp [hsubscribers])
  · exact .inl fun _ => .inr (.inr hretain)
  · exact .inr hrest

theorem noDeadNodes_removeSubscription {topics next : Topics π} (h : NoDeadNodes topics.root)
    (htables : TablesNonempty topics.root) {topicFilter clientId : Bytes}
    (hremove : tmqTopicsRemoveSubscription topics topicFilter clientId = some next) :
    NoDeadNodes next.root := by
  have htables' := htables.of_removeSubscription hremove
  rcases removeSubscription_cases hremove with rfl | ⟨subscribers, htable, rfl⟩
  · exact h
  · intro path hne hexists
    apply occupied_of_needed htables' hexists
    refine kept_tryRemoveTopic
      (fun data => data.listeners ≠ [] ∨ data.subscribeMembers ≠ []) ?_ path hne hexists
    intro path hne hother
    rw [List.reverse_reverse] at hother
    unfold withoutSubscription Needed
    rw [dataAt_modifyValue (exists_of_table htable), if_neg hother]
    simp only [modifyValue_isSome]
    by_cases hpath : topics.root.valueAt path = none
    · exact .inl fun hexists => (hexists hpath).elim
    · exact needed_of_occupied (h path hne hpath)

/-- The loop comes to an end within the levels of the filter. -/
theorem tryRemoveTopicLoop_eq {root : TopicNode π} {node : List Bytes} (hne : node ≠ [])
    (hexists : root.valueAt node.reverse ≠ none) {fuel : Nat} (hfuel : node.length ≤ fuel) :
    tryRemoveTopicLoop fuel root node = some (tryRemoveTopic root node) := by
  induction node generalizing root fuel with
  | nil => exact (hne rfl).elim
  | cons level parent ih =>
      obtain ⟨fuel, rfl⟩ : ∃ n, fuel = n + 1 := ⟨fuel - 1, by simp at hfuel; omega⟩
      obtain ⟨cur, hfind⟩ := Trie.exists_find?_of_valueAt hexists
      unfold tryRemoveTopicLoop tryRemoveTopic
      rw [hfind, Option.bind_eq_bind, Option.bind_some]
      dsimp only
      split
      · split
        · rename_i hroot
          rw [hroot]
          rfl
        · rename_i hparent
          apply ih hparent
          · rw [Trie.valueAt_eraseChild, if_neg]
            · exact Trie.valueAt_prefix (by simp) hexists
            · intro hstarts
              have hlength := hstarts.length_le
              simp at hlength
          · simpa using hfuel
      · rfl

/-! ### Runs -/

theorem noDeadNodes_step [TmqString π] (cJsonParse : π → Option J) {topics next : Topics π}
    (h : NoDeadNodes topics.root ∧ TablesNonempty topics.root) {call : TreeCall π}
    (hstep : call.step cJsonParse topics = some next) :
    NoDeadNodes next.root ∧ TablesNonempty next.root := by
  obtain ⟨hdead, htables⟩ := h
  cases call with
  | addSubscription topicFilter clientId info =>
      obtain rfl := Option.some.inj hstep
      unfold tmqTopicsAddSubscription
      split
      · exact ⟨hdead, htables⟩
      · constructor
        · apply hdead.of_addTopic
          intro data
          exact .inl ⟨_, rfl, by simp [AList.insert, List.kinsert]⟩
        · apply htables.of_addTopic
          intro data subscribers hsubscribers
          right
          obtain rfl := Option.some.inj hsubscribers
          simp [AList.insert, List.kinsert]
  | removeSubscription topicFilter clientId =>
      exact ⟨noDeadNodes_removeSubscription hdead htables hstep,
        htables.of_removeSubscription hstep⟩
  | addListener topicFilter listener =>
      obtain rfl := Option.some.inj hstep
      unfold tmqTopicsAddListener
      dsimp only
      constructor
      · apply hdead.of_addTopic
        intro data
        exact .inr (.inl (List.cons_ne_nil _ _))
      · apply htables.of_addTopic
        intro data subscribers hsubscribers
        exact .inl hsubscribers
  | addRoute topicFilter memberAddr =>
      obtain rfl := Option.some.inj hstep
      unfold tmqTopicsAddRoute
      dsimp only
      constructor
      · apply hdead.of_addTopic
        intro data
        exact .inr (.inr (List.cons_ne_nil _ _))
      · apply htables.of_addTopic
        intro data subscribers hsubscribers
        exact .inl hsubscribers
  | publish req =>
      obtain rfl := Option.some.inj hstep
      exact ⟨noDeadNodes_publish cJsonParse hdead req, htables.of_publish cJsonParse req⟩

/-! ### Retained messages -/

theorem retained_addTopic (root : TopicNode π) {f : TopicData π → TopicData π}
    (hf : ∀ data, (f data).retainMessage = data.retainMessage) (topicFilter : Bytes)
    (path : List Bytes) :
    (dataAt ((addTopic root topicFilter).modifyValue f (tmqTopicSplit topicFilter))
      path).retainMessage = (dataAt root path).retainMessage := by
  rw [dataAt_addTopic]
  split
  · exact hf _
  · rfl

/-- A message is retained under a path when it was, or when a call publishes it
there. -/
theorem retained_step [TmqString π] (cJsonParse : π → Option J) {topics next : Topics π}
    {call : TreeCall π} (hstep : call.step cJsonParse topics = some next) (path : List Bytes) :
    (dataAt next.root path).retainMessage ≠ none ↔
      (dataAt topics.root path).retainMessage ≠ none ∨
        ∃ req, call = .publish req ∧ req.retain = true ∧ path = tmqTopicSplit req.topic := by
  cases call with
  | addSubscription topicFilter clientId info =>
      obtain rfl := Option.some.inj hstep
      unfold tmqTopicsAddSubscription
      split
      · simp
      · dsimp only
        rw [retained_addTopic]
        · simp
        · intro data
          rfl
  | removeSubscription topicFilter clientId =>
      rcases removeSubscription_cases hstep with rfl | ⟨subscribers, htable, rfl⟩
      · simp
      · rw [(dataAt_tryRemoveTopic _ _ path).2, retain_withoutSubscription htable]
        simp
  | addListener topicFilter listener =>
      obtain rfl := Option.some.inj hstep
      unfold tmqTopicsAddListener
      dsimp only
      rw [retained_addTopic]
      · simp
      · intro data
        rfl
  | addRoute topicFilter memberAddr =>
      obtain rfl := Option.some.inj hstep
      unfold tmqTopicsAddRoute
      dsimp only
      rw [retained_addTopic]
      · simp
      · intro data
        rfl
  | publish req =>
      obtain rfl := Option.some.inj hstep
      simp only [tmqTopicsPublish, dataAt_matchNode]
      split
      · rename_i hsaved
        simp [hsaved]
      · rename_i hother
        simp only [TreeCall.publish.injEq, exists_eq_left']
        tauto

theorem retained_runs [TmqString π] (cJsonParse : π → Option J) {calls : List (TreeCall π)}
    {topics next : Topics π}
    (hrun : Run.runs (TreeCall.step cJsonParse) topics calls = some next) (path : List Bytes) :
    (dataAt next.root path).retainMessage ≠ none ↔
      (dataAt topics.root path).retainMessage ≠ none ∨
        ∃ req, .publish req ∈ calls ∧ req.retain = true ∧ path = tmqTopicSplit req.topic := by
  induction calls generalizing topics with
  | nil =>
      obtain rfl := Option.some.inj hrun
      simp
  | cons call calls ih =>
      obtain ⟨middle, hfirst, hrest⟩ := Option.bind_eq_some_iff.mp hrun
      rw [ih hrest, retained_step cJsonParse hfirst, or_assoc]
      apply or_congr_right
      constructor
      · rintro (⟨req, rfl, hreq⟩ | ⟨req, hmem, hreq⟩)
        · exact ⟨req, List.mem_cons_self, hreq⟩
        · exact ⟨req, List.mem_cons_of_mem _ hmem, hreq⟩
      · rintro ⟨req, hmem, hreq⟩
        rcases List.mem_cons.mp hmem with rfl | hmem
        · exact .inl ⟨req, rfl, hreq⟩
        · exact .inr ⟨req, hmem, hreq⟩

/-! ### No dead nodes -/

/-- In every reachable tree each node below the root leads further or holds
something, no subscribers table is empty, and the removal of a subscription
ends with the loop of `try_remove_topic`, which needs no more rounds than the
filter has levels. -/
theorem noDeadNodes_of_runs [TmqString π] (cJsonParse : π → Option J) (calls : List (TreeCall π))
    (topics : Topics π)
    (hrun : Run.runs (TreeCall.step cJsonParse) tmqTopicsInit calls = some topics) :
    NoDeadNodes topics.root ∧ TablesNonempty topics.root ∧
      ∀ topicFilter clientId subscribers,
        (dataAt topics.root (tmqTopicSplit topicFilter)).subscribers = some subscribers →
        ∃ next, tmqTopicsRemoveSubscription topics topicFilter clientId = some next ∧
          tryRemoveTopicLoop (tmqTopicSplit topicFilter).length
            (withoutSubscription topics.root topicFilter clientId subscribers)
            (tmqTopicSplit topicFilter).reverse = some next.root := by
  have hinit : NoDeadNodes (tmqTopicsInit : Topics π).root ∧
      TablesNonempty (tmqTopicsInit : Topics π).root := by
    constructor
    · intro path hne hexists
      rw [tmqTopicsInit, Trie.leaf_valueAt, if_neg hne] at hexists
      exact (hexists rfl).elim
    · intro path subscribers hsubscribers
      rw [dataAt_init] at hsubscribers
      cases hsubscribers
  obtain ⟨hdead, htables⟩ := Run.runs_maintains
    (fun topics call next h hstep => noDeadNodes_step cJsonParse h hstep) hinit hrun
  refine ⟨hdead, htables, ?_⟩
  intro topicFilter clientId subscribers htable
  refine ⟨_, removeSubscription_table htable clientId, ?_⟩
  apply tryRemoveTopicLoop_eq
  · simpa using tmqTopicSplit_ne_nil topicFilter
  · rw [List.reverse_reverse, valueAt_withoutSubscription]
    exact exists_of_table htable
  · simp

/-- Two subscriptions, a retained publish, a listener, a route and an
unsubscribe. -/
def occupiedCalls : List (TreeCall Bytes) :=
  [.addSubscription [97, 47, 98] [112] ⟨0, 1⟩, .addSubscription [97, 47, 35] [112] ⟨0, 1⟩,
    .publish (sampleReq [49]), .addListener [98] ⟨0, false⟩, .addRoute [35, 47, 98] [109],
    .removeSubscription [97, 47, 98] [112]]

theorem noDeadNodes_of_runs_sample :
    ∃ topics, Run.runs (TreeCall.step parseDigit) tmqTopicsInit occupiedCalls = some topics ∧
      NoDeadNodes topics.root ∧ TablesNonempty topics.root ∧
      ∀ topicFilter clientId subscribers,
        (dataAt topics.root (tmqTopicSplit topicFilter)).subscribers = some subscribers →
        ∃ next, tmqTopicsRemoveSubscription topics topicFilter clientId = some next ∧
          tryRemoveTopicLoop (tmqTopicSplit topicFilter).length
            (withoutSubscription topics.root topicFilter clientId subscribers)
            (tmqTopicSplit topicFilter).reverse = some next.root :=
  ⟨_, rfl, noDeadNodes_of_runs parseDigit occupiedCalls _ rfl⟩

end TinyMqtt
