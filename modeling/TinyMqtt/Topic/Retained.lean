import TinyMqtt.Topic.Matching

/-!
The retained messages of a subscription. The search walks from the root along
the levels of the filter, through all children for `+` and through the whole
subtree for `#`, and leaves out the nodes that belong to filters with
wildcards. It finds the messages saved under the topics that the filter
matches. What is saved is a C string, so a message with a zero byte in its
payload is found cut off.
-/

namespace TinyMqtt

section Search

variable {π : Type}

theorem wildcardFree_nil : WildcardFree [] := by
  intro level hlevel
  exact (List.not_mem_nil hlevel).elim

theorem wildcardFree_cons (level : Bytes) (path : List Bytes) :
    WildcardFree (level :: path) ↔ isWildcard level = false ∧ WildcardFree path :=
  List.forall_mem_cons

theorem getAllRetainOf_eq_collect (children : Forest Bytes (TopicData π)) :
    getAllRetainOf children = children.collect fun nextLevel next =>
      if isWildcard nextLevel then [] else getAllRetain next := by
  match children with
  | .nil => rfl
  | .cons nextLevel next rest =>
      rw [getAllRetainOf, Forest.collect, getAllRetainOf_eq_collect rest]

theorem getAllRetain_eq (node : TopicNode π) :
    getAllRetain node = node.value.retainMessage.toList ++
      node.children.collect fun nextLevel next =>
        if isWildcard nextLevel then [] else getAllRetain next := by
  cases node
  rw [getAllRetain, getAllRetainOf_eq_collect]
  rfl

def SavedUnder (node : TopicNode π) (path : List Bytes) (message : RetainMessage π) : Prop :=
  WildcardFree path ∧ (dataAt node path).retainMessage = some message

theorem savedUnder_nil (node : TopicNode π) (message : RetainMessage π) :
    SavedUnder node [] message ↔ node.value.retainMessage = some message := by
  simp [SavedUnder, wildcardFree_nil, dataAt]

theorem savedUnder_cons (node : TopicNode π) (level : Bytes) (path : List Bytes)
    (message : RetainMessage π) :
    SavedUnder node (level :: path) message ↔ isWildcard level = false ∧
      ∃ next, node.children.find? level = some next ∧ SavedUnder next path message := by
  unfold SavedUnder
  rw [wildcardFree_cons, dataAt_cons, and_assoc]
  cases node.children.find? level with
  | none =>
      rw [Option.getD_none, dataAt_leaf_new]
      simp [TopicData.new]
  | some next => simp

/-- The messages of all children but the wildcards. -/
theorem mem_collect_saved {node : TopicNode π} (hkeys : node.children.keys.Nodup)
    {f : TopicNode π → List (RetainMessage π)} {Q : List Bytes → Prop}
    {message : RetainMessage π}
    (hf : ∀ name next, node.children.find? name = some next →
      (message ∈ f next ↔ ∃ path, Q path ∧ SavedUnder next path message)) :
    (message ∈ node.children.collect fun name next => if isWildcard name then [] else f next) ↔
      ∃ name path, Q path ∧ SavedUnder node (name :: path) message := by
  rw [Forest.mem_collect hkeys]
  constructor
  · rintro ⟨name, next, hfind, hmem⟩
    split at hmem
    · exact (List.not_mem_nil hmem).elim
    · rename_i hname
      obtain ⟨path, hpath, hsaved⟩ := (hf name next hfind).mp hmem
      refine ⟨name, path, hpath, (savedUnder_cons node name path message).mpr ⟨?_, ?_⟩⟩
      · simpa using hname
      · exact ⟨next, hfind, hsaved⟩
  · rintro ⟨name, path, hpath, hsaved⟩
    obtain ⟨hname, next, hfind, hrest⟩ := (savedUnder_cons node name path message).mp hsaved
    refine ⟨name, next, hfind, ?_⟩
    rw [hname, if_neg Bool.false_ne_true]
    exact (hf name next hfind).mpr ⟨path, hpath, hrest⟩

theorem mem_getAllRetain {node : TopicNode π} (hdistinct : node.Distinct)
    (message : RetainMessage π) :
    message ∈ getAllRetain node ↔ ∃ path, SavedUnder node path message := by
  induction node using Trie.induction_on_children with
  | h node ih =>
      obtain ⟨hkeys, hchildren⟩ := (Trie.distinct_iff node).mp hdistinct
      have hbelow := @mem_collect_saved π node hkeys getAllRetain (fun _ => True) message
        fun name next hfind => by simpa using ih name next hfind (hchildren name next hfind)
      rw [getAllRetain_eq, List.mem_append, Option.mem_toList, hbelow]
      constructor
      · rintro (hhere | ⟨name, path, -, hsaved⟩)
        · exact ⟨[], (savedUnder_nil node message).mpr hhere⟩
        · exact ⟨name :: path, hsaved⟩
      · rintro ⟨path, hsaved⟩
        cases path with
        | nil => exact .inl ((savedUnder_nil node message).mp hsaved)
        | cons name path => exact .inr ⟨name, path, trivial, hsaved⟩

/-- The search finds the messages under the topics that the filter matches. -/
theorem mem_findRetainMessages {levels : List Bytes} (hvalid : ValidFilter levels)
    {node : TopicNode π} (hdistinct : node.Distinct) (message : RetainMessage π) :
    message ∈ findRetainMessages levels node ↔
      ∃ path, filterMatches levels path = true ∧ SavedUnder node path message := by
  induction levels generalizing node with
  | nil =>
      simp only [findRetainMessages, Option.mem_toList, filterMatches_nil_iff, exists_eq_left,
        savedUnder_nil]
  | cons level levels ih =>
      obtain ⟨hkeys, hchildren⟩ := (Trie.distinct_iff node).mp hdistinct
      unfold findRetainMessages
      by_cases hsingle : level = singleWildcard
      · have hmulti : level ≠ multiWildcard := hsingle ▸ singleWildcard_ne_multiWildcard
        rw [if_pos hsingle, mem_collect_saved hkeys fun name next hfind =>
          ih hvalid.tail (hchildren name next hfind)]
        simp only [filterMatches_literal hmulti]
        constructor
        · rintro ⟨name, path, hmatch, hsaved⟩
          exact ⟨name :: path, ⟨name, path, rfl, .inl hsingle, hmatch⟩, hsaved⟩
        · rintro ⟨_, ⟨name, path, rfl, -, hmatch⟩, hsaved⟩
          exact ⟨name, path, hmatch, hsaved⟩
      · rw [if_neg hsingle]
        by_cases hmulti : level = multiWildcard
        · subst hmulti
          obtain rfl := hvalid.multi_last
          rw [if_pos rfl, mem_getAllRetain hdistinct]
          simp [filterMatches]
        · rw [if_neg hmulti]
          simp only [filterMatches_literal hmulti]
          constructor
          · intro hmem
            cases hfind : node.children.find? level with
            | none =>
                rw [hfind] at hmem
                exact (List.not_mem_nil hmem).elim
            | some next =>
                rw [hfind] at hmem
                obtain ⟨path, hmatch, hpath⟩ :=
                  (ih hvalid.tail (hchildren level next hfind)).mp hmem
                refine ⟨level :: path, ⟨level, path, rfl, .inr rfl, hmatch⟩, ?_⟩
                exact (savedUnder_cons node level path message).mpr
                  ⟨by simp [isWildcard, hsingle, hmulti], next, hfind, hpath⟩
          · rintro ⟨path, ⟨name, rest, rfl, hname, hmatch⟩, hpath⟩
            obtain rfl := hname.resolve_left hsingle
            obtain ⟨-, next, hfind, hrest⟩ := (savedUnder_cons node level rest message).mp hpath
            rw [hfind]
            exact (ih hvalid.tail (hchildren level next hfind)).mpr ⟨rest, hmatch, hrest⟩

/-- Every message tells the path it is saved under, from `start` on. -/
def Located (address : RetainMessage π → List Bytes) (start : List Bytes) (node : TopicNode π) :
    Prop :=
  ∀ path message, (dataAt node path).retainMessage = some message →
    address message = start ++ path

theorem Located.child {address : RetainMessage π → List Bytes} {start : List Bytes}
    {node next : TopicNode π} {level : Bytes} (hlocated : Located address start node)
    (hfind : node.children.find? level = some next) : Located address (start ++ [level]) next := by
  intro path message hmessage
  rw [List.append_assoc, List.singleton_append]
  apply hlocated
  rwa [dataAt_cons, hfind]

/-- Located messages of different children are different. -/
theorem nodup_collect_saved {address : RetainMessage π → List Bytes} {start : List Bytes}
    {node : TopicNode π} (hkeys : node.children.keys.Nodup)
    (hlocated : Located address start node) {f : TopicNode π → List (RetainMessage π)}
    (hf : ∀ name next, node.children.find? name = some next → (f next).Nodup ∧
      ∀ message ∈ f next, ∃ path, SavedUnder next path message) :
    (node.children.collect fun name next => if isWildcard name then [] else f next).Nodup := by
  apply Forest.nodup_collect hkeys
  · intro name next hfind
    split
    · exact List.nodup_nil
    · exact (hf name next hfind).1
  · intro message name next name' next' hfind hfind' hmem hmem'
    split at hmem
    · exact (List.not_mem_nil hmem).elim
    · split at hmem'
      · exact (List.not_mem_nil hmem').elim
      · obtain ⟨path, hsaved⟩ := (hf name next hfind).2 message hmem
        obtain ⟨path', hsaved'⟩ := (hf name' next' hfind').2 message hmem'
        have haddress := (hlocated.child hfind path message hsaved.2).symm.trans
          (hlocated.child hfind' path' message hsaved'.2)
        rw [List.append_assoc, List.append_assoc, List.append_cancel_left_eq] at haddress
        exact List.head_eq_of_cons_eq haddress

theorem nodup_getAllRetain {address : RetainMessage π → List Bytes} {start : List Bytes}
    {node : TopicNode π} (hdistinct : node.Distinct) (hlocated : Located address start node) :
    (getAllRetain node).Nodup := by
  induction node using Trie.induction_on_children generalizing start with
  | h node ih =>
      obtain ⟨hkeys, hchildren⟩ := (Trie.distinct_iff node).mp hdistinct
      have hsaved : ∀ name next, node.children.find? name = some next → ∀ message,
          message ∈ getAllRetain next ↔ ∃ path, SavedUnder next path message :=
        fun name next hfind => mem_getAllRetain (hchildren name next hfind)
      rw [getAllRetain_eq, List.nodup_append']
      refine ⟨?_, ?_, ?_⟩
      · exact Option.toList_nodup _
      · apply nodup_collect_saved hkeys hlocated
        intro name next hfind
        constructor
        · exact ih name next hfind (hchildren name next hfind) (hlocated.child hfind)
        · intro message
          exact (hsaved name next hfind message).mp
      · intro message hhere hbelow
        rw [Option.mem_toList] at hhere
        rw [@mem_collect_saved π node hkeys getAllRetain (fun _ => True) message
          fun name next hfind => by simpa using hsaved name next hfind message] at hbelow
        obtain ⟨name, path, -, hpath⟩ := hbelow
        have haddress := (hlocated [] message (by simpa [dataAt] using hhere)).symm.trans
          (hlocated (name :: path) message hpath.2)
        simp at haddress

theorem nodup_findRetainMessages {levels : List Bytes} (hvalid : ValidFilter levels)
    {address : RetainMessage π → List Bytes} {start : List Bytes} {node : TopicNode π}
    (hdistinct : node.Distinct) (hlocated : Located address start node) :
    (findRetainMessages levels node).Nodup := by
  induction levels generalizing node start with
  | nil =>
      rw [findRetainMessages]
      exact Option.toList_nodup _
  | cons level levels ih =>
      obtain ⟨hkeys, hchildren⟩ := (Trie.distinct_iff node).mp hdistinct
      unfold findRetainMessages
      split
      · apply nodup_collect_saved hkeys hlocated
        intro name next hfind
        refine ⟨ih hvalid.tail (hchildren name next hfind) (hlocated.child hfind), ?_⟩
        intro message hmem
        obtain ⟨path, -, hsaved⟩ :=
          (mem_findRetainMessages hvalid.tail (hchildren name next hfind) message).mp hmem
        exact ⟨path, hsaved⟩
      · split
        · exact nodup_getAllRetain hdistinct hlocated
        · cases hfind : node.children.find? level with
          | none => exact List.nodup_nil
          | some next => exact ih hvalid.tail (hchildren level next hfind) (hlocated.child hfind)

theorem findRetainMessages_skipLiteralLevels (levels : List Bytes) (node : TopicNode π) :
    findRetainMessages (skipLiteralLevels levels node).2 (skipLiteralLevels levels node).1
      = findRetainMessages levels node := by
  induction levels generalizing node with
  | nil => rfl
  | cons level levels ih =>
      unfold skipLiteralLevels
      split
      · rfl
      · rename_i hlevel
        have hliteral : level ≠ singleWildcard ∧ level ≠ multiWildcard := by
          simpa [isWildcard] using hlevel
        cases hfind : node.children.find? level with
        | none => rfl
        | some next =>
            dsimp only
            rw [ih next, findRetainMessages.eq_def (level :: levels)]
            simp only [hliteral.1, hliteral.2, if_false, hfind]

theorem findRetainMessages_leaf (levels : List Bytes) :
    findRetainMessages levels (.leaf .new : TopicNode π) = [] := by
  cases levels with
  | nil => rfl
  | cons level path =>
      rw [findRetainMessages]
      split
      · rfl
      · split <;> rfl

/-- A new filter in the tree changes nothing that is found. -/
theorem retained_grow_modifyValue {f : TopicData π → TopicData π}
    (hf : ∀ data, (f data).retainMessage = data.retainMessage) (path : List Bytes)
    (node : TopicNode π) :
    getAllRetain ((node.grow .new path).modifyValue f path) = getAllRetain node ∧
      ∀ levels, findRetainMessages levels ((node.grow .new path).modifyValue f path)
        = findRetainMessages levels node := by
  induction path generalizing node with
  | nil =>
      obtain ⟨data, children⟩ := node
      refine ⟨by simp [Trie.grow, Trie.modifyValue, Trie.modify, getAllRetain, hf], ?_⟩
      intro levels
      cases levels with
      | nil => simp [Trie.grow, Trie.modifyValue, Trie.modify, findRetainMessages, hf]
      | cons level levels =>
          simp [Trie.grow, Trie.modifyValue, Trie.modify, findRetainMessages, getAllRetain, hf]
  | cons k path ih =>
      obtain ⟨hall, hfind⟩ := ih ((node.children.find? k).getD (.leaf .new))
      -- the child of the first level is replaced by one in which the same is found
      obtain ⟨child, hchild⟩ : ∃ child, (((node.children.find? k).getD (.leaf .new)).grow .new
          path).modifyValue f path = child := ⟨_, rfl⟩
      rw [hchild] at hall hfind
      rw [Trie.modifyValue_grow_cons, hchild]
      have hsame {g : TopicNode π → List (RetainMessage π)} (hempty : g (.leaf .new) = [])
          (hg : g child = g ((node.children.find? k).getD (.leaf .new))) :
          g child = (node.children.find? k).elim [] g := by
        rw [hg]
        cases node.children.find? k with
        | none => exact hempty
        | some old => rfl
      have hcollect {g : TopicNode π → List (RetainMessage π)} (hempty : g (.leaf .new) = [])
          (hg : g child = g ((node.children.find? k).getD (.leaf .new))) :
          (node.children.put k child).collect
              (fun nextLevel next => if isWildcard nextLevel then [] else g next)
            = node.children.collect
              fun nextLevel next => if isWildcard nextLevel then [] else g next := by
        apply Forest.collect_put
        split
        · cases node.children.find? k <;> rfl
        · exact hsame hempty hg
      have hall' : getAllRetain (.node node.value (node.children.put k child))
          = getAllRetain node := by
        rw [getAllRetain_eq, getAllRetain_eq node]
        exact congrArg _ (hcollect rfl hall)
      refine ⟨hall', fun levels => ?_⟩
      cases levels with
      | nil => rfl
      | cons level levels =>
          rw [findRetainMessages, findRetainMessages]
          by_cases hsingle : level = singleWildcard
          · rw [if_pos hsingle, if_pos hsingle]
            exact hcollect (findRetainMessages_leaf levels) (hfind levels)
          · by_cases hmulti : level = multiWildcard
            · rw [if_neg hsingle, if_neg hsingle, if_pos hmulti, if_pos hmulti]
              exact hall'
            · rw [if_neg hsingle, if_neg hsingle, if_neg hmulti, if_neg hmulti,
                Trie.children_node, Forest.find?_put]
              by_cases hk : k = level
              · subst hk
                rw [if_pos rfl]
                change findRetainMessages levels child = _
                rw [hsame (findRetainMessages_leaf levels) (hfind levels)]
                cases node.children.find? k <;> rfl
              · rw [if_neg hk]

/-- The fast path along the literal levels finds nothing else than the search. -/
theorem subscriptionRetain_eq (root : TopicNode π) (levels : List Bytes) :
    subscriptionRetain root levels = findRetainMessages levels root := by
  rw [← findRetainMessages_skipLiteralLevels levels root, subscriptionRetain]
  obtain ⟨node, left⟩ := skipLiteralLevels levels root
  cases left with
  | cons level left => rfl
  | nil =>
      dsimp only
      rw [findRetainMessages]
      cases node.value.retainMessage <;> rfl

end Search

/-! ### Distinct children -/

section Distinct

variable {π J : Type}

theorem distinct_addTopic {root : TopicNode π} (h : root.Distinct)
    (f : TopicData π → TopicData π) (topicFilter : Bytes) (levels : List Bytes) :
    ((addTopic root topicFilter).modifyValue f levels).Distinct :=
  (h.grow .new (tmqTopicSplit topicFilter)).modifyValue f levels

theorem distinct_tryRemoveTopic {root : TopicNode π} (h : root.Distinct)
    (reversed : List Bytes) : (tryRemoveTopic root reversed).Distinct := by
  induction reversed generalizing root with
  | nil => exact h
  | cons level parent ih =>
      unfold tryRemoveTopic
      split
      · exact h
      · split
        · exact ih (h.eraseChild parent.reverse level)
        · exact h

theorem distinct_removeSubscription {topics next : Topics π} (h : topics.root.Distinct)
    {topicFilter clientId : Bytes}
    (hremove : tmqTopicsRemoveSubscription topics topicFilter clientId = some next) :
    next.root.Distinct := by
  rcases removeSubscription_cases hremove with rfl | ⟨subscribers, -, rfl⟩
  · exact h
  · apply distinct_tryRemoveTopic
    exact h.modifyValue _ _

theorem distinct_matchNode [TmqString π] (cJsonParse : π → Option J) (req : PublishReq π)
    (path levels : List Bytes) {node : TopicNode π} (h : node.Distinct) (retain : Bool) :
    (matchNode cJsonParse req path levels node false retain).1.Distinct := by
  induction levels generalizing path node with
  | nil =>
      rw [Trie.distinct_iff] at h ⊢
      exact h
  | cons level levels ih =>
      rw [matchNode_cons_tree]
      unfold descend
      cases hnext : nextOrNew node.children level retain with
      | none =>
          rw [Trie.distinct_iff] at h ⊢
          exact h
      | some next =>
          have hchild := h.childOr .new level
          rw [← nextOrNew_getD _ _ retain, hnext] at hchild
          exact h.put (ih _ hchild) _ level

end Distinct

/-! ### Reachable trees -/

/-- A message as `tmq_str_assign` saves it. -/
def RetainMessage.saved (message : RetainMessage Bytes) : RetainMessage Bytes :=
  ⟨⟨tmqStrNew message.retainMsg.message, message.retainMsg.qos⟩, tmqStrNew message.retainTopic⟩

theorem RetainMessage.saved_eq_self_iff (message : RetainMessage Bytes) :
    message.saved = message ↔ 0 ∉ message.retainMsg.message ∧ 0 ∉ message.retainTopic := by
  obtain ⟨⟨payload, qos⟩, topic⟩ := message
  simp [RetainMessage.saved, cstr_eq_self_iff]

theorem RetainMessage.saved_saved (message : RetainMessage Bytes) :
    message.saved.saved = message.saved := by
  simp [RetainMessage.saved]

/-- The last retained publish to each topic. Topics are C strings. -/
abbrev LastRetained := Bytes → Option (RetainMessage Bytes)

def TopicCall.retain (last : LastRetained) : TopicCall Bytes → LastRetained
  | .publish req =>
      if req.retain then Function.update last (cstr req.topic) (some ⟨req.message, req.topic⟩)
      else last
  | _ => last

/-- Only topics without wildcards are published to. -/
def TopicCall.NamesTopic : TopicCall Bytes → Prop
  | .publish req => WildcardFree (tmqTopicSplit req.topic)
  | _ => True

/-- The tree holds the last retained message of every topic and no others. -/
structure RetainTree (root : TopicNode Bytes) (last : LastRetained) : Prop where
  distinct : root.Distinct
  saved : ∀ topic, (dataAt root (tmqTopicSplit topic)).retainMessage
    = (last (cstr topic)).map RetainMessage.saved
  topics : ∀ path, (dataAt root path).retainMessage ≠ none →
    ∃ topic, path = tmqTopicSplit topic ∧ WildcardFree path
  named : ∀ topic message, last topic = some message → cstr message.retainTopic = topic

/-- Calls that touch no retained message keep the relation. -/
theorem RetainTree.of_unchanged {root next : TopicNode Bytes} {last : LastRetained}
    (h : RetainTree root last) (hdistinct : next.Distinct)
    (hsame : ∀ path, (dataAt next path).retainMessage = (dataAt root path).retainMessage) :
    RetainTree next last := by
  constructor
  · exact hdistinct
  · intro topic
    rw [hsame]
    exact h.saved topic
  · intro path hpath
    rw [hsame] at hpath
    exact h.topics path hpath
  · exact h.named

theorem retainTree_init : RetainTree (tmqTopicsInit : Topics Bytes).root fun _ => none := by
  constructor
  · exact Trie.distinct_leaf _
  · intro topic
    rw [tmqTopicsInit, dataAt_leaf_new]
    rfl
  · intro path hpath
    rw [tmqTopicsInit, dataAt_leaf_new] at hpath
    exact (hpath rfl).elim
  · intro topic message hmessage
    cases hmessage

theorem RetainTree.of_addTopic {root : TopicNode Bytes} {last : LastRetained}
    (h : RetainTree root last) {f : TopicData Bytes → TopicData Bytes}
    (hf : ∀ data, (f data).retainMessage = data.retainMessage) (topicFilter : Bytes) :
    RetainTree ((addTopic root topicFilter).modifyValue f (tmqTopicSplit topicFilter)) last := by
  apply h.of_unchanged (distinct_addTopic h.distinct _ _ _)
  intro path
  rw [dataAt_addTopic]
  split
  · rw [hf]
  · rfl

theorem retain_removeSubscription {topics next : Topics Bytes} {topicFilter clientId : Bytes}
    (hremove : tmqTopicsRemoveSubscription topics topicFilter clientId = some next)
    (path : List Bytes) :
    (dataAt next.root path).retainMessage = (dataAt topics.root path).retainMessage := by
  rcases removeSubscription_cases hremove with rfl | ⟨subscribers, htable, rfl⟩
  · rfl
  · rw [(dataAt_tryRemoveTopic _ _ path).2, withoutSubscription,
      dataAt_modifyValue (exists_of_table htable)]
    split <;> rfl

theorem retainTree_publish {J : Type} (cJsonParse : Bytes → Option J) {topics : Topics Bytes}
    {last : LastRetained} (h : RetainTree topics.root last) {req : PublishReq Bytes}
    (hfree : WildcardFree (tmqTopicSplit req.topic)) :
    RetainTree (tmqTopicsPublish cJsonParse topics req).1.root
      ((TopicCall.publish req).retain last) := by
  have hdata : ∀ path, dataAt (tmqTopicsPublish cJsonParse topics req).1.root path = _ :=
    dataAt_matchNode cJsonParse req [] (tmqTopicSplit req.topic) topics.root req.retain
  have hdistinct : (tmqTopicsPublish cJsonParse topics req).1.root.Distinct :=
    distinct_matchNode cJsonParse req [] (tmqTopicSplit req.topic) h.distinct req.retain
  simp only [TopicCall.retain]
  cases hretain : req.retain with
  | false =>
      apply h.of_unchanged hdistinct
      intro path
      rw [hdata, hretain]
      simp
  | true =>
      simp only [hretain, true_and] at hdata
      rw [if_pos rfl]
      constructor
      · exact hdistinct
      · intro topic
        rw [hdata]
        by_cases hsame : cstr topic = cstr req.topic
        · rw [if_pos (tmqTopicSplit_inj.mpr hsame), hsame, Function.update_self]
          rfl
        · rw [if_neg (mt tmqTopicSplit_inj.mp hsame), Function.update_of_ne hsame]
          exact h.saved topic
      · intro path hpath
        rw [hdata] at hpath
        split at hpath
        · rename_i hsame
          exact ⟨req.topic, hsame, hsame ▸ hfree⟩
        · exact h.topics path hpath
      · intro topic message hmessage
        by_cases hsame : topic = cstr req.topic
        · rw [hsame, Function.update_self] at hmessage
          obtain rfl := Option.some.inj hmessage
          exact hsame.symm
        · rw [Function.update_of_ne hsame] at hmessage
          exact h.named topic message hmessage

theorem retainTree_step {J : Type} (cJsonParse : Bytes → Option J) {topics next : Topics Bytes}
    {last : LastRetained} (h : RetainTree topics.root last) {call : TopicCall Bytes}
    (hnames : call.NamesTopic) (hstep : call.step cJsonParse topics = some next) :
    RetainTree next.root (call.retain last) := by
  cases call with
  | addSubscription topicFilter clientId info =>
      obtain rfl := Option.some.inj hstep
      unfold tmqTopicsAddSubscription
      split
      · exact h
      · apply h.of_addTopic
        intro data
        rfl
  | removeSubscription topicFilter clientId =>
      apply h.of_unchanged (distinct_removeSubscription h.distinct hstep)
      exact retain_removeSubscription hstep
  | addListener topicFilter listener =>
      obtain rfl := Option.some.inj hstep
      unfold tmqTopicsAddListener
      dsimp only
      apply h.of_addTopic
      intro data
      rfl
  | addRoute topicFilter memberAddr =>
      obtain rfl := Option.some.inj hstep
      unfold tmqTopicsAddRoute
      dsimp only
      apply h.of_addTopic
      intro data
      rfl
  | publish req =>
      obtain rfl := Option.some.inj hstep
      exact retainTree_publish cJsonParse h hnames

/-! ### Subscribing -/

variable {J : Type} (cJsonParse : Bytes → Option J)

/-- A publish to the topic meets the subscribers of the filter. -/
def PublishMatches (topics : Topics Bytes) (topicFilter topic : Bytes) : Prop :=
  ∀ req : PublishReq Bytes, req.topic = topic →
    clientMatchesAt (tmqTopicSplit topicFilter) (tmqTopicsPublish cJsonParse topics req).2.1 ≠ []

/-- The messages a subscription returns are the last retained messages of the
topics whose publishes match the filter, each once. -/
def RetainedAgrees (topics : Topics Bytes) (last : LastRetained) (topicFilter clientId : Bytes)
    (info : SubscribeInfo) : Prop :=
  let (retained, subscribed) := tmqTopicsAddSubscription topics topicFilter clientId info
  retained.Nodup ∧ ∀ message, message ∈ retained ↔
    ∃ topic, last (cstr topic) = some message ∧
      PublishMatches cJsonParse subscribed topicFilter topic

/-- After a subscription a publish matches as the filter does. -/
theorem publishMatches_iff {topics : Topics Bytes} (hvalid : ValidTopics topics)
    {topicFilter topic : Bytes}
    (htable : (dataAt topics.root (tmqTopicSplit topicFilter)).subscribers ≠ none)
    (hfree : WildcardFree (tmqTopicSplit topic)) :
    PublishMatches cJsonParse topics topicFilter topic ↔
      filterMatches (tmqTopicSplit topicFilter) (tmqTopicSplit topic) = true := by
  obtain ⟨subscribers, hsubscribers⟩ := Option.ne_none_iff_exists'.mp htable
  have hclients : ∀ req : PublishReq Bytes, req.topic = topic →
      (clientMatchesAt (tmqTopicSplit topicFilter)
        (tmqTopicsPublish cJsonParse topics req).2.1 ≠ [] ↔
      filterMatches (tmqTopicSplit topicFilter) (tmqTopicSplit topic) = true) := by
    rintro req rfl
    rw [(matchesFilters_publish cJsonParse hvalid.1 hvalid.2 hfree).clients, hsubscribers]
    split
    · rename_i hmatch
      simp [hmatch]
    · rename_i hmatch
      simp [hmatch]
  constructor
  · intro hall
    let req : PublishReq Bytes :=
      { topic := topic, message := ⟨[], 0⟩, retain := false, isTunneledPub := false,
        publisherUsername := [], publisherClientId := [] }
    exact (hclients req rfl).mp (hall req rfl)
  · intro hmatch req hreq
    exact (hclients req hreq).mpr hmatch

/-- What a subscription finds in a tree with known retained messages. -/
theorem mem_subscriptionRetain {root : TopicNode Bytes} {last : LastRetained}
    (h : RetainTree root last) {levels : List Bytes} (hvalid : ValidFilter levels)
    (message : RetainMessage Bytes) :
    message ∈ subscriptionRetain root levels ↔ ∃ topic original,
      last (cstr topic) = some original ∧ filterMatches levels (tmqTopicSplit topic) = true ∧
        message = original.saved := by
  rw [subscriptionRetain_eq, mem_findRetainMessages hvalid h.distinct]
  constructor
  · rintro ⟨path, hmatch, hfree, hsaved⟩
    obtain ⟨topic, rfl, -⟩ := h.topics path (by simp [hsaved])
    rw [h.saved, Option.map_eq_some_iff] at hsaved
    obtain ⟨original, horiginal, rfl⟩ := hsaved
    exact ⟨topic, original, horiginal, hmatch, rfl⟩
  · rintro ⟨topic, original, horiginal, hmatch, rfl⟩
    have hsaved : (dataAt root (tmqTopicSplit topic)).retainMessage = some original.saved := by
      rw [h.saved, horiginal]
      rfl
    obtain ⟨_, -, hfree⟩ := h.topics (tmqTopicSplit topic) (by simp [hsaved])
    exact ⟨tmqTopicSplit topic, hmatch, hfree, hsaved⟩

theorem nodup_subscriptionRetain {root : TopicNode Bytes} {last : LastRetained}
    (h : RetainTree root last) {levels : List Bytes} (hvalid : ValidFilter levels) :
    (subscriptionRetain root levels).Nodup := by
  rw [subscriptionRetain_eq]
  apply @nodup_findRetainMessages Bytes levels hvalid
    (fun message => tmqTopicSplit message.retainTopic) [] root h.distinct
  -- every message carries the topic it was published to
  intro path message hmessage
  obtain ⟨topic, rfl, -⟩ := h.topics path (by simp [hmessage])
  rw [h.saved, Option.map_eq_some_iff] at hmessage
  obtain ⟨original, horiginal, rfl⟩ := hmessage
  rw [List.nil_append, tmqTopicSplit_inj, ← h.named _ _ horiginal]
  simp [RetainMessage.saved]

theorem retainTree_runs {calls : List (TopicCall Bytes)}
    (hnames : ∀ call ∈ calls, call.NamesTopic) {topics : Topics Bytes}
    (hrun : Run.runs (TopicCall.step cJsonParse) tmqTopicsInit calls = some topics) :
    ValidTopics topics ∧
      RetainTree topics.root (calls.foldl TopicCall.retain fun _ => none) := by
  refine @Run.runs_relates _ _ _ TopicCall.NamesTopic (TopicCall.step cJsonParse)
    TopicCall.retain (fun topics last => ValidTopics topics ∧ RetainTree topics.root last) ?_
    calls hnames tmqTopicsInit topics (fun _ => none) ⟨validTopics_init, retainTree_init⟩ hrun
  rintro topics last call next ⟨hvalid, htree⟩ hcall hstep
  exact ⟨validTopics_step cJsonParse hvalid call hstep, retainTree_step cJsonParse htree hcall hstep⟩

/-- The retained messages a subscription returns agree with publish matching
just when no message to be returned was published with a zero byte. -/
theorem retainedAgrees_iff (calls : List (TopicCall Bytes))
    (hnames : ∀ call ∈ calls, call.NamesTopic) (topics : Topics Bytes)
    (hrun : Run.runs (TopicCall.step cJsonParse) tmqTopicsInit calls = some topics)
    (topicFilter : ValidTopicFilter) (hfilter : cstr topicFilter ≠ []) (clientId : Bytes)
    (info : SubscribeInfo) :
    RetainedAgrees cJsonParse topics (calls.foldl TopicCall.retain fun _ => none) topicFilter
        clientId info ↔
      ∀ topic message, calls.foldl TopicCall.retain (fun _ => none) (cstr topic) = some message →
        filterMatches (tmqTopicSplit topicFilter) (tmqTopicSplit topic) = true →
          0 ∉ message.retainMsg.message ∧ 0 ∉ message.retainTopic := by
  obtain ⟨hvalid, htree⟩ := retainTree_runs cJsonParse hnames hrun
  generalize calls.foldl TopicCall.retain (fun _ => none) = last at htree
  let call : TopicCall Bytes := .addSubscription topicFilter clientId info
  let next := tmqTopicsAddSubscription topics topicFilter clientId info
  have hvalid' : ValidTopics next.2 := validTopics_step cJsonParse hvalid call rfl
  have htree' : RetainTree next.2.root last := by
    apply @retainTree_step J cJsonParse topics next.2 last htree call trivial rfl
  have hlength : ¬ (cstr topicFilter.1).length < 1 := by
    rw [Nat.lt_one_iff, List.length_eq_zero_iff]
    exact hfilter
  have hfound : next.1 = subscriptionRetain next.2.root (tmqTopicSplit topicFilter) := by
    simp only [next, tmqTopicsAddSubscription, hlength, if_false]
  have htable : (dataAt next.2.root (tmqTopicSplit topicFilter)).subscribers ≠ none := by
    simp only [next, tmqTopicsAddSubscription, hlength, if_false, dataAt_addTopic, if_true]
    exact Option.some_ne_none _
  have hfree : ∀ topic message, last (cstr topic) = some message →
      WildcardFree (tmqTopicSplit topic) := by
    intro topic message hlast
    have hsaved := htree'.saved topic
    rw [hlast] at hsaved
    exact (htree'.topics (tmqTopicSplit topic) (by simp [hsaved])).elim fun _ h => h.2
  have hmem := mem_subscriptionRetain htree' topicFilter.2
  rw [← hfound] at hmem
  constructor
  · rintro ⟨-, hagree⟩ topic message hlast hmatch
    have hpublish := (publishMatches_iff cJsonParse hvalid' htable (hfree topic message hlast)).mpr
      hmatch
    obtain ⟨_, original, -, -, rfl⟩ := (hmem message).mp ((hagree message).mpr
      ⟨topic, hlast, hpublish⟩)
    rw [← RetainMessage.saved_eq_self_iff, RetainMessage.saved_saved]
  · intro hzero
    refine ⟨hfound ▸ nodup_subscriptionRetain htree' topicFilter.2, ?_⟩
    intro message
    refine (hmem message).trans ?_
    constructor
    · rintro ⟨topic, original, hlast, hmatch, rfl⟩
      rw [(RetainMessage.saved_eq_self_iff original).mpr (hzero topic original hlast hmatch)]
      exact ⟨topic, hlast,
        (publishMatches_iff cJsonParse hvalid' htable (hfree topic original hlast)).mpr hmatch⟩
    · rintro ⟨topic, hlast, hpublish⟩
      have hmatch := (publishMatches_iff cJsonParse hvalid' htable
        (hfree topic message hlast)).mp hpublish
      refine ⟨topic, message, hlast, hmatch, ?_⟩
      rw [(RetainMessage.saved_eq_self_iff message).mpr (hzero topic message hlast hmatch)]

/-- A subscription of `a/b` and a retained publish to `a`. -/
def retainSample (payload : Bytes) : List (TopicCall Bytes) :=
  [.addSubscription ⟨[97, 47, 98], by decide⟩ [112] ⟨0, 1⟩, .publish (sampleReq payload)]

theorem retainedAgrees_iff_sample :
    ∃ topics, Run.runs (TopicCall.step parseDigit) tmqTopicsInit (retainSample [49]) = some topics ∧
      (RetainedAgrees parseDigit topics ((retainSample [49]).foldl TopicCall.retain fun _ => none)
        [43] [113] ⟨1, 2⟩ ↔
        ∀ topic message, (retainSample [49]).foldl TopicCall.retain (fun _ => none) (cstr topic)
            = some message →
          filterMatches (tmqTopicSplit [43]) (tmqTopicSplit topic) = true →
            0 ∉ message.retainMsg.message ∧ 0 ∉ message.retainTopic) := by
  refine ⟨_, rfl, ?_⟩
  apply retainedAgrees_iff parseDigit (retainSample [49]) _ _ rfl ⟨[43], by decide⟩ (by decide)
  intro call hcall
  fin_cases hcall
  · trivial
  · show WildcardFree (tmqTopicSplit [97])
    decide

/-- The payload is found without its zero byte. -/
theorem not_retainedAgrees_zero :
    ∃ topics,
      Run.runs (TopicCall.step parseDigit) tmqTopicsInit (retainSample [120, 0]) = some topics ∧
      ¬ RetainedAgrees parseDigit topics
        ((retainSample [120, 0]).foldl TopicCall.retain fun _ => none) [43] [113] ⟨1, 2⟩ := by
  refine ⟨_, rfl, ?_⟩
  rintro ⟨-, hagree⟩
  have hfound := (hagree ⟨⟨[120], 0⟩, [97]⟩).mp (by decide)
  obtain ⟨topic, hlast, -⟩ := hfound
  have hfold : (retainSample [120, 0]).foldl TopicCall.retain (fun _ => none)
      = Function.update (fun _ => none) [97] (some ⟨⟨[120, 0], 0⟩, [97]⟩) := rfl
  rw [hfold] at hlast
  by_cases htopic : cstr topic = [97]
  · rw [htopic, Function.update_self] at hlast
    revert hlast
    decide
  · rw [Function.update_of_ne htopic] at hlast
    cases hlast

end TinyMqtt
