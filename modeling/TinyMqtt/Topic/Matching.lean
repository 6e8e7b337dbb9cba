import TinyMqtt.Lib.Run
import TinyMqtt.Topic.Spec

/-!
Publishing against the topic tree. `match` descends along a level, along `+`
and along `#`; the filters it can end at are listed by `matchingFilters`, and
they are the filters that match the topic. Only a retained publish changes the
tree, and it changes only the retained message of the topic itself.
-/

namespace TinyMqtt

/-! ### The filters of a topic -/

/-- The filters that match a topic, in the order in which `match` visits them. -/
def matchingFilters : List Bytes → List (List Bytes)
  | [] => [[], [multiWildcard]]
  | level :: levels =>
      (matchingFilters levels).map (level :: ·) ++
        (matchingFilters levels).map (singleWildcard :: ·) ++ [[multiWildcard]]

theorem singleWildcard_ne_multiWildcard : singleWildcard ≠ multiWildcard := by decide

theorem WildcardFree.head {level : Bytes} {levels : List Bytes}
    (hfree : WildcardFree (level :: levels)) :
    level ≠ singleWildcard ∧ level ≠ multiWildcard := by
  have hlevel := hfree level List.mem_cons_self
  simpa [isWildcard] using hlevel

theorem WildcardFree.tail {level : Bytes} {levels : List Bytes}
    (hfree : WildcardFree (level :: levels)) : WildcardFree levels := by
  intro other hother
  exact hfree other (List.mem_cons_of_mem level hother)

theorem mem_matchingFilters {topic : List Bytes} (hfree : WildcardFree topic)
    (filter : List Bytes) : filter ∈ matchingFilters topic ↔ filterMatches filter topic = true := by
  induction topic generalizing filter with
  | nil =>
      cases filter with
      | nil => simp [matchingFilters, filterMatches]
      | cons level filter => simp [matchingFilters, filterMatches]
  | cons name topic ih =>
      cases filter with
      | nil => simp [matchingFilters, filterMatches]
      | cons level filter =>
          have hname := hfree.head
          have ih' := ih hfree.tail filter
          simp only [matchingFilters, List.mem_append, List.mem_map, List.cons.injEq,
            List.mem_singleton]
          by_cases hmulti : level = multiWildcard
          · subst hmulti
            simp [filterMatches, hname.2, singleWildcard_ne_multiWildcard,
              Ne.symm singleWildcard_ne_multiWildcard, Ne.symm hname.2]
          · simp only [filterMatches, hmulti, false_and, if_false, or_false, ← ih',
              Bool.decide_and, Bool.decide_or, Bool.and_eq_true, Bool.or_eq_true,
              decide_eq_true_eq]
            constructor
            · rintro (⟨rest, hrest, rfl, rfl⟩ | ⟨rest, hrest, rfl, rfl⟩)
              · exact ⟨.inr rfl, hrest⟩
              · exact ⟨.inl rfl, hrest⟩
            · rintro ⟨rfl | rfl, hrest⟩
              · exact .inr ⟨filter, hrest, rfl, rfl⟩
              · exact .inl ⟨filter, hrest, rfl, rfl⟩

theorem nodup_matchingFilters {topic : List Bytes} (hfree : WildcardFree topic) :
    (matchingFilters topic).Nodup := by
  induction topic with
  | nil => simp [matchingFilters]
  | cons name topic ih =>
      have hname := hfree.head
      have hcons : ∀ level : Bytes, ((matchingFilters topic).map (level :: ·)).Nodup := by
        intro level
        apply (ih hfree.tail).map
        intro first second hsame
        exact List.tail_eq_of_cons_eq hsame
      rw [matchingFilters, List.nodup_append', List.nodup_append']
      refine ⟨⟨hcons name, hcons singleWildcard, ?_⟩, List.nodup_singleton _, ?_⟩
      · intro filter hfirst hsecond
        obtain ⟨rest, -, rfl⟩ := List.mem_map.mp hfirst
        obtain ⟨rest', -, hsame⟩ := List.mem_map.mp hsecond
        exact hname.1 (List.head_eq_of_cons_eq hsame).symm
      · intro filter hfirst hsecond
        rw [List.mem_singleton] at hsecond
        subst hsecond
        rcases List.mem_append.mp hfirst with hliteral | hsingle
        · obtain ⟨rest, -, hsame⟩ := List.mem_map.mp hliteral
          exact hname.2 (List.head_eq_of_cons_eq hsame)
        · obtain ⟨rest, -, hsame⟩ := List.mem_map.mp hsingle
          exact singleWildcard_ne_multiWildcard (List.head_eq_of_cons_eq hsame)

variable {π J : Type}

/-! ### The tree after a publish -/

theorem dataAt_cons (node : TopicNode π) (level : Bytes) (path : List Bytes) :
    dataAt node (level :: path)
      = dataAt ((node.children.find? level).getD (.leaf .new)) path := by
  rw [dataAt, dataAt, Trie.valueAt_cons]
  cases node.children.find? level with
  | none =>
      rw [Option.bind_none, Option.getD_none, Option.getD_none, Trie.leaf_valueAt]
      split <;> rfl
  | some next => rfl

theorem nextOrNew_false (children : Forest Bytes (TopicData π)) (level : Bytes) :
    nextOrNew children level false = children.find? level := by
  unfold nextOrNew
  cases children.find? level <;> rfl

theorem nextOrNew_true (children : Forest Bytes (TopicData π)) (level : Bytes) :
    nextOrNew children level true = some ((children.find? level).getD (.leaf .new)) := by
  unfold nextOrNew
  cases children.find? level <;> rfl

theorem descend_of_unchanged {α : Type} {children : Forest Bytes (TopicData π)} {level : Bytes}
    {go : TopicNode π → TopicNode π × List α} (hgo : ∀ next, (go next).1 = next) :
    (descend children level (children.find? level) go).1 = children := by
  unfold descend
  cases hfind : children.find? level with
  | none => rfl
  | some next =>
      dsimp only
      rw [hgo, Forest.put_find?_self hfind]

variable [TmqString π] (cJsonParse : π → Option J)

/-- Without the retain flag a publish changes nothing in the tree. -/
theorem matchNode_unretained (req : PublishReq π) (path levels : List Bytes) (node : TopicNode π)
    (isMultiWildcard : Bool) :
    (matchNode cJsonParse req path levels node isMultiWildcard false).1 = node := by
  induction levels generalizing path node isMultiWildcard with
  | nil => cases node; rfl
  | cons level levels ih =>
      obtain ⟨data, children⟩ := node
      cases isMultiWildcard with
      | true => rfl
      | false =>
          simp only [matchNode, Bool.false_eq_true, if_false, nextOrNew_false]
          rw [descend_of_unchanged fun next => ih _ next _,
            descend_of_unchanged fun next => ih _ next _,
            descend_of_unchanged fun next => ih _ next _]
          rfl

/-- Only the descent along the level itself can change the tree. -/
theorem matchNode_cons_tree (req : PublishReq π) (path : List Bytes) (level : Bytes)
    (levels : List Bytes) (node : TopicNode π) (retain : Bool) :
    (matchNode cJsonParse req path (level :: levels) node false retain).1
      = .node node.value (descend node.children level (nextOrNew node.children level retain)
          fun next => matchNode cJsonParse req (path ++ [level]) levels next false retain).1 := by
  simp only [matchNode, Bool.false_eq_true, if_false]
  rw [descend_of_unchanged fun next => matchNode_unretained cJsonParse req _ _ next _,
    descend_of_unchanged fun next => matchNode_unretained cJsonParse req _ _ next _]

/-- A publish saves its message under its topic when it is retained, and
changes nothing else. -/
theorem dataAt_matchNode (req : PublishReq π) (path levels : List Bytes) (node : TopicNode π)
    (retain : Bool) (p : List Bytes) :
    dataAt (matchNode cJsonParse req path levels node false retain).1 p
      = if retain = true ∧ p = levels then
          { dataAt node p with retainMessage := some (retainOf req) }
        else dataAt node p := by
  cases retain with
  | false =>
      rw [matchNode_unretained]
      simp
  | true =>
      simp only [true_and]
      induction levels generalizing path node p with
      | nil =>
          cases node
          cases p with
          | nil => rfl
          | cons level p => rfl
      | cons level levels ih =>
          rw [matchNode_cons_tree]
          cases p with
          | nil => rfl
          | cons level' p =>
              rw [dataAt_cons, dataAt_cons node, nextOrNew_true, descend, Trie.children_node,
                Forest.find?_put]
              by_cases hlevel : level = level'
              · subst hlevel
                rw [if_pos rfl, Option.getD_some, ih]
                simp
              · rw [if_neg hlevel]
                simp [Ne.symm hlevel]

/-! ### The visited nodes -/

/-- What the tree holds for a filter apart from the retained message. -/
def TopicData.content (data : TopicData π) :
    Option SubscribeMap × List EventListener × List Bytes :=
  (data.subscribers, data.listeners, data.subscribeMembers)

omit [TmqString π] in
/-- A visit to a node depends on its content alone. -/
theorem visitNode_congr {req : PublishReq π} {path : List Bytes} {first second : TopicData π}
    (hsame : first.content = second.content) :
    visitNode cJsonParse req path first = visitNode cJsonParse req path second := by
  simp only [TopicData.content, Prod.mk.injEq] at hsame
  obtain ⟨hsubscribers, hlisteners, hmembers⟩ := hsame
  rw [visitNode, visitNode, triggerEvent, triggerEvent, hsubscribers, hlisteners, hmembers]

omit [TmqString π] in
theorem visitNode_new (req : PublishReq π) (path : List Bytes) :
    visitNode cJsonParse req path .new = [] := by
  simp [visitNode, triggerEvent, TopicData.new]

def ValidContent (root : TopicNode π) : Prop :=
  ∀ path, ¬ ValidFilter path → (dataAt root path).content = (.new : TopicData π).content

omit [TmqString π] in
theorem ValidContent.child {node : TopicNode π} (h : ValidContent node) (level : Bytes) :
    ValidContent ((node.children.find? level).getD (.leaf .new)) := by
  intro path hpath
  rw [← dataAt_cons]
  apply h
  intro hvalid
  apply hpath
  cases path with
  | nil => exact List.not_mem_nil
  | cons next path =>
      intro hmem
      apply hvalid
      rw [List.dropLast_cons_of_ne_nil (List.cons_ne_nil next path)]
      exact List.mem_cons_of_mem level hmem

omit [TmqString π] in
theorem nextOrNew_getD (children : Forest Bytes (TopicData π)) (level : Bytes) (retain : Bool) :
    (nextOrNew children level retain).getD (.leaf .new)
      = (children.find? level).getD (.leaf .new) := by
  unfold nextOrNew
  cases children.find? level with
  | none => cases retain <;> rfl
  | some next => rfl

omit [TmqString π] in
theorem dataAt_leaf_new (path : List Bytes) : dataAt (.leaf .new : TopicNode π) path = .new := by
  rw [dataAt, Trie.leaf_valueAt]
  split <;> rfl

/-- The filters that `match` visits for a topic, in order. A `#` node met at the
end of the topic is asked for a `#` child in its turn. -/
def visitedFilters : List Bytes → List (List Bytes)
  | [] => [[], [multiWildcard]]
  | level :: levels =>
      (visitedFilters levels).map (level :: ·) ++
        (visitedFilters levels).map (singleWildcard :: ·) ++
        (if levels = [] then [[], [multiWildcard]] else [[]]).map (multiWildcard :: ·)

omit [TmqString π] in
/-- The visits of a descent are visits below the node. A missing child has the
data of an empty one, and visiting it would do nothing. -/
theorem descend_visits {req : PublishReq π} {path : List Bytes} {filters : List (List Bytes)}
    {node : TopicNode π} {level : Bytes} {next? : Option (TopicNode π)}
    {go : TopicNode π → TopicNode π × List (MatchEvent J)}
    (hnext : ∀ filter, (dataAt node (level :: filter)).content
      = (dataAt (next?.getD (.leaf .new)) filter).content)
    (hgo : ∀ next, (go next).2 = filters.flatMap fun filter =>
      visitNode cJsonParse req (path ++ [level] ++ filter) (dataAt next filter))
    (tree : Forest Bytes (TopicData π)) :
    (descend tree level next? go).2 = filters.flatMap fun filter =>
      visitNode cJsonParse req (path ++ level :: filter) (dataAt node (level :: filter)) := by
  have hvisit : ∀ filter, visitNode cJsonParse req (path ++ level :: filter)
      (dataAt node (level :: filter)) = visitNode cJsonParse req (path ++ level :: filter)
        (dataAt (next?.getD (.leaf .new)) filter) := by
    intro filter
    exact visitNode_congr cJsonParse (hnext filter)
  simp only [hvisit]
  unfold descend
  cases next? with
  | none => simp [dataAt_leaf_new, visitNode_new]
  | some next => simpa using hgo next

/-- At the end of the topic the node and its `#` child are visited. -/
theorem matchNode_nil_events (req : PublishReq π) (path : List Bytes) (node : TopicNode π)
    (isMultiWildcard retain : Bool) :
    (matchNode cJsonParse req path [] node isMultiWildcard retain).2
      = [[], [multiWildcard]].flatMap fun filter =>
          visitNode cJsonParse req (path ++ filter) (dataAt node filter) := by
  obtain ⟨data, children⟩ := node
  simp only [matchNode, List.flatMap_cons, List.flatMap_nil, List.append_nil]
  rw [dataAt_cons, Trie.children_node]
  cases children.find? multiWildcard with
  | none => simp [dataAt, visitNode_new]
  | some next => simp [dataAt]

theorem matchNode_multi_events (req : PublishReq π) (path levels : List Bytes)
    (node : TopicNode π) :
    (matchNode cJsonParse req path levels node true false).2
      = (if levels = [] then [[], [multiWildcard]] else [[]]).flatMap fun filter =>
          visitNode cJsonParse req (path ++ filter) (dataAt node filter) := by
  cases levels with
  | nil =>
      rw [if_pos rfl]
      exact matchNode_nil_events cJsonParse req path node true false
  | cons level levels => simp [matchNode, dataAt]

/-- A publish visits the nodes of the visited filters, in order, and sees there
what the tree held before it. -/
theorem matchNode_visits (req : PublishReq π) (path levels : List Bytes) (node : TopicNode π)
    (retain : Bool) :
    (matchNode cJsonParse req path levels node false retain).2
      = (visitedFilters levels).flatMap fun filter =>
          visitNode cJsonParse req (path ++ filter) (dataAt node filter) := by
  induction levels generalizing path node retain with
  | nil => exact matchNode_nil_events cJsonParse req path node false retain
  | cons level levels ih =>
      -- the wildcards are looked up after the descent along the level, which
      -- may have saved a retained message but changed no content
      have hafter : ∀ wildcard filter, (dataAt node (wildcard :: filter)).content
          = (dataAt (((descend node.children level (nextOrNew node.children level retain)
              fun next => matchNode cJsonParse req (path ++ [level]) levels next false
                retain).1.find? wildcard).getD (.leaf .new)) filter).content := by
        intro wildcard filter
        have hdata := dataAt_matchNode cJsonParse req path (level :: levels) node retain
          (wildcard :: filter)
        rw [matchNode_cons_tree, dataAt_cons, Trie.children_node] at hdata
        rw [hdata]
        split <;> rfl
      simp only [matchNode, Bool.false_eq_true, if_false]
      rw [descend_of_unchanged fun next => matchNode_unretained cJsonParse req _ _ next _]
      simp only [visitedFilters, List.flatMap_append, List.flatMap_map]
      congr 1
      · congr 1
        · apply descend_visits cJsonParse
          · intro filter
            rw [dataAt_cons, nextOrNew_getD]
          · intro next
            exact ih _ next retain
        · apply descend_visits cJsonParse (hafter singleWildcard)
          intro next
          exact ih _ next false
      · apply descend_visits cJsonParse (hafter multiWildcard)
        intro next
        exact matchNode_multi_events cJsonParse req _ levels next

omit [TmqString π] in
/-- Below a `#` node of a tree with valid filters there is nothing to visit. -/
theorem flatMap_visitedFilters (req : PublishReq π) (path levels : List Bytes)
    {node : TopicNode π} (hcontent : ValidContent node) :
    ((visitedFilters levels).flatMap fun filter =>
        visitNode cJsonParse req (path ++ filter) (dataAt node filter))
      = (matchingFilters levels).flatMap fun filter =>
          visitNode cJsonParse req (path ++ filter) (dataAt node filter) := by
  induction levels generalizing path node with
  | nil => rfl
  | cons level levels ih =>
      have hchild : ∀ next, ((visitedFilters levels).flatMap fun filter =>
          visitNode cJsonParse req (path ++ next :: filter) (dataAt node (next :: filter)))
          = (matchingFilters levels).flatMap fun filter =>
              visitNode cJsonParse req (path ++ next :: filter) (dataAt node (next :: filter)) := by
        intro next
        have hbelow := ih (path ++ [next]) (hcontent.child next)
        simpa [dataAt_cons] using hbelow
      have hbelow := hcontent [multiWildcard, multiWildcard] (by decide)
      simp only [visitedFilters, matchingFilters, List.flatMap_append, List.flatMap_map, hchild]
      congr 1
      split
      · simp only [List.flatMap_cons, List.flatMap_nil, List.append_nil]
        rw [visitNode_congr cJsonParse hbelow, visitNode_new, List.append_nil]
      · rfl

/-- A publish visits the filters that match its topic, in order. -/
theorem matchNode_events (req : PublishReq π) (path levels : List Bytes) {node : TopicNode π}
    (hcontent : ValidContent node) (retain : Bool) :
    (matchNode cJsonParse req path levels node false retain).2
      = (matchingFilters levels).flatMap fun filter =>
          visitNode cJsonParse req (path ++ filter) (dataAt node filter) := by
  rw [matchNode_visits, flatMap_visitedFilters cJsonParse req path levels hcontent]

/-- The valid ones among the visited filters are those that match the topic. -/
theorem mem_visitedFilters {filter : List Bytes} (hvalid : ValidFilter filter)
    (topic : List Bytes) : filter ∈ visitedFilters topic ↔ filterMatches filter topic = true := by
  induction topic generalizing filter with
  | nil => cases filter <;> simp [visitedFilters, filterMatches]
  | cons name topic ih =>
      cases filter with
      | nil => simp [visitedFilters, filterMatches]
      | cons level filter =>
          have hrest := ih hvalid.tail
          simp only [visitedFilters, List.mem_append, List.mem_map, List.cons.injEq]
          by_cases hmulti : level = multiWildcard
          · subst hmulti
            obtain rfl := hvalid.multi_last
            have hlast : ([] : List Bytes) ∈ (if topic = [] then [[], [multiWildcard]] else [[]]) := by
              split <;> simp
            simp [filterMatches, hlast]
          · simp only [filterMatches_literal hmulti, List.cons.injEq]
            constructor
            · rintro ((⟨rest, hvisited, rfl, rfl⟩ | ⟨rest, hvisited, rfl, rfl⟩) | ⟨rest, -, rfl, -⟩)
              · exact ⟨_, topic, ⟨rfl, rfl⟩, .inr rfl, hrest.mp hvisited⟩
              · exact ⟨name, topic, ⟨rfl, rfl⟩, .inl rfl, hrest.mp hvisited⟩
              · exact (hmulti rfl).elim
            · rintro ⟨_, _, ⟨rfl, rfl⟩, rfl | rfl, hvisited⟩
              · exact .inl (.inr ⟨filter, hrest.mpr hvisited, rfl, rfl⟩)
              · exact .inl (.inl ⟨filter, hrest.mpr hvisited, rfl, rfl⟩)

/-! ### What a publish calls -/

/-- The subscribers tables handed to `client_on_match` at a node. -/
def clientMatchesAt (path : List Bytes) (events : List (MatchEvent J)) : List SubscribeMap :=
  events.filterMap fun
    | .clientOnMatch visited subscribers => if visited = path then some subscribers else none
    | _ => none

/-- The listeners triggered at a node. -/
def triggeredAt (path : List Bytes) (events : List (MatchEvent J)) : List EventListener :=
  events.filterMap fun
    | .publishEvent visited listener _ => if visited = path then some listener else none
    | _ => none

/-- What a publish with the topic filters that match it does: `admitted` tells
which listeners of a matching node are triggered. -/
structure MatchesFilters (admitted : EventListener → Bool) (topics : Topics π)
    (req : PublishReq π) (after : Topics π × List (MatchEvent J) × Option (Finset Bytes)) :
    Prop where
  clients : ∀ path, clientMatchesAt path after.2.1
    = if filterMatches path (tmqTopicSplit req.topic) then
        (dataAt topics.root path).subscribers.toList
      else []
  listeners : req.isTunneledPub = false → ∀ path, triggeredAt path after.2.1
    = if filterMatches path (tmqTopicSplit req.topic) then
        (dataAt topics.root path).listeners.filter admitted
      else []
  routes : ∀ members, after.2.2 = some members → ∀ member, member ∈ members ↔
    ∃ path, filterMatches path (tmqTopicSplit req.topic) = true ∧
      member ∈ (dataAt topics.root path).subscribeMembers
  routed : req.isTunneledPub = false → after.2.2 = none → ∀ path,
    filterMatches path (tmqTopicSplit req.topic) = true →
      (dataAt topics.root path).subscribeMembers = []
  content : ∀ path, (dataAt after.1.root path).content = (dataAt topics.root path).content

/-- The listeners that `trigger_event` does not skip: those that need the
payload as JSON get nothing when it is not JSON. -/
def wantsEvent (req : PublishReq π) (listener : EventListener) : Bool :=
  !listener.needJsonPayload || (cJsonParse req.message.message).isSome

omit [TmqString π] in
theorem clientMatchesAt_visitNode (req : PublishReq π) (path visited : List Bytes)
    (data : TopicData π) :
    clientMatchesAt path (visitNode cJsonParse req visited data)
      = if visited = path then data.subscribers.toList else [] := by
  have hlisteners : clientMatchesAt path (triggerEvent cJsonParse req visited data) = [] := by
    rw [clientMatchesAt, triggerEvent, List.filterMap_flatMap, List.flatMap_eq_nil_iff]
    intro listener hlistener
    unfold triggerListener
    split
    · cases cJsonParse req.message.message <;> rfl
    · rfl
  have hmembers : clientMatchesAt path
      (data.subscribeMembers.map (.matchedMember visited) : List (MatchEvent J)) = [] := by
    simp [clientMatchesAt, List.filterMap_map]
  unfold clientMatchesAt at *
  rw [visitNode, List.filterMap_append, List.filterMap_append, hmembers, List.append_nil,
    apply_ite (List.filterMap _), hlisteners, List.filterMap_nil, ite_self, List.nil_append]
  cases data.subscribers with
  | none => simp
  | some subscribers => by_cases hvisited : visited = path <;> simp [hvisited]

omit [TmqString π] in
theorem triggeredAt_triggerListener (req : PublishReq π) (path visited : List Bytes)
    (listener : EventListener) :
    triggeredAt path (triggerListener cJsonParse req visited listener)
      = if visited = path then [listener].filter (wantsEvent cJsonParse req) else [] := by
  obtain ⟨address, needJsonPayload⟩ := listener
  cases needJsonPayload with
  | false => by_cases hvisited : visited = path <;> simp [triggerListener, triggeredAt, wantsEvent, hvisited]
  | true =>
      cases hparse : cJsonParse req.message.message with
      | none => simp [triggerListener, triggeredAt, wantsEvent, hparse]
      | some json =>
          by_cases hvisited : visited = path <;>
            simp [triggerListener, triggeredAt, wantsEvent, hparse, hvisited]

omit [TmqString π] in
theorem triggeredAt_visitNode {req : PublishReq π} (hdirect : req.isTunneledPub = false)
    (path visited : List Bytes) (data : TopicData π) :
    triggeredAt path (visitNode cJsonParse req visited data)
      = if visited = path then data.listeners.filter (wantsEvent cJsonParse req) else [] := by
  have hlistener : ∀ listener, List.filterMap _ (triggerListener cJsonParse req visited listener)
      = _ := triggeredAt_triggerListener cJsonParse req path visited
  have hsubscribers : triggeredAt path
      (data.subscribers.toList.map (.clientOnMatch visited) : List (MatchEvent J)) = [] := by
    simp [triggeredAt, List.filterMap_map]
  have hmembers : triggeredAt path
      (data.subscribeMembers.map (.matchedMember visited) : List (MatchEvent J)) = [] := by
    simp [triggeredAt, List.filterMap_map]
  unfold triggeredAt at *
  rw [visitNode, List.filterMap_append, List.filterMap_append, hsubscribers, hmembers,
    List.append_nil, List.append_nil, hdirect, if_neg Bool.false_ne_true, triggerEvent,
    List.filterMap_flatMap]
  simp only [hlistener]
  by_cases hvisited : visited = path
  · simp only [if_pos hvisited, ← List.filter_flatMap]
    rw [List.flatMap_singleton']
  · simp [hvisited]

omit [TmqString π] in
theorem mem_membersOf_visitNode (req : PublishReq π) (visited : List Bytes) (data : TopicData π)
    (member : Bytes) :
    (∃ path, .matchedMember path member ∈ visitNode cJsonParse req visited data) ↔
      member ∈ data.subscribeMembers := by
  have hlisteners : ∀ path, (.matchedMember path member : MatchEvent J) ∉
      triggerEvent cJsonParse req visited data := by
    intro path hmem
    obtain ⟨listener, -, hmem⟩ := List.mem_flatMap.mp hmem
    unfold triggerListener at hmem
    dsimp only at hmem
    split at hmem
    · split at hmem <;> simp at hmem
    · simp at hmem
  unfold visitNode
  cases req.isTunneledPub <;> simp [hlisteners]

theorem mem_membersOf (events : List (MatchEvent J)) (member : Bytes) :
    member ∈ membersOf events ↔ ∃ path, .matchedMember path member ∈ events := by
  rw [membersOf, List.mem_toFinset, List.mem_filterMap]
  constructor
  · rintro ⟨event, hevent, hmember⟩
    cases event with
    | publishEvent path listener event => cases hmember
    | clientOnMatch path subscribers => cases hmember
    | matchedMember path memberAddr =>
        obtain rfl := Option.some.inj hmember
        exact ⟨path, hevent⟩
  · rintro ⟨path, hevent⟩
    exact ⟨_, hevent, rfl⟩

/-- Results for one element of a list without repetitions. -/
theorem flatMap_single {α β : Type} [DecidableEq α] {l : List α} (hnodup : l.Nodup) (a : α)
    (f : α → List β) : (l.flatMap fun b => if b = a then f b else []) = if a ∈ l then f a else [] := by
  induction l with
  | nil => rfl
  | cons b l ih =>
      obtain ⟨hb, hl⟩ := List.nodup_cons.mp hnodup
      rw [List.flatMap_cons, ih hl]
      by_cases hsame : b = a
      · subst hsame
        simp [hb]
      · simp [hsame, Ne.symm hsame]

/-- A publish on a tree with valid filters does what the matching filters say. -/
theorem matchesFilters_publish {topics : Topics π} (hcontent : ValidContent topics.root)
    (hmembers : topics.matchedMembers = ∅) {req : PublishReq π}
    (hfree : WildcardFree (tmqTopicSplit req.topic)) :
    MatchesFilters (wantsEvent cJsonParse req) topics req (tmqTopicsPublish cJsonParse topics req) := by
  have hevents := matchNode_events cJsonParse req [] (tmqTopicSplit req.topic) hcontent req.retain
  have hnodup := nodup_matchingFilters hfree
  have hmem := mem_matchingFilters hfree
  have hroutes : ∀ member, member ∈ membersOf (matchNode cJsonParse req []
      (tmqTopicSplit req.topic) topics.root false req.retain).2 ↔
      ∃ path, filterMatches path (tmqTopicSplit req.topic) = true ∧
        member ∈ (dataAt topics.root path).subscribeMembers := by
    intro member
    rw [mem_membersOf, hevents]
    simp only [List.mem_flatMap, List.nil_append]
    constructor
    · rintro ⟨visited, path, hpath, hvisit⟩
      refine ⟨path, (hmem path).mp hpath, ?_⟩
      exact (mem_membersOf_visitNode cJsonParse req path _ member).mp ⟨visited, hvisit⟩
    · rintro ⟨path, hpath, hmember⟩
      obtain ⟨visited, hvisit⟩ := (mem_membersOf_visitNode cJsonParse req path _ member).mpr hmember
      exact ⟨visited, path, (hmem path).mpr hpath, hvisit⟩
  constructor
  · intro path
    have hvisit := clientMatchesAt_visitNode cJsonParse req path
    unfold clientMatchesAt at *
    simp only [tmqTopicsPublish, hevents, List.filterMap_flatMap, List.nil_append, hvisit]
    rw [flatMap_single hnodup path fun filter => (dataAt topics.root filter).subscribers.toList]
    simp only [hmem]
  · intro hdirect path
    have hvisit := triggeredAt_visitNode cJsonParse hdirect path
    unfold triggeredAt at *
    simp only [tmqTopicsPublish, hevents, List.filterMap_flatMap, List.nil_append, hvisit]
    rw [flatMap_single hnodup path fun filter =>
      (dataAt topics.root filter).listeners.filter (wantsEvent cJsonParse req)]
    simp only [hmem]
  · intro members hsome member
    simp only [tmqTopicsPublish, hmembers, Finset.empty_union] at hsome
    split at hsome
    · obtain rfl := Option.some.inj hsome
      exact hroutes member
    · cases hsome
  · intro hdirect hnone path hpath
    simp only [tmqTopicsPublish, hmembers, Finset.empty_union, hdirect, Bool.false_eq_true,
      not_false_eq_true, and_true, ite_eq_right_iff, reduceCtorEq, imp_false,
      Finset.not_nonempty_iff_eq_empty] at hnone
    rw [List.eq_nil_iff_forall_not_mem]
    intro member hmember
    have hmet := (hroutes member).mpr ⟨path, hpath, hmember⟩
    rw [hnone] at hmet
    exact Finset.notMem_empty member hmet
  · intro path
    simp only [tmqTopicsPublish, dataAt_matchNode]
    split <;> rfl

/-! ### Reachable trees -/

/-- A filter in which `#` stands only last. -/
abbrev ValidTopicFilter := { filter : Bytes // ValidFilter (tmqTopicSplit filter) }

inductive TopicCall (π : Type) where
  | addSubscription (topicFilter : ValidTopicFilter) (clientId : Bytes) (info : SubscribeInfo)
  | removeSubscription (topicFilter : ValidTopicFilter) (clientId : Bytes)
  | addListener (topicFilter : ValidTopicFilter) (listener : EventListener)
  | addRoute (topicFilter : ValidTopicFilter) (memberAddr : Bytes)
  | publish (req : PublishReq π)

def TopicCall.step (topics : Topics π) : TopicCall π → Option (Topics π)
  | .addSubscription topicFilter clientId info =>
      some (tmqTopicsAddSubscription topics topicFilter clientId info).2
  | .removeSubscription topicFilter clientId =>
      tmqTopicsRemoveSubscription topics topicFilter clientId
  | .addListener topicFilter listener => some (tmqTopicsAddListener topics topicFilter listener)
  | .addRoute topicFilter memberAddr => some (tmqTopicsAddRoute topics topicFilter memberAddr)
  | .publish req => some (tmqTopicsPublish cJsonParse topics req).1

omit [TmqString π] in
theorem validContent_addTopic {root : TopicNode π} (h : ValidContent root)
    (f : TopicData π → TopicData π) (topicFilter : ValidTopicFilter) :
    ValidContent ((addTopic root topicFilter).modifyValue f (tmqTopicSplit topicFilter)) := by
  intro path hpath
  rw [dataAt_addTopic, if_neg]
  · exact h path hpath
  · rintro rfl
    exact hpath topicFilter.2

omit [TmqString π] in
theorem validContent_removeSubscription {topics next : Topics π} (h : ValidContent topics.root)
    {topicFilter : ValidTopicFilter} {clientId : Bytes}
    (hremove : tmqTopicsRemoveSubscription topics topicFilter clientId = some next) :
    ValidContent next.root := by
  intro path hpath
  have hother : path ≠ tmqTopicSplit topicFilter := by
    rintro rfl
    exact hpath topicFilter.2
  rcases dataAt_removeSubscription hremove hother with hsame | hnew
  · rw [hsame]
    exact h path hpath
  · rw [hnew]

omit [TmqString π] in
theorem matchedMembers_removeSubscription {topics next : Topics π} {topicFilter clientId : Bytes}
    (hremove : tmqTopicsRemoveSubscription topics topicFilter clientId = some next) :
    next.matchedMembers = topics.matchedMembers := by
  rcases removeSubscription_cases hremove with rfl | ⟨subscribers, -, rfl⟩ <;> rfl

def ValidTopics (topics : Topics π) : Prop :=
  ValidContent topics.root ∧ topics.matchedMembers = ∅

theorem validTopics_step {topics next : Topics π} (h : ValidTopics topics) (call : TopicCall π)
    (hstep : call.step cJsonParse topics = some next) : ValidTopics next := by
  obtain ⟨hcontent, hmembers⟩ := h
  cases call with
  | addSubscription topicFilter clientId info =>
      obtain rfl := Option.some.inj hstep
      unfold tmqTopicsAddSubscription
      split
      · exact ⟨hcontent, hmembers⟩
      · exact ⟨validContent_addTopic hcontent _ topicFilter, hmembers⟩
  | removeSubscription topicFilter clientId =>
      constructor
      · exact validContent_removeSubscription hcontent hstep
      · exact (matchedMembers_removeSubscription hstep).trans hmembers
  | addListener topicFilter listener =>
      obtain rfl := Option.some.inj hstep
      refine ⟨?_, hmembers⟩
      unfold tmqTopicsAddListener
      dsimp only
      apply validContent_addTopic hcontent
  | addRoute topicFilter memberAddr =>
      obtain rfl := Option.some.inj hstep
      refine ⟨?_, hmembers⟩
      unfold tmqTopicsAddRoute
      dsimp only
      apply validContent_addTopic hcontent
  | publish req =>
      obtain rfl := Option.some.inj hstep
      refine ⟨?_, rfl⟩
      intro path hpath
      rw [← hcontent path hpath]
      simp only [tmqTopicsPublish, dataAt_matchNode]
      split <;> rfl

omit [TmqString π] in
theorem validTopics_init : ValidTopics (tmqTopicsInit : Topics π) := by
  refine ⟨?_, rfl⟩
  intro path hpath
  rw [tmqTopicsInit, dataAt_leaf_new]

theorem validTopics_of_runs {calls : List (TopicCall π)} {topics : Topics π}
    (hrun : Run.runs (TopicCall.step cJsonParse) tmqTopicsInit calls = some topics) :
    ValidTopics topics := by
  refine Run.runs_maintains ?_ validTopics_init hrun
  intro topics call next h hstep
  exact validTopics_step cJsonParse h call hstep

/-- Publishing on a tree built by calls with valid filters: the subscribers of
the matching nodes are met once each and nothing else is, the listeners of the
matching nodes are triggered unless the payload they need is not JSON, the
routes are those of the matching nodes, and the content of the tree stays. -/
theorem publish_matches_filters (calls : List (TopicCall π)) (topics : Topics π)
    (hrun : Run.runs (TopicCall.step cJsonParse) tmqTopicsInit calls = some topics)
    (req : PublishReq π) (hfree : WildcardFree (tmqTopicSplit req.topic)) :
    MatchesFilters (wantsEvent cJsonParse req) topics req (tmqTopicsPublish cJsonParse topics req) := by
  have hvalid := validTopics_of_runs cJsonParse hrun
  exact matchesFilters_publish cJsonParse hvalid.1 hvalid.2 hfree

/-- A parser that agrees with `cJSON_Parse` on the payloads `1` and `x`. -/
def parseDigit (payload : Bytes) : Option Nat :=
  if payload = [49] then some 1 else none

/-- Subscriptions of `a/#` and `+`, a listener on `a` that needs JSON and a
route on `b`. -/
def sampleCalls : List (TopicCall Bytes) :=
  [.addSubscription ⟨[97, 47, 35], by decide⟩ [112] ⟨0, 1⟩,
    .addSubscription ⟨[43], by decide⟩ [113] ⟨1, 2⟩,
    .addListener ⟨[97], by decide⟩ ⟨0, true⟩, .addRoute ⟨[98], by decide⟩ [109]]

/-- A publish to `a`. -/
def sampleReq (payload : Bytes) : PublishReq Bytes :=
  { topic := [97], message := ⟨payload, 0⟩, retain := true, isTunneledPub := false,
    publisherUsername := [], publisherClientId := [112] }

theorem publish_matches_filters_sample :
    ∃ topics, Run.runs (TopicCall.step parseDigit) tmqTopicsInit sampleCalls = some topics ∧
      WildcardFree (tmqTopicSplit (sampleReq [49]).topic) ∧
      MatchesFilters (wantsEvent parseDigit (sampleReq [49])) topics (sampleReq [49])
        (tmqTopicsPublish parseDigit topics (sampleReq [49])) := by
  refine ⟨_, rfl, by decide, ?_⟩
  exact publish_matches_filters parseDigit sampleCalls _ rfl (sampleReq [49]) (by decide)

/-- The payload `x` is not JSON, and the listener on `a` is not triggered. -/
theorem publish_not_all_listeners :
    ¬ ∀ topics, Run.runs (TopicCall.step parseDigit) tmqTopicsInit sampleCalls = some topics →
      MatchesFilters (fun _ => true) topics (sampleReq [120])
        (tmqTopicsPublish parseDigit topics (sampleReq [120])) := by
  intro hall
  have hlisteners := (hall _ rfl).listeners rfl [[97]]
  revert hlisteners
  decide

end TinyMqtt
