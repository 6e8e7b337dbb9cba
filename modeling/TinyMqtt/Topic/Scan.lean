import TinyMqtt.Acl.Acl
import TinyMqtt.Topic.Tree

/-!
The scan for levels with two pointers, which `tmq_topic_split` and the two
functions `add_topic_or_find` have each for themselves. All three cut a string
at the same places, the special case for a separator at the end included.
-/

namespace TinyMqtt

namespace Scan

variable {σ : Type}

/-- The inner loop: `rp` goes from `lp` to the next separator, or to the end. -/
def levelEnd (lp : Bytes) : Bytes := lp.dropWhile (· ≠ levelSeparator)

theorem length_levelEnd_le (lp : Bytes) : (levelEnd lp).length ≤ lp.length :=
  (List.dropWhile_sublist (· ≠ levelSeparator)).length_le

/-- The bytes between `lp` and `rp`. -/
def levelAt (lp : Bytes) : Bytes :=
  if levelEnd lp = lp then [] else lp.take (lp.length - (levelEnd lp).length)

/-- The loop, from where `lp` points to on. What is done with a level may end
it (`break`); what is done with the empty level behind a last separator stands
in a case of its own. -/
def scan (visit : σ → Bytes → Option (σ × Bool)) (last : σ → Bytes → Option σ) (state : σ)
    (lp : Bytes) : Option σ :=
  match visit state (levelAt lp) with
  | none => none
  | some (state, false) => some state
  | some (state, true) =>
      match _hend : levelEnd lp with
      | [] => some state
      | _ :: next => if next = [] then last state [] else scan visit last state next
termination_by lp.length
decreasing_by
  have hle := length_levelEnd_le lp
  rw [_hend, List.length_cons] at hle
  omega

def tmqTopicSplit (str : Bytes) : Option (List Bytes) :=
  scan (fun levels level => some (levels ++ [level], true))
    (fun levels level => some (levels ++ [level])) [] (cstr str)

/-! ### Trees of levels -/

variable {α : Type}

/-- `find_or_create` at the node that `cur` points to. -/
def findOrCreate (new : α) (root : Trie Bytes α) (cur : List Bytes) (level : Bytes)
    (create : Bool) : Option (Trie Bytes α × Option (List Bytes)) := do
  let node ← root.find? cur
  match node.children.find? level with
  | some _ => some (root, some (cur ++ [level]))
  | none =>
      if create then
        some (root.modify (fun t => .node t.value (t.children.put level (.leaf new))) cur,
          some (cur ++ [level]))
      else some (root, none)

/-- What `add_topic_or_find` works on: the tree, the node it has come to, null
when there is none, and the nodes on the way (the vector `path`). -/
structure TreeScan (α : Type) where
  root : Trie Bytes α
  node : Option (List Bytes)
  path : List (Option (List Bytes))

/-- `node = find_or_create(node, level, create)`. -/
def TreeScan.step (new : α) (create : Bool) (s : TreeScan α) (level : Bytes) :
    Option (TreeScan α) := do
  let cur ← s.node
  let (root, node) ← findOrCreate new s.root cur level create
  some { s with root := root, node := node }

def TreeScan.visit (new : α) (create : Bool) (s : TreeScan α) (level : Bytes) :
    Option (TreeScan α × Bool) := do
  let s ← s.step new create level
  some (if s.node.isNone then (s, false) else ({ s with path := s.path ++ [s.node] }, true))

/-- The special case: the node goes into the path even when it is null. -/
def TreeScan.visitLast (new : α) (create : Bool) (s : TreeScan α) (level : Bytes) :
    Option (TreeScan α) := do
  let s ← s.step new create level
  some { s with path := s.path ++ [s.node] }

/-- `add_topic_or_find` of the topic tree. -/
def topicAddTopicOrFind {π : Type} (root : TopicNode π) (topicFilter : Bytes) (add : Bool) :
    Option (TreeScan (TopicData π)) :=
  scan (TreeScan.visit .new add) (TreeScan.visitLast .new add) ⟨root, some [], [some []]⟩
    (cstr topicFilter)

/-- `add_topic_or_find` of the access control list, which always creates. It
has no vector; the path says which nodes it comes by. -/
def aclAddTopicOrFind (root : AclNode) (topicFilter : Bytes) : Option (TreeScan AclData) :=
  scan (TreeScan.visit .new true) (TreeScan.visitLast .new true) ⟨root, some [], [some []]⟩
    (cstr topicFilter)

/-! ### Where a string is cut -/

/-- A string is one level, or a level, a separator and a string. -/
theorem levels_induction {P : Bytes → Prop} (single : ∀ level, levelSeparator ∉ level → P level)
    (more : ∀ level next, levelSeparator ∉ level → P next → P (level ++ levelSeparator :: next))
    (s : Bytes) : P s := by
  by_cases hmem : levelSeparator ∈ s
  · obtain ⟨level, next, rfl, hlevel⟩ := List.eq_append_cons_of_mem hmem
    exact more level next hlevel (levels_induction single more next)
  · exact single s hmem
termination_by s.length

variable {visit : σ → Bytes → Option (σ × Bool)} {last : σ → Bytes → Option σ}

theorem levelEnd_single {level : Bytes} (hlevel : levelSeparator ∉ level) :
    levelEnd level = [] ∧ levelAt level = level := by
  have hend : levelEnd level = [] := by
    rw [levelEnd, List.dropWhile_eq_nil_iff]
    intro c hc
    apply decide_eq_true
    rintro rfl
    exact hlevel hc
  refine ⟨hend, ?_⟩
  rw [levelAt, hend]
  split
  · next hnil => exact hnil
  · exact List.take_of_length_le le_rfl

theorem levelEnd_more {level : Bytes} (hlevel : levelSeparator ∉ level) (next : Bytes) :
    levelEnd (level ++ levelSeparator :: next) = levelSeparator :: next ∧
      levelAt (level ++ levelSeparator :: next) = level := by
  have hend : levelEnd (level ++ levelSeparator :: next) = levelSeparator :: next := by
    rw [levelEnd, List.dropWhile_append_of_pos, List.dropWhile_cons_of_neg (by simp)]
    intro c hc
    apply decide_eq_true
    rintro rfl
    exact hlevel hc
  refine ⟨hend, ?_⟩
  rw [levelAt, hend]
  split
  · next hnil => exact (List.self_eq_append_left.mp hnil).symm
  · rw [List.length_append, Nat.add_sub_cancel]
    exact List.take_left

/-- The scan of a string without a separator. -/
theorem scan_single {level : Bytes} (hlevel : levelSeparator ∉ level) (state : σ) :
    scan visit last state level = (visit state level).map Prod.fst := by
  obtain ⟨hend, hpart⟩ := levelEnd_single hlevel
  rw [scan, hpart]
  rcases visit state level with _ | ⟨after, _ | _⟩
  · rfl
  · rfl
  · dsimp only
    split
    · rfl
    · next hcons =>
      rw [hend] at hcons
      cases hcons

/-- The scan up to the first separator. -/
theorem scan_more {level : Bytes} (hlevel : levelSeparator ∉ level) {state after : σ}
    {goOn : Bool} (hvisit : visit state level = some (after, goOn)) (next : Bytes) :
    scan visit last state (level ++ levelSeparator :: next) =
      if goOn then
        if next = [] then last after [] else scan visit last after next
      else some after := by
  obtain ⟨hend, hpart⟩ := levelEnd_more hlevel next
  rw [scan, hpart, hvisit]
  cases goOn with
  | false => rfl
  | true =>
      dsimp only
      split
      · next hnil =>
        rw [hend] at hnil
        cases hnil
      · next hcons =>
        rw [hend] at hcons
        obtain ⟨-, rfl⟩ := List.cons.inj hcons
        rfl

/-- Where the special case does what the loop would do, it is one. -/
theorem scan_next {level : Bytes} (hlevel : levelSeparator ∉ level) {state after : σ}
    (hvisit : visit state level = some (after, true))
    (hlast : last after [] = (visit after []).map Prod.fst) (next : Bytes) :
    scan visit last state (level ++ levelSeparator :: next) = scan visit last after next := by
  rw [scan_more hlevel hvisit, if_pos rfl]
  split
  · next hnil => rw [hnil, scan_single List.not_mem_nil, hlast]
  · rfl

/-- `tmq_topic_split` cuts at every separator. -/
theorem scan_split (levels : List Bytes) (s : Bytes) :
    scan (fun levels level => some (levels ++ [level], true))
        (fun levels level => some (levels ++ [level])) levels s
      = some (levels ++ s.splitOn levelSeparator) := by
  induction s using levels_induction generalizing levels with
  | single level hlevel =>
      rw [scan_single hlevel, List.splitOn_eq_singleton hlevel]
      rfl
  | more level next hlevel ih =>
      rw [scan_next hlevel rfl rfl, ih, List.splitOn_append_cons_self_of_not_mem hlevel,
        List.append_assoc, List.singleton_append]

theorem length_splitOn (s : Bytes) :
    (s.splitOn levelSeparator).length = s.count levelSeparator + 1 := by
  induction s using levels_induction with
  | single level hlevel =>
      rw [List.splitOn_eq_singleton hlevel, List.count_eq_zero_of_not_mem hlevel]
      rfl
  | more level next hlevel ih =>
      rw [List.splitOn_append_cons_self_of_not_mem hlevel, List.length_cons, ih,
        List.count_append, List.count_cons_self, List.count_eq_zero_of_not_mem hlevel,
        Nat.zero_add]

/-- The single pass over the bytes cuts at the same places. -/
theorem splitLevels_eq (level s : Bytes) (hlevel : levelSeparator ∉ level) :
    splitLevels level s = (level ++ s).splitOn levelSeparator := by
  induction s generalizing level with
  | nil => rw [splitLevels, List.append_nil, List.splitOn_eq_singleton hlevel]
  | cons c s ih =>
      rw [splitLevels]
      split
      · next hsep =>
        rw [hsep, List.splitOn_append_cons_self_of_not_mem hlevel, ih [] List.not_mem_nil,
          List.nil_append]
      · next hsep =>
        have hlonger : levelSeparator ∉ level ++ [c] := by
          simp only [List.mem_append, List.mem_singleton, not_or]
          exact ⟨hlevel, Ne.symm hsep⟩
        rw [ih _ hlonger, List.append_assoc, List.singleton_append]

/-! ### The trees -/

theorem valueAt_root (root : Trie Bytes α) : root.valueAt [] ≠ none := by simp

section Trees

variable (new : α) {root : Trie Bytes α} {cur : List Bytes}

theorem findOrCreate_create (hcur : root.valueAt cur ≠ none) (level : Bytes) :
    findOrCreate new root cur level true
      = some (root.grow new (cur ++ [level]), some (cur ++ [level])) := by
  obtain ⟨node, hnode⟩ := Trie.exists_find?_of_valueAt hcur
  cases hchild : node.children.find? level with
  | none =>
      simp only [findOrCreate, hnode, Option.bind_eq_bind, Option.bind_some, hchild, if_true,
        Trie.modify_put_leaf new hnode hchild]
  | some child =>
      have hthere : root.valueAt (cur ++ [level]) ≠ none := by
        simp [Trie.valueAt_append, hnode, Trie.valueAt_cons, hchild]
      simp only [findOrCreate, hnode, Option.bind_eq_bind, Option.bind_some, hchild,
        Trie.grow_of_valueAt new hthere]

theorem findOrCreate_find (hcur : root.valueAt cur ≠ none) (level : Bytes) :
    findOrCreate new root cur level false
      = some (root, if root.valueAt (cur ++ [level]) = none then none
          else some (cur ++ [level])) := by
  obtain ⟨node, hnode⟩ := Trie.exists_find?_of_valueAt hcur
  cases hchild : node.children.find? level <;>
    simp [findOrCreate, hnode, hchild, Trie.valueAt_append, Trie.valueAt_cons]

/-- The nodes on the way down the levels from `cur`. -/
def nodesBelow (cur levels : List Bytes) : List (List Bytes) := levels.inits.tail.map (cur ++ ·)

theorem nodesBelow_singleton (cur : List Bytes) (level : Bytes) :
    nodesBelow cur [level] = [cur ++ [level]] := rfl

theorem nodesBelow_cons (cur : List Bytes) (level : Bytes) (levels : List Bytes) :
    nodesBelow cur (level :: levels)
      = (cur ++ [level]) :: nodesBelow (cur ++ [level]) levels := by
  have hinits : levels.inits = [] :: levels.inits.tail := by
    cases levels <;> rfl
  rw [nodesBelow, List.inits_cons, List.tail_cons, hinits, List.map_cons, List.map_cons,
    nodesBelow, List.map_map]
  congr 1
  apply List.map_congr_left
  intro p _
  simp

/-- With all nodes created on the way there is no other way out of the loop
than the end of the string. -/
theorem scan_create (hcur : root.valueAt cur ≠ none) (path : List (Option (List Bytes)))
    (s : Bytes) :
    scan (TreeScan.visit new true) (TreeScan.visitLast new true) ⟨root, some cur, path⟩ s
      = some ⟨root.grow new (cur ++ s.splitOn levelSeparator),
          some (cur ++ s.splitOn levelSeparator),
          path ++ (nodesBelow cur (s.splitOn levelSeparator)).map some⟩ := by
  have hvisit : ∀ {root : Trie Bytes α} {cur : List Bytes}, root.valueAt cur ≠ none →
      ∀ path level, TreeScan.visit new true ⟨root, some cur, path⟩ level
          = some (⟨root.grow new (cur ++ [level]), some (cur ++ [level]),
            path ++ [some (cur ++ [level])]⟩, true) ∧
        TreeScan.visitLast new true ⟨root, some cur, path⟩ level
          = some ⟨root.grow new (cur ++ [level]), some (cur ++ [level]),
            path ++ [some (cur ++ [level])]⟩ := by
    intro root cur hcur path level
    constructor <;>
      simp [TreeScan.visit, TreeScan.visitLast, TreeScan.step, findOrCreate_create new hcur level]
  induction s using levels_induction generalizing root cur path with
  | single level hlevel =>
      rw [scan_single hlevel, (hvisit hcur path level).1, List.splitOn_eq_singleton hlevel]
      rfl
  | more level next hlevel ih =>
      have hnext : (root.grow new (cur ++ [level])).valueAt (cur ++ [level]) ≠ none := by
        simp [Trie.valueAt_grow]
      have hlast : TreeScan.visitLast new true ⟨root.grow new (cur ++ [level]),
            some (cur ++ [level]), path ++ [some (cur ++ [level])]⟩ []
          = (TreeScan.visit new true ⟨root.grow new (cur ++ [level]), some (cur ++ [level]),
            path ++ [some (cur ++ [level])]⟩ []).map Prod.fst := by
        rw [(hvisit hnext _ []).1, (hvisit hnext _ []).2]
        rfl
      have hone : cur ++ level :: next.splitOn levelSeparator
          = cur ++ [level] ++ next.splitOn levelSeparator := by
        rw [List.append_assoc, List.singleton_append]
      rw [scan_next hlevel (hvisit hcur path level).1 hlast, ih hnext,
        List.splitOn_append_cons_self_of_not_mem hlevel, nodesBelow_cons, hone,
        Trie.grow_grow_append, List.map_cons, List.append_assoc path, List.singleton_append]

/-- Without creating, the loop ends at the first node that is missing. -/
theorem scan_find (hcur : root.valueAt cur ≠ none) (path : List (Option (List Bytes)))
    (s : Bytes) :
    ∃ node more, scan (TreeScan.visit new false) (TreeScan.visitLast new false)
        ⟨root, some cur, path⟩ s = some ⟨root, node, path ++ more⟩ ∧
      node = (if root.valueAt (cur ++ s.splitOn levelSeparator) = none then none
        else some (cur ++ s.splitOn levelSeparator)) ∧
      more.filterMap id = (nodesBelow cur (s.splitOn levelSeparator)).takeWhile
        fun node => (root.valueAt node).isSome := by
  have hstep : ∀ {cur : List Bytes}, root.valueAt cur ≠ none → ∀ path level,
      TreeScan.step new false ⟨root, some cur, path⟩ level
        = some ⟨root, if root.valueAt (cur ++ [level]) = none then none
          else some (cur ++ [level]), path⟩ := by
    intro cur hcur path level
    simp [TreeScan.step, findOrCreate_find new hcur level]
  induction s using levels_induction generalizing cur path with
  | single level hlevel =>
      rw [scan_single hlevel, List.splitOn_eq_singleton hlevel, nodesBelow_singleton]
      cases hthere : root.valueAt (cur ++ [level]) with
      | none =>
          exact ⟨none, [], by simp [TreeScan.visit, hstep hcur, hthere], rfl, by simp [hthere]⟩
      | some data =>
          exact ⟨some (cur ++ [level]), [some (cur ++ [level])],
            by simp [TreeScan.visit, hstep hcur, hthere], rfl, by simp [hthere]⟩
  | more level next hlevel ih =>
      have hone : cur ++ level :: next.splitOn levelSeparator
          = cur ++ [level] ++ next.splitOn levelSeparator := List.append_cons _ _ _
      rw [List.splitOn_append_cons_self_of_not_mem hlevel, nodesBelow_cons, hone]
      cases hthere : root.valueAt (cur ++ [level]) with
      | none =>
          have hvisit : TreeScan.visit new false ⟨root, some cur, path⟩ level
              = some (⟨root, none, path⟩, false) := by
            simp [TreeScan.visit, hstep hcur, hthere]
          have hbelow : root.valueAt (cur ++ [level] ++ next.splitOn levelSeparator) = none := by
            by_contra hmore
            exact Trie.valueAt_prefix (List.prefix_append _ _) hmore hthere
          refine ⟨none, [], ?_, by rw [if_pos hbelow], by simp [hthere]⟩
          rw [scan_more hlevel hvisit, List.append_nil]
          rfl
      | some data =>
          have hvisit : TreeScan.visit new false ⟨root, some cur, path⟩ level
              = some (⟨root, some (cur ++ [level]), path ++ [some (cur ++ [level])]⟩, true) := by
            simp [TreeScan.visit, hstep hcur, hthere]
          have hnext : root.valueAt (cur ++ [level]) ≠ none := by simp [hthere]
          by_cases hempty : next = []
          · -- the special case, which puts a null pointer into the path too
            subst hempty
            rw [List.splitOn_nil, nodesBelow_singleton, scan_more hlevel hvisit, if_pos rfl,
              if_pos rfl]
            refine ⟨_, [some (cur ++ [level]), if root.valueAt (cur ++ [level] ++ [[]]) = none
              then none else some (cur ++ [level] ++ [[]])], ?_, rfl, ?_⟩
            · simp [TreeScan.visitLast, hstep hnext]
            · rw [List.takeWhile_cons_of_pos (by simp only [hthere, Option.isSome_some])]
              cases hlast : root.valueAt (cur ++ [level] ++ [[]]) with
              | none =>
                  rw [List.takeWhile_cons_of_neg (by simp [-List.append_assoc, hlast])]
                  rfl
              | some data =>
                  rw [List.takeWhile_cons_of_pos (by simp only [hlast, Option.isSome_some])]
                  rfl
          · obtain ⟨node, more, hscan, hnode, hmore⟩ :=
              ih hnext (path ++ [some (cur ++ [level])])
            refine ⟨node, some (cur ++ [level]) :: more, ?_, hnode, ?_⟩
            · rw [scan_more hlevel hvisit, if_pos rfl, if_neg hempty, hscan, List.append_assoc,
                List.singleton_append]
            · rw [List.takeWhile_cons_of_pos (by simp only [hthere, Option.isSome_some]), ← hmore]
              rfl

end Trees

/-! ### The model with lists of levels -/

theorem splitOn_cstr (str : Bytes) :
    (cstr str).splitOn levelSeparator = TinyMqtt.tmqTopicSplit str :=
  (splitLevels_eq [] (cstr str) List.not_mem_nil).symm

theorem tmqTopicSplit_eq (str : Bytes) :
    Scan.tmqTopicSplit str = some (TinyMqtt.tmqTopicSplit str) := by
  rw [Scan.tmqTopicSplit, scan_split, splitOn_cstr, List.nil_append]

theorem topicAddTopicOrFind_add {π : Type} (root : TopicNode π) (topicFilter : Bytes) :
    (topicAddTopicOrFind root topicFilter true).map TreeScan.root
      = some (addTopic root topicFilter) := by
  rw [topicAddTopicOrFind, scan_create .new (valueAt_root root), splitOn_cstr]
  rfl

theorem topicAddTopicOrFind_find {π : Type} (root : TopicNode π) (topicFilter : Bytes) :
    (topicAddTopicOrFind root topicFilter false).map (fun found => found.node.bind root.find?)
      = some (findTopic root topicFilter) := by
  obtain ⟨node, more, hscan, hnode, -⟩ :=
    scan_find TopicData.new (valueAt_root root) [some []] (cstr topicFilter)
  rw [topicAddTopicOrFind, hscan, findTopic, Option.map_some, hnode, splitOn_cstr]
  congr 1
  split
  · next hnone => exact (Option.map_eq_none_iff.mp hnone).symm
  · rfl

theorem aclAddTopicOrFind_eq (root : AclNode) (topicFilter : Bytes) :
    (aclAddTopicOrFind root topicFilter).map TreeScan.root
      = some (root.grow .new (TinyMqtt.tmqTopicSplit topicFilter)) := by
  rw [aclAddTopicOrFind, scan_create .new (valueAt_root root), splitOn_cstr]
  rfl

/-- One notion of levels: a string without a zero byte is cut at every
separator, and both trees are gone down along these levels, with the missing
nodes created, or up to the first one that is missing. -/
theorem topicLevels {π : Type} {s : Bytes} (hs : (0 : UInt8) ∉ s) (topics : TopicNode π)
    (acl : AclNode) :
    Scan.tmqTopicSplit s = some (s.splitOn levelSeparator) ∧
      (s.splitOn levelSeparator).length = s.count levelSeparator + 1 ∧
      topicAddTopicOrFind topics s true
        = some ⟨topics.grow .new (s.splitOn levelSeparator), some (s.splitOn levelSeparator),
          (s.splitOn levelSeparator).inits.map some⟩ ∧
      aclAddTopicOrFind acl s
        = some ⟨acl.grow .new (s.splitOn levelSeparator), some (s.splitOn levelSeparator),
          (s.splitOn levelSeparator).inits.map some⟩ ∧
      ∃ found, topicAddTopicOrFind topics s false = some found ∧ found.root = topics ∧
        found.path.filterMap id = (s.splitOn levelSeparator).inits.takeWhile
          (fun node => (topics.valueAt node).isSome) ∧
        (found.node = none ↔
          ∃ node, node <+: s.splitOn levelSeparator ∧ topics.valueAt node = none) ∧
        (found.node ≠ none → found.node = some (s.splitOn levelSeparator)) := by
  have hcstr : cstr s = s := (cstr_eq_self_iff s).mpr hs
  have hpath : (s.splitOn levelSeparator).inits
      = [] :: nodesBelow [] (s.splitOn levelSeparator) := by
    rw [nodesBelow, List.map_congr_left fun p _ => List.nil_append p, List.map_id']
    cases s.splitOn levelSeparator <;> rfl
  refine ⟨?_, length_splitOn s, ?_, ?_, ?_⟩
  · rw [Scan.tmqTopicSplit, hcstr, scan_split, List.nil_append]
  · rw [topicAddTopicOrFind, hcstr, scan_create .new (valueAt_root topics), hpath]
    rfl
  · rw [aclAddTopicOrFind, hcstr, scan_create .new (valueAt_root acl), hpath]
    rfl
  · obtain ⟨node, more, hscan, hnode, hmore⟩ :=
      scan_find TopicData.new (valueAt_root topics) [some []] s
    rw [List.nil_append] at hnode
    refine ⟨⟨topics, node, [some []] ++ more⟩, ?_, rfl, ?_, ?_, ?_⟩
    · rw [topicAddTopicOrFind, hcstr, hscan]
    · rw [hpath, List.takeWhile_cons_of_pos (by simp), ← hmore]
      rfl
    · rw [hnode]
      constructor
      · intro hnone
        refine ⟨_, List.prefix_rfl, ?_⟩
        by_contra hthere
        rw [if_neg hthere] at hnone
        cases hnone
      · rintro ⟨missing, hprefix, hmissing⟩
        apply if_pos
        by_contra hthere
        exact Trie.valueAt_prefix hprefix hthere hmissing
    · intro hsome
      rw [hnode] at hsome ⊢
      apply if_neg
      intro hmissing
      exact hsome (if_pos hmissing)

/-- The string `/a/`, of three levels. -/
theorem topicLevels_three :
    Scan.tmqTopicSplit [47, 97, 47] = some [[], [97], []] ∧
      aclAddTopicOrFind (.leaf .new) [47, 97, 47]
        = some ⟨Trie.grow .new (.leaf .new) [[], [97], []], some [[], [97], []],
          [some [], some [[]], some [[], [97]], some [[], [97], []]]⟩ := by
  obtain ⟨hsplit, -, -, hacl, -⟩ := @topicLevels Bytes [47, 97, 47] (by decide)
    (.leaf .new) (.leaf .new)
  exact ⟨hsplit, hacl⟩

end Scan

end TinyMqtt
