import TinyMqtt.Acl.Agreement

/-!
What a rule does to topics that its filter does not match. A rule brings its
whole path into the tree of the list. `match` takes the first node it reaches at
the end of a topic, whether it has rules or not, so a longer filter can put a
node without rules in the way of the rules at `+` and `#`.
-/

namespace TinyMqtt

/-! ### The node of a filter -/

/-- The tree with the path of a filter, and with other rules at its end. -/
def placeRules (data : AclData) (root : AclNode) (filter : List Bytes) : AclNode :=
  (root.grow .new filter).modifyValue (fun _ => data) filter

theorem placeRules_leaf (data : AclData) (filter : List Bytes) :
    placeRules data (.leaf .new) filter = spine data filter := by
  rw [placeRules, grow_leaf, modifyValue_spine]

theorem placeRules_cons (data : AclData) (root : AclNode) (level : Bytes) (filter : List Bytes) :
    placeRules data root (level :: filter)
      = .node root.value (root.children.put level
          (placeRules data ((root.children.find? level).getD (.leaf .new)) filter)) :=
  Trie.modifyValue_grow_cons ..

theorem find?_placeRules_cons (data : AclData) (root : AclNode) (level other : Bytes)
    (filter : List Bytes) :
    (placeRules data root (level :: filter)).children.find? other
      = if level = other then
          some (placeRules data ((root.children.find? level).getD (.leaf .new)) filter)
        else root.children.find? other := by
  rw [placeRules_cons, Trie.children_node, Forest.find?_put]

/-! ### The nodes in the way -/

/-- The filter goes on where the topic ends, and covers it up to there. -/
def passesOver : List Bytes → List Bytes → Bool
  | [], _ => false
  | _ :: _, [] => true
  | level :: filter, name :: topic =>
      (level = singleWildcard ∨ level = name) ∧ passesOver filter topic

/-- The path of the filter is new where it passes over the end of the topic, and
`match` finds no other node before it comes there. -/
def captures : AclNode → List Bytes → List Bytes → Bool
  | cur, level :: filter, name :: topic =>
      let unmatched := ((cur.children.find? name).bind fun next => aclMatch topic next false).isNone
      let below := (cur.children.find? level).elim (passesOver filter topic) fun next =>
        captures next filter topic
      (level = name || level = singleWildcard && unmatched) && below
  | _, _, _ => false

/-- `match` in the tree of a filter that does not match the topic. -/
theorem map_value_aclMatch_spine {filter : List Bytes} (hvalid : ValidFilter filter)
    {topic : List Bytes} (hfree : WildcardFree topic) (data : AclData)
    (hmatch : filterMatches filter topic = false) :
    (aclMatch topic (spine data filter) false).map Trie.value
      = if passesOver filter topic then some .new else none := by
  induction filter generalizing topic with
  | nil =>
      cases topic with
      | nil => cases hmatch
      | cons name topic => rfl
  | cons level filter ih =>
      cases topic with
      | nil => rfl
      | cons name topic =>
          have hmulti : level ≠ multiWildcard := by
            rintro rfl
            obtain rfl := hvalid.multi_last
            simp [filterMatches] at hmatch
          rw [aclMatch_spine_cons hmulti hfree.head]
          by_cases hstep : level = singleWildcard ∨ level = name
          · have hrest : filterMatches filter topic = false := by
              simpa [filterMatches, hmulti, hstep] using hmatch
            rw [if_pos hstep, ih hvalid.tail hfree.tail hrest]
            simp [passesOver, hstep]
          · simp [passesOver, hstep]

/-- What `match` finds of the rules when the rules of a filter that does not
match the topic have come into the tree. -/
theorem map_value_aclMatch_placeRules {filter : List Bytes} (hvalid : ValidFilter filter)
    {topic : List Bytes} (hfree : WildcardFree topic) (data : AclData)
    (hmatch : filterMatches filter topic = false) (root : AclNode) :
    (aclMatch topic (placeRules data root filter) false).map Trie.value
      = if captures root filter topic then some .new
        else (aclMatch topic root false).map Trie.value := by
  induction filter generalizing topic root with
  | nil =>
      cases topic with
      | nil => cases hmatch
      | cons name topic => rfl
  | cons level filter ih =>
      cases topic with
      | nil =>
          simp only [aclMatch, Option.map_some, placeRules_cons, Trie.value_node, captures,
            Bool.false_eq_true, if_false]
      | cons name topic =>
          have hname := hfree.head
          have hmulti : level ≠ multiWildcard := by
            rintro rfl
            obtain rfl := hvalid.multi_last
            simp [filterMatches] at hmatch
          -- what is found below the level of the filter
          obtain ⟨below, hbelow⟩ : ∃ below, (root.children.find? level).elim
              (passesOver filter topic) (fun next => captures next filter topic) = below := ⟨_, rfl⟩
          have hchild : level = singleWildcard ∨ level = name →
              (aclMatch topic (placeRules data ((root.children.find? level).getD (.leaf .new))
                filter) false).map Trie.value
                = if below then some .new
                  else ((root.children.find? level).bind fun next =>
                    aclMatch topic next false).map Trie.value := by
            intro hstep
            have hrest : filterMatches filter topic = false := by
              simpa [filterMatches, hmulti, hstep] using hmatch
            subst hbelow
            cases hfind : root.children.find? level with
            | none =>
                rw [Option.getD_none, placeRules_leaf,
                  map_value_aclMatch_spine hvalid.tail hfree.tail data hrest]
                rfl
            | some next => exact ih hvalid.tail hfree.tail hrest next
          by_cases hsame : level = name
          · -- the child of the name itself changes, and `+` and `#` are as before
            subst hsame
            simp only [aclMatch, find?_placeRules_cons, hname.1, hname.2, if_false, if_true,
              Option.bind_some, Option.map_or, hchild (.inr rfl), captures, hbelow, decide_true,
              Bool.true_or, Bool.true_and]
            cases below <;> simp
          · by_cases hsingle : level = singleWildcard
            · -- `+` is looked at only where the name leads nowhere
              subst hsingle
              simp only [aclMatch, find?_placeRules_cons, hsame, hmulti, if_false, if_true,
                Option.bind_some, Option.map_or, hchild (.inl rfl), captures, hbelow, decide_true,
                decide_false, Bool.false_or, Bool.true_and]
              cases (root.children.find? name).bind fun next => aclMatch topic next false with
              | none => cases below <;> simp
              | some node => simp
            · simp only [aclMatch, find?_placeRules_cons, hsame, hsingle, hmulti, if_false,
                captures, decide_false, Bool.false_or, Bool.false_and, Bool.false_eq_true]

/-! ### The answer of the list -/

/-- What the rules of a node say, before the default of the list. -/
def AclData.verdict (data : AclData) (session : AclSession) (access : AclAccess) : Permission :=
  let perm := checkRules session access data.rules
  if perm = .unknown then checkRules session access data.rulesForAll else perm

theorem verdict_new (session : AclSession) (access : AclAccess) :
    AclData.new.verdict session access = .unknown := rfl

/-- The answer depends on the rules at the node that `match` finds. -/
def Acl.answer (acl : Acl) (session : AclSession) (access : AclAccess) (found : Option AclData) :
    Permission :=
  match found with
  | none => acl.nomatchPermission
  | some data =>
      if data.verdict session access = .unknown then acl.nomatchPermission
      else data.verdict session access

theorem tmqAclAuth_eq_answer (acl : Acl) (session : AclSession) (topic : Bytes)
    (access : AclAccess) :
    tmqAclAuth acl session topic access
      = acl.answer session access
          ((aclMatch (tmqTopicSplit topic) acl.root false).map Trie.value) := by
  unfold tmqAclAuth Acl.answer
  cases aclMatch (tmqTopicSplit topic) acl.root false with
  | none => rfl
  | some node => rfl

/-- The rules are silent on the request, or say what the default says. -/
def SaysDefault (acl : Acl) (session : AclSession) (access : AclAccess) (data : AclData) : Prop :=
  data.verdict session access = .unknown ∨ data.verdict session access = acl.nomatchPermission

theorem answer_eq_default_iff (acl : Acl) (session : AclSession) (access : AclAccess)
    (found : Option AclData) :
    acl.answer session access found = acl.nomatchPermission ↔
      ∀ data ∈ found, SaysDefault acl session access data := by
  cases found with
  | none => simp [Acl.answer]
  | some data =>
      simp only [Acl.answer, SaysDefault, Option.mem_some_iff, forall_eq', ite_eq_left_iff]
      exact or_iff_not_imp_left.symm

def addAclRule (forAll : Bool) (acl : Acl) (filter : Bytes) (rule : AclRule) : Option Acl :=
  if forAll then acl.tmqAclAddRuleForAll filter rule else acl.tmqAclAddRule filter rule

theorem atFilter_placeRules {acl acl' : Acl} {filter : Bytes}
    {change : AclData → Option AclData} (hat : acl.atFilter filter change = some acl') :
    ∃ data, acl' = { acl with root := placeRules data acl.root (tmqTopicSplit filter) } := by
  simp only [Acl.atFilter, Option.bind_eq_bind, Option.bind_eq_some_iff] at hat
  obtain ⟨-, -, data, -, hacl⟩ := hat
  exact ⟨data, (Option.some.inj hacl).symm⟩

theorem addAclRule_placeRules {forAll : Bool} {acl acl' : Acl} {filter : Bytes} {rule : AclRule}
    (hadd : addAclRule forAll acl filter rule = some acl') :
    ∃ data, acl' = { acl with root := placeRules data acl.root (tmqTopicSplit filter) } := by
  cases forAll with
  | true => exact atFilter_placeRules hadd
  | false => exact atFilter_placeRules hadd

/-- A rule whose filter does not match a topic changes the answer for it just
when its path hides rules that say something else than the default. -/
theorem tmqAclAuth_addAclRule_iff (acl acl' : Acl) (forAll : Bool) (filter : ValidTopicFilter)
    (rule : AclRule) (hadd : addAclRule forAll acl filter rule = some acl') (topic : Bytes)
    (hfree : WildcardFree (tmqTopicSplit topic))
    (hmatch : filterMatches (tmqTopicSplit filter) (tmqTopicSplit topic) = false)
    (session : AclSession) (access : AclAccess) :
    tmqAclAuth acl' session topic access = tmqAclAuth acl session topic access ↔
      (captures acl.root (tmqTopicSplit filter) (tmqTopicSplit topic) = true →
        ∀ node, aclMatch (tmqTopicSplit topic) acl.root false = some node →
          SaysDefault acl session access node.value) := by
  obtain ⟨data, rfl⟩ := addAclRule_placeRules hadd
  rw [tmqAclAuth_eq_answer, tmqAclAuth_eq_answer,
    map_value_aclMatch_placeRules filter.2 hfree data hmatch]
  cases hcaptures : captures acl.root (tmqTopicSplit filter) (tmqTopicSplit topic) with
  | false => simp [Acl.answer]
  | true =>
      have hnew : acl.answer session access (some .new) = acl.nomatchPermission :=
        (answer_eq_default_iff ..).mpr (by rintro data ⟨⟩; exact .inl (verdict_new ..))
      change acl.answer session access (some .new) = _ ↔ _
      rw [hnew, eq_comm, answer_eq_default_iff]
      simp

/-- Nobody may publish to `a/+`, and everything else is allowed. -/
def denyBelowA : Acl :=
  ⟨.node .new (.cons [97] (.node .new (.cons [43] (.leaf ⟨[], [denyPublish]⟩) .nil)) .nil), .allow⟩

example : (tmqAclInit .allow).tmqAclAddRuleForAll [97, 47, 43] denyPublish = some denyBelowA := rfl

/-- A rule at `b/c` leaves the answer for `a/b` as it is. -/
theorem tmqAclAuth_addAclRule_elsewhere :
    ∃ acl', addAclRule true denyBelowA [98, 47, 99] denyPublish = some acl' ∧
      filterMatches (tmqTopicSplit [98, 47, 99]) (tmqTopicSplit [97, 47, 98]) = false ∧
      tmqAclAuth acl' samplePublisher [97, 47, 98] .pub
        = tmqAclAuth denyBelowA samplePublisher [97, 47, 98] .pub := by
  refine ⟨_, rfl, by decide, ?_⟩
  exact (tmqAclAuth_addAclRule_iff denyBelowA _ true ⟨[98, 47, 99], by decide⟩ denyPublish rfl
    [97, 47, 98] (by decide) (by decide) samplePublisher .pub).mpr (fun h => absurd h (by decide))

/-- A rule at `a/b/c` opens `a/b`. -/
theorem tmqAclAuth_addAclRule_below :
    ¬ ∀ acl', addAclRule true denyBelowA [97, 47, 98, 47, 99] denyPublish = some acl' →
      filterMatches (tmqTopicSplit [97, 47, 98, 47, 99]) (tmqTopicSplit [97, 47, 98]) = false →
      tmqAclAuth acl' samplePublisher [97, 47, 98] .pub
        = tmqAclAuth denyBelowA samplePublisher [97, 47, 98] .pub := by
  intro hall
  have hsame := hall _ rfl (by decide)
  revert hsame
  decide

end TinyMqtt
