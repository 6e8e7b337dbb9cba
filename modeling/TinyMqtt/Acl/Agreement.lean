import TinyMqtt.Acl.Acl
import TinyMqtt.Topic.Matching

/-!
The access control list against the topic tree. With one rule in the list its
tree is a single path. `match` of the list follows the path as the topic tree
does, but stops at the end of the topic without looking for a `#` below: the
parent level of a filter that ends with `#` is not covered.
-/

namespace TinyMqtt

/-! ### Where `match` of the list ends -/

/-- The filter is used up together with the topic, or at a `#` that stands for
at least one level. -/
def reachesEnd : List Bytes → List Bytes → Bool
  | [], [] => true
  | [], _ :: _ => false
  | _ :: _, [] => false
  | level :: filter, name :: topic =>
      if level = multiWildcard then true
      else (level = singleWildcard ∨ level = name) ∧ reachesEnd filter topic

/-- The filter ends with `#` and the topic is the level above it. -/
def matchesParent : List Bytes → List Bytes → Bool
  | [], _ => false
  | level :: filter, [] => level = multiWildcard ∧ filter = []
  | level :: filter, name :: topic =>
      (level ≠ multiWildcard ∧ (level = singleWildcard ∨ level = name)) ∧
        matchesParent filter topic

/-- The topics a filter matches are those whose end it reaches and the level
above its `#`. -/
theorem filterMatches_eq {filter : List Bytes} (hvalid : ValidFilter filter) (topic : List Bytes) :
    filterMatches filter topic = (reachesEnd filter topic || matchesParent filter topic) := by
  induction filter generalizing topic with
  | nil => cases topic <;> rfl
  | cons level filter ih =>
      by_cases hmulti : level = multiWildcard
      · subst hmulti
        obtain rfl := hvalid.multi_last
        cases topic <;> simp [filterMatches, reachesEnd, matchesParent]
      · cases topic with
        | nil => simp [filterMatches, reachesEnd, matchesParent, hmulti]
        | cons name topic =>
            by_cases hname : level = singleWildcard ∨ level = name
            · simp [filterMatches, reachesEnd, matchesParent, hmulti, hname, ih hvalid.tail]
            · simp [filterMatches, reachesEnd, matchesParent, hmulti, hname]

theorem reachesEnd_of_matchesParent {filter topic : List Bytes}
    (hparent : matchesParent filter topic = true) : reachesEnd filter topic = false := by
  induction filter generalizing topic with
  | nil => cases hparent
  | cons level filter ih =>
      cases topic with
      | nil => rfl
      | cons name topic =>
          obtain ⟨⟨hmulti, -⟩, hrest⟩ : (level ≠ multiWildcard ∧
              (level = singleWildcard ∨ level = name)) ∧ matchesParent filter topic = true := by
            simpa [matchesParent] using hparent
          simp [reachesEnd, hmulti, ih hrest]

/-! ### The tree of one rule -/

def spine (data : AclData) : List Bytes → AclNode
  | [] => .leaf data
  | level :: filter => .node .new (.cons level (spine data filter) .nil)

theorem grow_leaf (levels : List Bytes) :
    (Trie.leaf .new : AclNode).grow .new levels = spine .new levels := by
  induction levels with
  | nil => rfl
  | cons level levels ih =>
      change Trie.node _ (Forest.cons level ((Trie.leaf .new : AclNode).grow .new levels) .nil) = _
      rw [ih]
      rfl

theorem valueAt_spine (data : AclData) (levels : List Bytes) :
    (spine data levels).valueAt levels = some data := by
  induction levels with
  | nil => rfl
  | cons level levels ih =>
      rw [Trie.valueAt_cons, spine, Trie.children_node, Forest.find?, if_pos rfl, Option.bind_some]
      exact ih

theorem modifyValue_spine (data : AclData) (levels : List Bytes) :
    (spine .new levels).modifyValue (fun _ => data) levels = spine data levels := by
  unfold Trie.modifyValue
  induction levels with
  | nil => rfl
  | cons level levels ih =>
      have hchild : (spine .new (level :: levels)).children.find? level
          = some (spine .new levels) := by
        rw [spine, Trie.children_node, Forest.find?, if_pos rfl]
      rw [Trie.modify_cons_some hchild, ih, spine, Trie.children_node, Forest.put, if_pos rfl]
      rfl

theorem find?_spine_cons (data : AclData) (level other : Bytes) (filter : List Bytes) :
    (spine data (level :: filter)).children.find? other
      = if level = other then some (spine data filter) else none := rfl

/-- `match` follows the one path there is. -/
theorem aclMatch_spine_cons {level name : Bytes} (hmulti : level ≠ multiWildcard)
    (hname : name ≠ singleWildcard ∧ name ≠ multiWildcard) (data : AclData)
    (filter topic : List Bytes) :
    aclMatch (name :: topic) (spine data (level :: filter)) false
      = if level = singleWildcard ∨ level = name then aclMatch topic (spine data filter) false
        else none := by
  by_cases hsingle : level = singleWildcard
  · subst hsingle
    simp only [aclMatch, find?_spine_cons, Ne.symm hname.1, hmulti, if_false, if_true, true_or,
      Option.bind_none, Option.bind_some, Option.none_or, Option.or_none]
  · by_cases hsame : level = name
    · subst hsame
      simp only [aclMatch, find?_spine_cons, hsingle, hmulti, if_false, if_true, or_true,
        Option.bind_none, Option.bind_some, Option.or_none]
    · simp only [aclMatch, find?_spine_cons, hsingle, hsame, hmulti, if_false, or_self,
        Option.bind_none, Option.or_none]

/-- `match` ends at the rule just when the end of the filter is reached; it
ends nowhere or at a node without rules otherwise. -/
theorem aclMatch_spine {filter : List Bytes} (hvalid : ValidFilter filter) {topic : List Bytes}
    (hfree : WildcardFree topic) (data : AclData) :
    (reachesEnd filter topic = true ∧
        ∃ node, aclMatch topic (spine data filter) false = some node ∧ node.value = data) ∨
      (reachesEnd filter topic = false ∧
        ∀ node, aclMatch topic (spine data filter) false = some node → node.value = .new) := by
  induction filter generalizing topic with
  | nil =>
      cases topic with
      | nil => exact .inl ⟨rfl, _, rfl, rfl⟩
      | cons name topic => exact .inr ⟨rfl, by nofun⟩
  | cons level filter ih =>
      cases topic with
      | nil =>
          refine .inr ⟨rfl, ?_⟩
          intro node hnode
          obtain rfl := Option.some.inj hnode
          rfl
      | cons name topic =>
          have hname := hfree.head
          by_cases hmulti : level = multiWildcard
          · subst hmulti
            obtain rfl := hvalid.multi_last
            refine .inl ⟨by simp [reachesEnd], spine data [], ?_, rfl⟩
            have hlast : aclMatch topic (spine data []) true = some (spine data []) := by
              cases topic <;> rfl
            simp only [aclMatch, find?_spine_cons, Ne.symm hname.2,
              Ne.symm singleWildcard_ne_multiWildcard, if_false, if_true, Option.bind_none,
              Option.bind_some, Option.none_or, hlast]
          · rw [aclMatch_spine_cons hmulti hname]
            by_cases hstep : level = singleWildcard ∨ level = name
            · have hreaches : reachesEnd (level :: filter) (name :: topic)
                  = reachesEnd filter topic := by
                simp [reachesEnd, hmulti, hstep]
              rw [if_pos hstep, hreaches]
              exact ih hvalid.tail hfree.tail
            · rw [if_neg hstep]
              exact .inr ⟨by simp [reachesEnd, hmulti, hstep], by nofun⟩

/-- The list that holds one rule, stored by either of the two functions. -/
def aclOfRule (forAll : Bool) (nomatchPermission : Permission) (filter : Bytes) (rule : AclRule) :
    Option Acl :=
  if forAll then (tmqAclInit nomatchPermission).tmqAclAddRuleForAll filter rule
  else (tmqAclInit nomatchPermission).tmqAclAddRule filter rule

def dataOfRule (forAll : Bool) (rule : AclRule) : AclData :=
  if forAll then ⟨[], [rule]⟩ else ⟨[rule], []⟩

theorem aclOfRule_eq (forAll : Bool) (nomatchPermission : Permission) (filter : Bytes)
    (rule : AclRule) :
    aclOfRule forAll nomatchPermission filter rule
      = some ⟨spine (dataOfRule forAll rule) (tmqTopicSplit filter), nomatchPermission⟩ := by
  have hat : ∀ change : AclData → Option AclData,
      (tmqAclInit nomatchPermission).atFilter filter change
        = (change .new).bind fun data =>
            some ⟨spine data (tmqTopicSplit filter), nomatchPermission⟩ := by
    intro change
    simp only [Acl.atFilter, tmqAclInit, grow_leaf, valueAt_spine, modifyValue_spine,
      Option.bind_eq_bind, Option.bind_some]
  cases forAll with
  | true => exact hat _
  | false => exact hat _

/-- What the list answers: the permission of the rule where its filter is
reached. -/
theorem tmqAclAuth_aclOfRule {forAll : Bool} {nomatchPermission : Permission} {filter : Bytes}
    (hvalid : ValidFilter (tmqTopicSplit filter)) {rule : AclRule} {session : AclSession}
    {access : AclAccess} (happlies : rule.checkPermission session access ≠ .unknown)
    {topic : Bytes} (hfree : WildcardFree (tmqTopicSplit topic)) {acl : Acl}
    (hacl : aclOfRule forAll nomatchPermission filter rule = some acl) :
    tmqAclAuth acl session topic access
      = if reachesEnd (tmqTopicSplit filter) (tmqTopicSplit topic) then rule.permission
        else nomatchPermission := by
  rw [aclOfRule_eq] at hacl
  obtain rfl := Option.some.inj hacl
  rcases aclMatch_spine hvalid hfree (dataOfRule forAll rule) with
    ⟨hreaches, node, hnode, hvalue⟩ | ⟨hreaches, hnode⟩
  · have hperm := rule.checkPermission_eq happlies
    have hknown : rule.permission ≠ .unknown := hperm ▸ happlies
    simp only [tmqAclAuth, hnode, hvalue, hreaches, if_true]
    cases forAll <;> simp [dataOfRule, checkRules, hperm, hknown]
  · simp only [tmqAclAuth, hreaches, Bool.false_eq_true, if_false]
    cases hmatch : aclMatch (tmqTopicSplit topic)
        (spine (dataOfRule forAll rule) (tmqTopicSplit filter)) false with
    | none => rfl
    | some node => simp [hnode node hmatch, AclData.new, checkRules]

/-! ### What a subscription receives -/

section Receives

variable {π J : Type} [TmqString π] (cJsonParse : π → Option J)

/-- A client that subscribes to the filter is among those met at the filter by
the publish that follows. -/
def Receives (topics : Topics π) (filter clientId : Bytes) (info : SubscribeInfo)
    (req : PublishReq π) : Prop :=
  let topics := (tmqTopicsAddSubscription topics filter clientId info).2
  ∃ subscribers ∈ clientMatchesAt (tmqTopicSplit filter) (tmqTopicsPublish cJsonParse topics req).2.1,
    cstr clientId ∈ subscribers

theorem receives_iff {topics : Topics π} (hvalid : ValidTopics topics) (filter : ValidTopicFilter)
    (hfilter : cstr filter ≠ []) (clientId : Bytes) (info : SubscribeInfo) {req : PublishReq π}
    (hfree : WildcardFree (tmqTopicSplit req.topic)) :
    Receives cJsonParse topics filter clientId info req ↔
      filterMatches (tmqTopicSplit filter) (tmqTopicSplit req.topic) = true := by
  have hafter := validTopics_step cJsonParse hvalid (.addSubscription filter clientId info) rfl
  have hclients := (matchesFilters_publish cJsonParse hafter.1 hafter.2 hfree).clients
    (tmqTopicSplit filter)
  have hdata : (dataAt (tmqTopicsAddSubscription topics filter clientId info).2.root
      (tmqTopicSplit filter)).subscribers
        = some (((dataAt topics.root (tmqTopicSplit filter)).subscribers.getD ∅).insert
            (cstr clientId) info) := by
    have hlength : ¬ (cstr filter).length < 1 := by
      rwa [Nat.lt_one_iff, List.length_eq_zero_iff]
    rw [tmqTopicsAddSubscription, if_neg hlength, dataAt_addTopic, if_pos rfl]
    rfl
  rw [hdata] at hclients
  dsimp only [Receives]
  rw [hclients]
  constructor
  · rintro ⟨subscribers, hmem, -⟩
    by_contra hmatch
    rw [if_neg hmatch] at hmem
    cases hmem
  · intro hmatch
    rw [if_pos hmatch]
    refine ⟨_, List.mem_singleton_self _, ?_⟩
    rw [AList.mem_insert]
    exact .inl rfl

/-- The list gives the permission of its rule to the topics that a subscription
with the filter of the rule receives, and its default to the others. -/
def AclAgrees (topics : Topics π) (acl : Acl) (rule : AclRule) (session : AclSession)
    (access : AclAccess) (filter clientId : Bytes) (info : SubscribeInfo) (req : PublishReq π) :
    Prop :=
  (Receives cJsonParse topics filter clientId info req →
      tmqAclAuth acl session req.topic access = rule.permission) ∧
    (¬ Receives cJsonParse topics filter clientId info req →
      tmqAclAuth acl session req.topic access = acl.nomatchPermission)

/-- The list and the topic tree agree unless the topic is the parent level of a
filter that ends with `#`. -/
theorem aclAgrees_iff (calls : List (TopicCall π)) (topics : Topics π)
    (hrun : Run.runs (TopicCall.step cJsonParse) tmqTopicsInit calls = some topics)
    (filter : ValidTopicFilter) (hfilter : cstr filter ≠ []) (clientId : Bytes)
    (info : SubscribeInfo) (req : PublishReq π) (hfree : WildcardFree (tmqTopicSplit req.topic))
    (forAll : Bool) (nomatchPermission : Permission) (rule : AclRule) (session : AclSession)
    (access : AclAccess) (happlies : rule.checkPermission session access ≠ .unknown) (acl : Acl)
    (hacl : aclOfRule forAll nomatchPermission filter rule = some acl) :
    AclAgrees cJsonParse topics acl rule session access filter clientId info req ↔
      rule.permission = nomatchPermission ∨
        matchesParent (tmqTopicSplit filter) (tmqTopicSplit req.topic) = false := by
  have hvalid := validTopics_of_runs cJsonParse hrun
  have hdefault : acl.nomatchPermission = nomatchPermission := by
    rw [aclOfRule_eq] at hacl
    obtain rfl := Option.some.inj hacl
    rfl
  unfold AclAgrees
  rw [receives_iff cJsonParse hvalid filter hfilter clientId info hfree,
    tmqAclAuth_aclOfRule filter.2 happlies hfree hacl, hdefault, filterMatches_eq filter.2]
  cases hparent : matchesParent (tmqTopicSplit filter) (tmqTopicSplit req.topic) with
  | true =>
      rw [reachesEnd_of_matchesParent hparent]
      simp [eq_comm]
  | false =>
      cases reachesEnd (tmqTopicSplit filter) (tmqTopicSplit req.topic) <;> simp

end Receives

def denyPublish : AclRule := ⟨.all, .pub, .deny⟩

def samplePublisher : AclSession := ⟨[112], [], 0⟩

/-- A rule on `a/#` and a publish to `a/b`. -/
theorem aclAgrees_child :
    ∃ topics acl, Run.runs (TopicCall.step parseDigit) tmqTopicsInit sampleCalls = some topics ∧
      aclOfRule true .allow [97, 47, 35] denyPublish = some acl ∧
      denyPublish.checkPermission samplePublisher .pub ≠ .unknown ∧
      AclAgrees parseDigit topics acl denyPublish samplePublisher .pub [97, 47, 35] [113] ⟨1, 2⟩
        { sampleReq [49] with topic := [97, 47, 98] } := by
  refine ⟨_, _, rfl, rfl, by decide, ?_⟩
  exact (aclAgrees_iff parseDigit sampleCalls _ rfl ⟨[97, 47, 35], by decide⟩ (by decide) [113]
    ⟨1, 2⟩ { sampleReq [49] with topic := [97, 47, 98] } (by decide) true .allow denyPublish
    samplePublisher .pub (by decide) _ rfl).mpr (.inr (by decide))

/-- The same rule does not cover a publish to `a`, which a subscription to
`a/#` receives. -/
theorem not_aclAgrees_parent :
    ¬ ∀ acl, aclOfRule true .allow [97, 47, 35] denyPublish = some acl →
      AclAgrees parseDigit tmqTopicsInit acl denyPublish samplePublisher .pub [97, 47, 35] [113]
        ⟨1, 2⟩ (sampleReq [49]) := by
  intro hall
  have hallowed := (hall _ rfl).1 ⟨_, List.mem_singleton_self _, by decide⟩
  revert hallowed
  decide

end TinyMqtt
