import TinyMqtt.Lib.Trie
import TinyMqtt.Topic.Levels

/-!
The access control list (`mqtt/mqtt_acl.c`): a tree of topic filters of its
own, with rules at the nodes. `match` returns the first node it reaches, and
only the rules of that node are looked at. The lock is left out. A step that
follows a null pointer has no result.
-/

namespace TinyMqtt

inductive Permission where
  | allow | deny | unknown
  deriving DecidableEq, Repr

/-- `tmq_access_e`, of a rule or of a request. -/
inductive AclAccess where
  | pub | sub | pubSub
  deriving DecidableEq, Repr

/-- The four kinds of rules, with what they compare. -/
inductive AclTarget where
  | all
  | username (username : Bytes)
  | clientId (clientId : Bytes)
  | ip (addr : UInt32)
  deriving DecidableEq, Repr

/-- `acl_rule_t` without its link. -/
structure AclRule where
  target : AclTarget
  access : AclAccess
  permission : Permission
  deriving DecidableEq, Repr

/-- What the rules look at in a session: its names and the address of its peer. -/
structure AclSession where
  clientId : Bytes
  username : Bytes
  peerAddr : UInt32
  deriving DecidableEq, Repr

namespace AclRule

/-- The `check_permission` functions of the four kinds of rules. -/
def checkPermission (rule : AclRule) (session : AclSession) (access : AclAccess) : Permission :=
  if rule.access ≠ .pubSub ∧ rule.access ≠ access then .unknown
  else
    match rule.target with
    | .all => rule.permission
    | .username username =>
        if cstr username = cstr session.username then rule.permission else .unknown
    | .clientId clientId =>
        if cstr clientId = cstr session.clientId then rule.permission else .unknown
    | .ip addr => if addr = session.peerAddr then rule.permission else .unknown

/-- A rule that applies answers with its permission. -/
theorem checkPermission_eq (rule : AclRule) {session : AclSession} {access : AclAccess}
    (happlies : rule.checkPermission session access ≠ .unknown) :
    rule.checkPermission session access = rule.permission := by
  revert happlies
  unfold checkPermission
  grind

/-- The `check_same_target` functions. -/
def checkSameTarget (rule other : AclRule) : Bool :=
  match rule.target, other.target with
  | .all, .all => true
  | .username first, .username second => cstr first = cstr second
  | .clientId first, .clientId second => cstr first = cstr second
  | .ip first, .ip second => first = second
  | _, _ => false

/-- A rule for the same target that says the opposite. -/
def conflicts (rule new : AclRule) : Bool :=
  rule.permission ≠ new.permission ∧
    (rule.access = new.access ∨ rule.access = .pubSub ∨ new.access = .pubSub)

def merges (rule new : AclRule) : Bool :=
  rule.permission = new.permission ∧ rule.access ≠ new.access

end AclRule

/-- The loop of `add_rule`. A conflicting rule is freed, and the test for a
merge then looks at the rule that follows it, which must be there. -/
def addRuleLoop (new : AclRule) : List AclRule → Bool → Option (List AclRule × Bool)
  | [], merged => some ([], merged)
  | rule :: rules, merged =>
      if rule.checkSameTarget new then
        if rule.conflicts new then
          match rules with
          | [] => none
          | following :: rules => do
              let merge := following.merges new
              let (rules, merged) ← addRuleLoop new rules (merged || merge)
              some ((if merge then { following with access := .pubSub } else following) :: rules,
                merged)
        else do
          let merge := rule.merges new
          let (rules, merged) ← addRuleLoop new rules (merged || merge)
          some ((if merge then { rule with access := .pubSub } else rule) :: rules, merged)
      else do
        let (rules, merged) ← addRuleLoop new rules merged
        some (rule :: rules, merged)

def addRule (existing : List AclRule) (new : AclRule) : Option (List AclRule) := do
  let (rules, merged) ← addRuleLoop new existing false
  some (if merged then rules else new :: rules)

/-- An `acl_tree_node_t` without its place in the tree. -/
structure AclData where
  rules : List AclRule
  rulesForAll : List AclRule
  deriving DecidableEq, Repr

def AclData.new : AclData := ⟨[], []⟩

abbrev AclNode := Trie Bytes AclData

structure Acl where
  root : AclNode
  nomatchPermission : Permission

def tmqAclInit (nomatchPermission : Permission) : Acl := ⟨.leaf .new, nomatchPermission⟩

namespace Acl

/-- `add_topic_or_find` and the change of the node it returns. -/
def atFilter (acl : Acl) (topicFilter : Bytes) (change : AclData → Option AclData) :
    Option Acl := do
  let levels := tmqTopicSplit topicFilter
  let root := acl.root.grow .new levels
  let data ← root.valueAt levels
  let data ← change data
  some { acl with root := root.modifyValue (fun _ => data) levels }

def tmqAclAddRule (acl : Acl) (topicFilter : Bytes) (rule : AclRule) : Option Acl :=
  acl.atFilter topicFilter fun data => do
    let rules ← addRule data.rules rule
    some { data with rules := rules }

def tmqAclAddRuleForAll (acl : Acl) (topicFilter : Bytes) (rule : AclRule) : Option Acl :=
  acl.atFilter topicFilter fun data => do
    let rulesForAll ← addRule data.rulesForAll rule
    some { data with rulesForAll := rulesForAll }

end Acl

/-- `match` of `mqtt_acl.c` at a node, for the levels that are left. -/
def aclMatch : List Bytes → AclNode → Bool → Option AclNode
  | [], cur, _ => some cur
  | _ :: _, cur, true => some cur
  | level :: levels, cur, false =>
      let matched := (cur.children.find? level).bind fun next => aclMatch levels next false
      let matched := matched.or
        ((cur.children.find? singleWildcard).bind fun next => aclMatch levels next false)
      matched.or ((cur.children.find? multiWildcard).bind fun next => aclMatch levels next true)

/-- The loops of `tmq_acl_auth`: the first answer of a rule. -/
def checkRules (session : AclSession) (access : AclAccess) : List AclRule → Permission
  | [] => .unknown
  | rule :: rules =>
      if rule.checkPermission session access ≠ .unknown then rule.checkPermission session access
      else checkRules session access rules

def tmqAclAuth (acl : Acl) (session : AclSession) (topicFilter : Bytes) (access : AclAccess) :
    Permission :=
  match aclMatch (tmqTopicSplit topicFilter) acl.root false with
  | none => acl.nomatchPermission
  | some node =>
      let perm := checkRules session access node.value.rules
      let perm := if perm = .unknown then checkRules session access node.value.rulesForAll else perm
      if perm = .unknown then acl.nomatchPermission else perm

end TinyMqtt
