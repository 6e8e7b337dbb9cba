import TinyMqtt.Acl.Agreement
import TinyMqtt.Acl.Insertion

/-!
The access control list as the database has it. `tinymqtt_acl_table` says 0
for deny and 1 for allow, and 0 for subscribe and 1 for publish. The loader
(`db/mqtt_db.c`) casts the numbers to `tmq_permission_e` and `tmq_access_e`,
which count the other way round.
-/

namespace TinyMqtt

/-! ### The library functions of the loader -/

def atoi (text : Bytes) : Int :=
  match (cstr text).dropWhile isSpace with
  | 45 :: digits => -(digitsValue (digits.takeWhile isDigit))
  | 43 :: digits => digitsValue (digits.takeWhile isDigit)
  | digits => digitsValue (digits.takeWhile isDigit)

/-- The four octets of an `in_addr`, in the order in which they are written. -/
abbrev InAddr := UInt8 × UInt8 × UInt8 × UInt8

/-- The number `s_addr`, whose bytes in memory are the octets. -/
def InAddr.sAddr (addr : InAddr) : UInt32 :=
  addr.1.toUInt32 ||| addr.2.1.toUInt32 <<< 8 ||| addr.2.2.1.toUInt32 <<< 16 |||
    addr.2.2.2.toUInt32 <<< 24

/-- An octet as `inet_pton` reads it: decimal digits without a leading zero. -/
def parseOctet (text : Bytes) : Option UInt8 :=
  if text = [] ∨ ¬ text.all isDigit ∨ (text.head? = some 48 ∧ text ≠ [48]) ∨
      255 < digitsValue text then none
  else some (UInt8.ofNat (digitsValue text))

/-- `inet_pton` of `AF_INET`. -/
def inetPton (text : Bytes) : Option InAddr :=
  match (cstr text).splitOn 46 with
  | [first, second, third, fourth] => do
      let first ← parseOctet first
      let second ← parseOctet second
      let third ← parseOctet third
      let fourth ← parseOctet fourth
      some (first, second, third, fourth)
  | _ => none

def inetNtop (addr : InAddr) : Bytes :=
  [46].intercalate [decimal addr.1.toNat, decimal addr.2.1.toNat, decimal addr.2.2.1.toNat,
    decimal addr.2.2.2.toNat]

theorem decimal_octet (n : UInt8) :
    parseOctet (decimal n.toNat) = some n ∧ (46 : UInt8) ∉ decimal n.toNat ∧
      (0 : UInt8) ∉ decimal n.toNat := by
  have hall : ∀ n : Fin 256, parseOctet (decimal n.val) = some (UInt8.ofNat n.val) ∧
      (46 : UInt8) ∉ decimal n.val ∧ (0 : UInt8) ∉ decimal n.val := by
    decide +kernel
  simpa using hall ⟨n.toNat, n.toNat_lt⟩

theorem inetPton_inetNtop (addr : InAddr) : inetPton (inetNtop addr) = some addr := by
  obtain ⟨hfirst, hdot₁, hzero₁⟩ := decimal_octet addr.1
  obtain ⟨hsecond, hdot₂, hzero₂⟩ := decimal_octet addr.2.1
  obtain ⟨hthird, hdot₃, hzero₃⟩ := decimal_octet addr.2.2.1
  obtain ⟨hfourth, hdot₄, hzero₄⟩ := decimal_octet addr.2.2.2
  have hcopy : cstr (inetNtop addr) = inetNtop addr := by
    rw [cstr_eq_self_iff]
    simp [inetNtop, List.intercalate, hzero₁, hzero₂, hzero₃, hzero₄]
  have hsplit : (inetNtop addr).splitOn 46 = [decimal addr.1.toNat, decimal addr.2.1.toNat,
      decimal addr.2.2.1.toNat, decimal addr.2.2.2.toNat] := by
    apply List.splitOn_intercalate
    · simp [hdot₁, hdot₂, hdot₃, hdot₄]
    · simp
  rw [inetPton, hcopy, hsplit]
  simp [hfirst, hsecond, hthird, hfourth]

/-! ### The loader -/

/-- `acl_ip_rule_new`. An address that cannot be read stays zero. -/
def aclIpRuleNew (permission : Permission) (ip : Bytes) (access : AclAccess) : AclRule :=
  ⟨.ip ((inetPton ip).elim 0 InAddr.sAddr), access, permission⟩

def aclUsernameRuleNew (permission : Permission) (username : Bytes) (access : AclAccess) :
    AclRule :=
  ⟨.username (tmqStrNew username), access, permission⟩

def aclClientIdRuleNew (permission : Permission) (clientId : Bytes) (access : AclAccess) :
    AclRule :=
  ⟨.clientId (tmqStrNew clientId), access, permission⟩

def aclAllRuleNew (permission : Permission) (access : AclAccess) : AclRule :=
  ⟨.all, access, permission⟩

/-- The cast to `tmq_permission_e`. The text of the permission is logged, and
there are two of them. -/
def Permission.ofInt : Int → Option Permission
  | 0 => some .allow
  | 1 => some .deny
  | _ => none

/-- The cast to `tmq_access_e`, whose text is logged too. -/
def AclAccess.ofInt : Int → Option AclAccess
  | 0 => some .pub
  | 1 => some .sub
  | 2 => some .pubSub
  | _ => none

/-- A `MYSQL_ROW` of `tinymqtt_acl_table`. A column that is null is a null
pointer of length 0. -/
structure AclMysqlRow where
  id : Option Bytes
  allow : Option Bytes
  ip : Option Bytes
  username : Option Bytes
  clientId : Option Bytes
  access : Option Bytes
  topic : Option Bytes

/-- The loop body of `mysql_load_acl`. -/
def loadAclRow (acl : Acl) (row : AclMysqlRow) : Option Acl := do
  let permission ← Permission.ofInt (atoi (← row.allow))
  let access ← AclAccess.ofInt (atoi (← row.access))
  let topic ← row.topic
  let ip := row.ip.getD []
  let username := row.username.getD []
  let clientId := row.clientId.getD []
  if 0 < ip.length then acl.tmqAclAddRule topic (aclIpRuleNew permission ip access)
  else if 0 < username.length then
    acl.tmqAclAddRule topic (aclUsernameRuleNew permission username access)
  else if 0 < clientId.length then
    acl.tmqAclAddRule topic (aclClientIdRuleNew permission clientId access)
  else acl.tmqAclAddRuleForAll topic (aclAllRuleNew permission access)

/-- `mysql_load_acl` with the rows of the query. -/
def mysqlLoadAcl (acl : Acl) (rows : List AclMysqlRow) : Option Acl := rows.foldlM loadAclRow acl

/-! ### A list of one rule -/

theorem reachesEnd_self {levels : List Bytes} : reachesEnd levels levels = true := by
  induction levels with
  | nil => rfl
  | cons level levels ih => simp [reachesEnd, ih]

/-- The list of one rule answers for the topic of the rule itself. -/
theorem tmqAclAuth_aclOfRule_self {forAll : Bool} {nomatchPermission : Permission} {topic : Bytes}
    (hplain : WildcardFree (tmqTopicSplit topic)) {rule : AclRule} {acl : Acl}
    (hacl : aclOfRule forAll nomatchPermission topic rule = some acl) (session : AclSession)
    (access : AclAccess) :
    tmqAclAuth acl session topic access
      = if rule.checkPermission session access = .unknown then nomatchPermission
        else rule.checkPermission session access := by
  rw [aclOfRule_eq] at hacl
  obtain rfl := Option.some.inj hacl
  have hvalid : ValidFilter (tmqTopicSplit topic) := by
    intro hmem
    have hplain := hplain _ (List.mem_of_mem_dropLast hmem)
    simp [isWildcard] at hplain
  rcases aclMatch_spine hvalid hplain (dataOfRule forAll rule) with
    ⟨-, node, hnode, hvalue⟩ | ⟨hends, -⟩
  · simp only [tmqAclAuth, hnode, hvalue]
    cases forAll <;> by_cases hsilent : rule.checkPermission session access = .unknown <;>
      simp [dataOfRule, checkRules, hsilent]
  · rw [reachesEnd_self] at hends
    cases hends

/-! ### What the table says -/

inductive AclTableTarget where
  | ip (addr : InAddr)
  | username (username : { name : Bytes // name ≠ [] })
  | clientId (clientId : { name : Bytes // name ≠ [] })
  | all

/-- The `access` of a row. -/
inductive AclTableAccess where
  | subscribe | publish | both
  deriving DecidableEq, Repr

/-- The number that stands for it. -/
def AclTableAccess.number : AclTableAccess → Nat
  | .subscribe => 0
  | .publish => 1
  | .both => 2

/-- A row as the comments of the table describe it. -/
structure AclTableRow where
  id : Nat
  allow : Bool
  target : AclTableTarget
  access : AclTableAccess
  topic : Bytes

namespace AclTableRow

def columns (row : AclTableRow) : AclMysqlRow where
  id := some (decimal row.id)
  allow := some (decimal (if row.allow then 1 else 0))
  ip := some (match row.target with | .ip addr => inetNtop addr | _ => [])
  username := some (match row.target with | .username name => name.1 | _ => [])
  clientId := some (match row.target with | .clientId name => name.1 | _ => [])
  access := some (decimal row.access.number)
  topic := some row.topic

def designates (row : AclTableRow) (session : AclSession) : Prop :=
  match row.target with
  | .ip addr => session.peerAddr = addr.sAddr
  | .username name => cstr session.username = cstr name.1
  | .clientId name => cstr session.clientId = cstr name.1
  | .all => True

/-- The row is about requests of this kind. -/
def covers (row : AclTableRow) : AclAccess → Bool
  | .sub => row.access ≠ .publish
  | .pub => row.access ≠ .subscribe
  | .pubSub => row.access = .both

def permission (row : AclTableRow) : Permission := if row.allow then .allow else .deny

def opposite (row : AclTableRow) : Permission := if row.allow then .deny else .allow

def decision (row : AclTableRow) (nomatchPermission : Permission) (access : AclAccess) :
    Permission :=
  if row.covers access then row.permission else nomatchPermission

def loadedRule (row : AclTableRow) : AclRule where
  target := match row.target with
    | .ip addr => .ip addr.sAddr
    | .username name => .username (tmqStrNew name.1)
    | .clientId name => .clientId (tmqStrNew name.1)
    | .all => .all
  access := match row.access with | .subscribe => .pub | .publish => .sub | .both => .pubSub
  permission := row.opposite

/-- The list loaded from the row alone decides as the row says. -/
def DecidesAs (row : AclTableRow) (nomatchPermission : Permission) (session : AclSession)
    (access : AclAccess) : Prop :=
  ∃ acl, mysqlLoadAcl (tmqAclInit nomatchPermission) [row.columns] = some acl ∧
    tmqAclAuth acl session row.topic access = row.decision nomatchPermission access

theorem length_inetNtop_pos (addr : InAddr) : 0 < (inetNtop addr).length := by
  simp [inetNtop, List.intercalate]

theorem ofInt_allow (row : AclTableRow) :
    Permission.ofInt (atoi (decimal (if row.allow then 1 else 0))) = some row.opposite := by
  unfold opposite
  cases row.allow <;> rfl

theorem ofInt_access (row : AclTableRow) :
    AclAccess.ofInt (atoi (decimal row.access.number)) = some row.loadedRule.access := by
  unfold loadedRule
  cases row.access <;> rfl

/-- The loader stores the row as a rule that says the opposite, about the other
kind of requests. -/
theorem mysqlLoadAcl_columns (row : AclTableRow) (nomatchPermission : Permission) :
    ∃ forAll, mysqlLoadAcl (tmqAclInit nomatchPermission) [row.columns]
      = aclOfRule forAll nomatchPermission row.topic row.loadedRule := by
  have hload : mysqlLoadAcl (tmqAclInit nomatchPermission) [row.columns]
      = loadAclRow (tmqAclInit nomatchPermission) row.columns := by
    simp [mysqlLoadAcl]
  rw [hload]
  have hpermission := row.ofInt_allow
  have haccess := row.ofInt_access
  obtain ⟨id, allow, target, access, topic⟩ := row
  cases target with
  | ip addr =>
      refine ⟨false, ?_⟩
      simp [loadAclRow, columns, hpermission, haccess, length_inetNtop_pos, aclIpRuleNew,
        inetPton_inetNtop, aclOfRule, loadedRule]
  | username name =>
      refine ⟨false, ?_⟩
      simp [loadAclRow, columns, hpermission, haccess, List.length_pos_of_ne_nil name.2,
        aclUsernameRuleNew, aclOfRule, loadedRule]
  | clientId name =>
      refine ⟨false, ?_⟩
      simp [loadAclRow, columns, hpermission, haccess, List.length_pos_of_ne_nil name.2,
        aclClientIdRuleNew, aclOfRule, loadedRule]
  | all =>
      refine ⟨true, ?_⟩
      simp [loadAclRow, columns, hpermission, haccess, aclAllRuleNew, aclOfRule, loadedRule]

theorem loadedRule_designates {row : AclTableRow} {session : AclSession}
    (hdesignated : row.designates session) :
    row.loadedRule.target.designates session = true := by
  unfold designates at hdesignated
  unfold loadedRule AclTarget.designates
  cases htarget : row.target <;> rw [htarget] at hdesignated <;> simp [hdesignated, cstr_cstr]

/-- The loaded list decides as the row says just when the row is not about both
kinds of requests and the default happens to be what the row says, or the
opposite for the kind that it is not about. -/
theorem decidesAs_iff (row : AclTableRow) (hplain : WildcardFree (tmqTopicSplit row.topic))
    (nomatchPermission : Permission) (session : AclSession)
    (hdesignated : row.designates session) (access : AclAccess) (haccess : access ≠ .pubSub) :
    row.DecidesAs nomatchPermission session access ↔
      row.access ≠ .both ∧
        nomatchPermission = if row.covers access then row.permission else row.opposite := by
  obtain ⟨forAll, hload⟩ := mysqlLoadAcl_columns row nomatchPermission
  obtain ⟨acl, hacl⟩ : ∃ acl, aclOfRule forAll nomatchPermission row.topic row.loadedRule
      = some acl := ⟨_, aclOfRule_eq _ _ _ _⟩
  have hdecision : row.DecidesAs nomatchPermission session access ↔
      tmqAclAuth acl session row.topic access = row.decision nomatchPermission access := by
    unfold DecidesAs
    rw [hload, hacl]
    simp
  rw [hdecision, tmqAclAuth_aclOfRule_self hplain hacl, AclRule.checkPermission_eq_ite,
    loadedRule_designates hdesignated]
  unfold decision covers
  have hopposite : row.loadedRule.permission = row.opposite := rfl
  have hknown : row.opposite ≠ .unknown ∧ row.opposite ≠ row.permission := by
    unfold opposite permission
    cases row.allow <;> decide
  rw [hopposite]
  unfold loadedRule
  cases hrow : row.access <;> cases access <;> grind

/-- A row about publishing to `t`, for everybody. -/
def sampleRow (allow : Bool) : AclTableRow := ⟨1, allow, .all, .publish, [116]⟩

theorem decidesAs_iff_deny :
    WildcardFree (tmqTopicSplit (sampleRow false).topic) ∧
      (sampleRow false).designates samplePublisher ∧
      ((sampleRow false).DecidesAs .deny samplePublisher .pub ↔
        (sampleRow false).access ≠ .both ∧
          .deny = if (sampleRow false).covers .pub then (sampleRow false).permission
            else (sampleRow false).opposite) :=
  ⟨by decide, trivial,
    decidesAs_iff (sampleRow false) (by decide) .deny samplePublisher trivial .pub (by decide)⟩

/-- A row that allows everybody to publish to `t` lets nobody do so. -/
theorem not_decidesAs_allow :
    (sampleRow true).designates samplePublisher ∧
      ¬ (sampleRow true).DecidesAs .deny samplePublisher .pub := by
  refine ⟨trivial, ?_⟩
  rintro ⟨acl, hload, hdecision⟩
  obtain rfl := Option.some.inj hload
  revert hdecision
  decide

end AclTableRow

end TinyMqtt
