import TinyMqtt.Acl.Acl

/-!
What `add_rule` makes of a list of rules. A rule for the same target that says
the opposite is freed, and the cursor then stands on the rule behind it, which
is tried for a merge whatever its target is and is not looked at again.
-/

namespace TinyMqtt

def AclTarget.designates (target : AclTarget) (session : AclSession) : Bool :=
  match target with
  | .all => true
  | .username name => cstr name = cstr session.username
  | .clientId name => cstr name = cstr session.clientId
  | .ip addr => addr = session.peerAddr

namespace AclRule

theorem checkPermission_eq_ite (rule : AclRule) (session : AclSession) (access : AclAccess) :
    rule.checkPermission session access
      = if (rule.access = .pubSub ∨ rule.access = access) ∧ rule.target.designates session
        then rule.permission else .unknown := by
  unfold checkPermission AclTarget.designates
  cases rule.target <;> grind

theorem checkSameTarget_self (rule : AclRule) : rule.checkSameTarget rule = true := by
  unfold checkSameTarget
  cases rule.target <;> simp

/-- Rules for the same target are about the same sessions. -/
theorem designates_of_checkSameTarget {rule other : AclRule}
    (hsame : rule.checkSameTarget other = true) (session : AclSession) :
    rule.target.designates session = other.target.designates session := by
  unfold checkSameTarget at hsame
  unfold AclTarget.designates
  cases hrule : rule.target <;> cases hother : other.target <;> simp_all

/-- `add_rule` frees the rule when it looks at its target. -/
def opposes (rule new : AclRule) : Bool := rule.checkSameTarget new && rule.conflicts new

/-- The rule after a merge with the new one, if it is one of its target. -/
def widen (rule new : AclRule) : AclRule :=
  if rule.checkSameTarget new && rule.merges new then { rule with access := .pubSub } else rule

theorem not_merges_of_opposes {rule new : AclRule} (hopposes : rule.opposes new = true) :
    rule.merges new = false := by
  unfold opposes conflicts at hopposes
  unfold merges
  grind

@[simp] theorem checkSameTarget_access (rule new : AclRule) (access : AclAccess) :
    { rule with access := access }.checkSameTarget new = rule.checkSameTarget new := rfl

theorem with_access_eq_self_iff (rule : AclRule) (access : AclAccess) :
    { rule with access := access } = rule ↔ rule.access = access := by
  cases rule
  simp [eq_comm]

/-- Requests that the new rule is not about meet the same answer. -/
theorem checkPermission_widen {new : AclRule} {session : AclSession} {access : AclAccess}
    (haccess : access ≠ .pubSub) (hsilent : new.checkPermission session access = .unknown)
    (rule : AclRule) :
    (rule.widen new).checkPermission session access = rule.checkPermission session access := by
  unfold widen
  split
  · rename_i hmerge
    obtain ⟨hsame, hmerges⟩ := Bool.and_eq_true_iff.mp hmerge
    have htarget := designates_of_checkSameTarget hsame session
    simp only [merges, decide_eq_true_eq] at hmerges
    rw [checkPermission_eq_ite] at hsilent
    rw [checkPermission_eq_ite, checkPermission_eq_ite]
    cases hnew : new.access <;> cases hrule : rule.access <;> cases access <;> grind
  · rfl

/-- A rule of the target that says what the new one says covers its requests
after the merge. -/
theorem checkPermission_widen_self {new rule : AclRule} {session : AclSession}
    {access : AclAccess} (happlies : new.checkPermission session access ≠ .unknown)
    (hsame : rule.checkSameTarget new = true) (hpermission : rule.permission = new.permission) :
    (rule.widen new).checkPermission session access = new.permission := by
  have htarget := designates_of_checkSameTarget hsame session
  rw [checkPermission_eq_ite] at happlies
  unfold widen merges
  split
  · rw [checkPermission_eq_ite]
    grind
  · rw [checkPermission_eq_ite]
    grind

end AclRule

/-! ### The cursor -/

/-- The rules that stay in the list: of opposing rules that stand next to each
other, the first, the third, the fifth and so on go. -/
def remaining (new : AclRule) : List AclRule → List AclRule
  | [] => []
  | rule :: rules =>
      if rule.opposes new then
        match rules with
        | [] => []
        | following :: rules => following :: remaining new rules
      else rule :: remaining new rules

/-- The last of these rules is freed: an odd number of opposing ones stands at
the end. -/
def freesLast (new : AclRule) (rules : List AclRule) : Bool :=
  (rules.reverse.takeWhile (AclRule.opposes · new)).length % 2 = 1

def FollowsFreed (new : AclRule) (existing : List AclRule) (rule : AclRule) : Prop :=
  ∃ before after, existing = before ++ rule :: after ∧ freesLast new before = true

section Cursor

variable {new rule following : AclRule} {rules : List AclRule}

theorem freesLast_cons_of_not_opposes (hkeeps : rule.opposes new = false) :
    freesLast new (rule :: rules) = freesLast new rules := by
  unfold freesLast
  rw [List.reverse_cons, List.takeWhile_append]
  split
  · rename_i hall
    simp [hkeeps, hall]
  · rfl

theorem freesLast_cons_cons (hopposes : rule.opposes new = true) :
    freesLast new (rule :: following :: rules) = freesLast new rules := by
  unfold freesLast
  rw [List.reverse_cons, List.reverse_cons, List.append_assoc, List.takeWhile_append]
  split
  · rename_i hall
    cases hfollowing : following.opposes new <;> simp [hopposes, hfollowing, hall]
  · rfl

theorem followsFreed_nil : ¬ FollowsFreed new [] rule := by
  rintro ⟨before, after, hsplit, -⟩
  simp at hsplit

theorem followsFreed_cons_of_not_opposes (hkeeps : rule.opposes new = false) (other : AclRule) :
    FollowsFreed new (rule :: rules) other ↔ FollowsFreed new rules other := by
  constructor
  · rintro ⟨before, after, hsplit, hfrees⟩
    cases before with
    | nil => cases hfrees
    | cons first before =>
        obtain ⟨rfl, hrules⟩ := List.cons.inj hsplit
        rw [freesLast_cons_of_not_opposes hkeeps] at hfrees
        exact ⟨before, after, hrules, hfrees⟩
  · rintro ⟨before, after, rfl, hfrees⟩
    exact ⟨rule :: before, after, rfl, by rwa [freesLast_cons_of_not_opposes hkeeps]⟩

theorem followsFreed_cons_cons (hopposes : rule.opposes new = true) (other : AclRule) :
    FollowsFreed new (rule :: following :: rules) other
      ↔ other = following ∨ FollowsFreed new rules other := by
  constructor
  · rintro ⟨before, after, hsplit, hfrees⟩
    match before with
    | [] => cases hfrees
    | [first] =>
        obtain ⟨-, hrules⟩ := List.cons.inj hsplit
        exact .inl (List.cons.inj hrules).1.symm
    | first :: second :: before =>
        obtain ⟨rfl, hothers⟩ := List.cons.inj hsplit
        obtain ⟨rfl, hrules⟩ := List.cons.inj hothers
        rw [freesLast_cons_cons hopposes] at hfrees
        exact .inr ⟨before, after, hrules, hfrees⟩
  · rintro (rfl | ⟨before, after, rfl, hfrees⟩)
    · exact ⟨[rule], rules, rfl, by simp [freesLast, hopposes]⟩
    · exact ⟨rule :: following :: before, after, rfl, by rwa [freesLast_cons_cons hopposes]⟩

theorem remaining_cons_of_not_opposes (hkeeps : rule.opposes new = false) :
    remaining new (rule :: rules) = rule :: remaining new rules := by
  conv_lhs => unfold remaining
  rw [if_neg (by simp [hkeeps])]

theorem addRuleLoop_cons_of_not_opposes (hkeeps : rule.opposes new = false) (merged : Bool) :
    addRuleLoop new (rule :: rules) merged
      = (addRuleLoop new rules (merged || rule.checkSameTarget new && rule.merges new)).map
          fun left => (rule.widen new :: left.1, left.2) := by
  conv_lhs => unfold addRuleLoop
  cases hsame : rule.checkSameTarget new with
  | false => cases h : addRuleLoop new rules merged <;> simp [AclRule.widen, hsame, h]
  | true =>
      have hconflicts : rule.conflicts new = false := by simpa [AclRule.opposes, hsame] using hkeeps
      cases h : addRuleLoop new rules (merged || rule.merges new) <;>
        simp [AclRule.widen, hsame, hconflicts, h]

theorem addRuleLoop_singleton (hopposes : rule.opposes new = true) (merged : Bool) :
    addRuleLoop new [rule] merged = none := by
  obtain ⟨hsame, hconflicts⟩ := Bool.and_eq_true_iff.mp hopposes
  simp [addRuleLoop, hsame, hconflicts]

theorem addRuleLoop_cons_cons (hopposes : rule.opposes new = true) (merged : Bool) :
    addRuleLoop new (rule :: following :: rules) merged
      = (addRuleLoop new rules (merged || following.merges new)).map fun left =>
          ((if following.merges new then { following with access := .pubSub } else following) ::
            left.1, left.2) := by
  obtain ⟨hsame, hconflicts⟩ := Bool.and_eq_true_iff.mp hopposes
  cases h : addRuleLoop new rules (merged || following.merges new) <;>
    simp [addRuleLoop, hsame, hconflicts, h]

end Cursor

/-! ### What the loop leaves -/

def Absorbed (new : AclRule) (existing : List AclRule) : Prop :=
  ∃ rule, rule.merges new = true ∧
    (rule ∈ existing ∧ rule.checkSameTarget new = true ∨ FollowsFreed new existing rule)

/-- No rule for another target gets more accesses. -/
def SparesOthers (new : AclRule) (existing : List AclRule) : Prop :=
  ∀ rule, FollowsFreed new existing rule → rule.merges new = true →
    rule.checkSameTarget new = false → rule.access = .pubSub

def othersOf (new : AclRule) (rules : List AclRule) : List AclRule :=
  rules.filter fun rule => !rule.checkSameTarget new

section Loop

variable {new rule following : AclRule} {rules : List AclRule}

theorem absorbed_cons_of_not_opposes (hkeeps : rule.opposes new = false) :
    Absorbed new (rule :: rules)
      ↔ (rule.checkSameTarget new && rule.merges new) = true ∨ Absorbed new rules := by
  simp only [Absorbed, followsFreed_cons_of_not_opposes hkeeps, List.mem_cons, Bool.and_eq_true]
  constructor
  · rintro ⟨other, hmerges, ⟨rfl | hmem, hsame⟩ | hfollows⟩
    · exact .inl ⟨hsame, hmerges⟩
    · exact .inr ⟨other, hmerges, .inl ⟨hmem, hsame⟩⟩
    · exact .inr ⟨other, hmerges, .inr hfollows⟩
  · rintro (⟨hsame, hmerges⟩ | ⟨other, hmerges, ⟨hmem, hsame⟩ | hfollows⟩)
    · exact ⟨rule, hmerges, .inl ⟨.inl rfl, hsame⟩⟩
    · exact ⟨other, hmerges, .inl ⟨.inr hmem, hsame⟩⟩
    · exact ⟨other, hmerges, .inr hfollows⟩

theorem absorbed_cons_cons (hopposes : rule.opposes new = true) :
    Absorbed new (rule :: following :: rules)
      ↔ following.merges new = true ∨ Absorbed new rules := by
  have hfreed := AclRule.not_merges_of_opposes hopposes
  simp only [Absorbed, followsFreed_cons_cons hopposes, List.mem_cons]
  constructor
  · rintro ⟨other, hmerges, ⟨rfl | rfl | hmem, hsame⟩ | rfl | hfollows⟩
    · rw [hfreed] at hmerges
      cases hmerges
    · exact .inl hmerges
    · exact .inr ⟨other, hmerges, .inl ⟨hmem, hsame⟩⟩
    · exact .inl hmerges
    · exact .inr ⟨other, hmerges, .inr hfollows⟩
  · rintro (hmerges | ⟨other, hmerges, ⟨hmem, hsame⟩ | hfollows⟩)
    · exact ⟨following, hmerges, .inr (.inl rfl)⟩
    · exact ⟨other, hmerges, .inl ⟨.inr (.inr hmem), hsame⟩⟩
    · exact ⟨other, hmerges, .inr (.inr hfollows)⟩

theorem sparesOthers_cons_cons (hopposes : rule.opposes new = true) :
    SparesOthers new (rule :: following :: rules)
      ↔ (following.merges new = true → following.checkSameTarget new = false →
          following.access = .pubSub) ∧ SparesOthers new rules := by
  simp only [SparesOthers, followsFreed_cons_cons hopposes]
  constructor
  · intro h
    exact ⟨h following (.inl rfl), fun other hfollows => h other (.inr hfollows)⟩
  · rintro ⟨hfirst, hothers⟩ other (rfl | hfollows)
    · exact hfirst
    · exact hothers other hfollows

theorem addRuleLoop_eq_none (new : AclRule) (existing : List AclRule)
    (hfrees : freesLast new existing = true) (merged : Bool) :
    addRuleLoop new existing merged = none := by
  induction existing using remaining.induct new generalizing merged with
  | case1 => cases hfrees
  | case2 rule hopposes => exact addRuleLoop_singleton hopposes merged
  | case3 rule hopposes following rules ih =>
      rw [freesLast_cons_cons hopposes] at hfrees
      rw [addRuleLoop_cons_cons hopposes, ih hfrees]
      rfl
  | case4 rule rules hkeeps ih =>
      have hkeeps : rule.opposes new = false := by simpa using hkeeps
      rw [freesLast_cons_of_not_opposes hkeeps] at hfrees
      rw [addRuleLoop_cons_of_not_opposes hkeeps, ih hfrees]
      rfl

/-- The loop leaves the rules that stay, with those of the target widened, as
long as it meets no rule of another target behind a freed one. -/
theorem addRuleLoop_spec (new : AclRule) (existing : List AclRule)
    (hstays : freesLast new existing = false) (merged : Bool) :
    ∃ rules merged', addRuleLoop new existing merged = some (rules, merged') ∧
      (merged' = true ↔ merged = true ∨ Absorbed new existing) ∧
      (othersOf new rules = othersOf new existing ↔ SparesOthers new existing) ∧
      (SparesOthers new existing → rules = (remaining new existing).map (·.widen new)) := by
  induction existing using remaining.induct new generalizing merged with
  | case1 =>
      refine ⟨[], merged, rfl, ?_, ?_, fun _ => rfl⟩
      · simp [Absorbed, followsFreed_nil]
      · simp [SparesOthers, followsFreed_nil]
  | case2 rule hopposes => simp [freesLast, hopposes] at hstays
  | case3 rule hopposes following rules ih =>
      rw [freesLast_cons_cons hopposes] at hstays
      obtain ⟨left, merged', hloop, hmerged, hothers, hleft⟩ :=
        ih hstays (merged || following.merges new)
      refine ⟨_, merged', by rw [addRuleLoop_cons_cons hopposes, hloop]; rfl, ?_, ?_, ?_⟩
      · rw [hmerged, absorbed_cons_cons hopposes, Bool.or_eq_true, or_assoc]
      · have hfreed : rule.checkSameTarget new = true := (Bool.and_eq_true_iff.mp hopposes).1
        rw [sparesOthers_cons_cons hopposes, ← hothers]
        cases hsame : following.checkSameTarget new <;>
          cases hmerges : following.merges new <;>
          simp [othersOf, hfreed, hsame, AclRule.with_access_eq_self_iff]
      · intro hspares
        obtain ⟨hfollowing, hrest⟩ := (sparesOthers_cons_cons hopposes).mp hspares
        rw [remaining, if_pos hopposes, List.map_cons, hleft hrest, AclRule.widen]
        cases hsame : following.checkSameTarget new <;>
          cases hmerges : following.merges new <;>
          simp [AclRule.with_access_eq_self_iff]
        exact hfollowing hmerges hsame
  | case4 rule rules hkeeps ih =>
      have hkeeps : rule.opposes new = false := by simpa using hkeeps
      rw [freesLast_cons_of_not_opposes hkeeps] at hstays
      obtain ⟨left, merged', hloop, hmerged, hothers, hleft⟩ :=
        ih hstays (merged || rule.checkSameTarget new && rule.merges new)
      have hspares : SparesOthers new (rule :: rules) ↔ SparesOthers new rules := by
        simp only [SparesOthers, followsFreed_cons_of_not_opposes hkeeps]
      refine ⟨_, merged', by rw [addRuleLoop_cons_of_not_opposes hkeeps, hloop]; rfl, ?_, ?_, ?_⟩
      · rw [hmerged, absorbed_cons_of_not_opposes hkeeps, Bool.or_eq_true, or_assoc]
      · rw [hspares, ← hothers]
        cases hsame : rule.checkSameTarget new <;>
          cases hmerges : rule.merges new <;>
          simp [othersOf, AclRule.widen, hsame, hmerges]
      · intro hall
        rw [remaining_cons_of_not_opposes hkeeps, List.map_cons, hleft (hspares.mp hall)]

end Loop

/-! ### The answers of the list -/

/-- `add_rule` is defined on the list; a request that the new rule answers gets
its answer from it, any other request the answer it got before, and the rules
for other targets are as they were. Requests are to publish or to subscribe. -/
def AddRuleOverrides (existing : List AclRule) (new : AclRule) : Prop :=
  ∃ rules, addRule existing new = some rules ∧
    (∀ session access, access ≠ .pubSub →
      checkRules session access rules =
        if new.checkPermission session access ≠ .unknown then new.permission
        else checkRules session access existing) ∧
    othersOf new rules = othersOf new existing

/-- The rule is one of the target that says what the new one says, or it
answers the request. -/
def AclRule.decides (new : AclRule) (session : AclSession) (access : AclAccess)
    (rule : AclRule) : Bool :=
  rule.checkSameTarget new && rule.permission = new.permission ||
    rule.checkPermission session access ≠ .unknown

/-- When `add_rule` overrides: its cursor does not run over the end, no other
target gains an access, the rules that go are not missed, and a rule that
takes up the new one is not too late. -/
structure Insertable (existing : List AclRule) (new : AclRule) : Prop where
  stays : freesLast new existing = false
  spares : SparesOthers new existing
  silent : ∀ session access, access ≠ .pubSub → new.checkPermission session access = .unknown →
    checkRules session access (remaining new existing) = checkRules session access existing
  applies : Absorbed new existing → ∀ session access, access ≠ .pubSub →
    new.checkPermission session access ≠ .unknown →
    ((remaining new existing).find? (new.decides session access)).map AclRule.permission
      = some new.permission

section Answers

variable {new : AclRule} {session : AclSession} {access : AclAccess}

theorem checkRules_map_widen (haccess : access ≠ .pubSub)
    (hsilent : new.checkPermission session access = .unknown) (rules : List AclRule) :
    checkRules session access (rules.map (·.widen new)) = checkRules session access rules := by
  induction rules with
  | nil => rfl
  | cons rule rules ih =>
      rw [List.map_cons, checkRules, checkRules, ih,
        AclRule.checkPermission_widen haccess hsilent rule]

/-- Where the new rule applies, the first rule that decides has the say. -/
theorem checkRules_map_widen_eq_iff (happlies : new.checkPermission session access ≠ .unknown)
    (rules : List AclRule) :
    checkRules session access (rules.map (·.widen new)) = new.permission ↔
      (rules.find? (new.decides session access)).map AclRule.permission
        = some new.permission := by
  have hknown : new.permission ≠ .unknown := by
    rw [← AclRule.checkPermission_eq new happlies]
    exact happlies
  induction rules with
  | nil => simp [checkRules, Ne.symm hknown]
  | cons rule rules ih =>
      rw [List.map_cons, checkRules, List.find?_cons]
      by_cases hsame : rule.checkSameTarget new = true ∧ rule.permission = new.permission
      · have hself := AclRule.checkPermission_widen_self happlies hsame.1 hsame.2
        simp [hself, hknown, AclRule.decides, hsame.1, hsame.2]
      · have hkept : rule.widen new = rule := by
          unfold AclRule.widen AclRule.merges
          grind
        have hdecides : new.decides session access rule
            = decide (rule.checkPermission session access ≠ .unknown) := by
          unfold AclRule.decides
          grind
        rw [hkept, hdecides]
        by_cases hanswers : rule.checkPermission session access = .unknown
        · simpa [hanswers] using ih
        · have hanswer := AclRule.checkPermission_eq rule hanswers
          have hsomething : rule.permission ≠ .unknown := hanswer ▸ hanswers
          simp [hanswer, hsomething]

end Answers

theorem othersOf_cons_self (new : AclRule) (rules : List AclRule) :
    othersOf new (new :: rules) = othersOf new rules := by
  simp [othersOf, AclRule.checkSameTarget_self]

/-- While the cursor stays in the list, the new list answers like the rules that
stay, and where the new rule applies like it or the rules that took it up. -/
theorem addRule_answers {existing : List AclRule} {new : AclRule}
    (hstays : freesLast new existing = false) :
    ∃ rules, addRule existing new = some rules ∧
      (othersOf new rules = othersOf new existing ↔ SparesOthers new existing) ∧
      (SparesOthers new existing →
        (∀ session access, access ≠ .pubSub → new.checkPermission session access = .unknown →
          checkRules session access rules = checkRules session access (remaining new existing)) ∧
        ∀ session access, new.checkPermission session access ≠ .unknown →
          (checkRules session access rules = new.permission ↔ (Absorbed new existing →
            ((remaining new existing).find? (new.decides session access)).map AclRule.permission
              = some new.permission))) := by
  obtain ⟨rules, merged, hloop, hmerged, hothers, hrules⟩ :=
    addRuleLoop_spec new existing hstays false
  rw [Bool.false_eq_true, false_or] at hmerged
  refine ⟨if merged then rules else new :: rules, by simp [addRule, hloop], ?_, ?_⟩
  · rw [← hothers]
    cases merged <;> simp [othersOf_cons_self]
  · intro hspares
    obtain rfl := hrules hspares
    constructor
    · intro session access haccess hsilent
      rw [← checkRules_map_widen haccess hsilent (remaining new existing)]
      cases merged <;> simp [checkRules, hsilent]
    · intro session access happlies
      cases merged with
      | true =>
          have habsorbed := hmerged.mp rfl
          simp only [if_true, habsorbed, true_imp_iff]
          exact checkRules_map_widen_eq_iff happlies _
      | false =>
          have habsorbed : ¬ Absorbed new existing := fun h => by simpa using hmerged.mpr h
          have hanswer := AclRule.checkPermission_eq new happlies
          have hsomething : new.permission ≠ .unknown := hanswer ▸ happlies
          simp [checkRules, hanswer, hsomething, habsorbed]

/-- `add_rule` does what it is for just under these conditions. -/
theorem addRuleOverrides_iff (existing : List AclRule) (new : AclRule) :
    AddRuleOverrides existing new ↔ Insertable existing new := by
  cases hfrees : freesLast new existing with
  | true =>
      have hnone : addRule existing new = none := by
        simp [addRule, addRuleLoop_eq_none new existing hfrees]
      constructor
      · rintro ⟨rules, hadd, -⟩
        rw [hnone] at hadd
        cases hadd
      · intro h
        rw [h.stays] at hfrees
        cases hfrees
  | false =>
      obtain ⟨rules, hadd, hothers, hanswers⟩ := addRule_answers hfrees
      constructor
      · rintro ⟨rules', hadd', hoverrides, hsame⟩
        obtain rfl := Option.some.inj (hadd.symm.trans hadd')
        have hspares := hothers.mp hsame
        obtain ⟨hsilent, happlies⟩ := hanswers hspares
        refine ⟨hfrees, hspares, ?_, ?_⟩
        · intro session access haccess hunknown
          rw [← hsilent session access haccess hunknown, hoverrides session access haccess,
            if_neg (not_not.mpr hunknown)]
        · intro habsorbed session access haccess hknown
          refine (happlies session access hknown).mp ?_ habsorbed
          rw [hoverrides session access haccess, if_pos hknown]
      · intro h
        obtain ⟨hsilent, happlies⟩ := hanswers h.spares
        refine ⟨rules, hadd, ?_, hothers.mpr h.spares⟩
        intro session access haccess
        split
        · rename_i hknown
          exact (happlies session access hknown).mpr fun habsorbed =>
            h.applies habsorbed session access haccess hknown
        · rename_i hunknown
          rw [not_not] at hunknown
          rw [hsilent session access haccess hunknown, h.silent session access haccess hunknown]

/-- The list allows a client to publish, and the new rule denies it. -/
theorem not_addRuleOverrides_last :
    ¬ AddRuleOverrides [⟨.clientId [99], .pub, .allow⟩] ⟨.clientId [99], .pub, .deny⟩ := by
  rintro ⟨rules, hadd, -⟩
  cases hadd

end TinyMqtt
