import TinyMqtt.Acl.Acl
import TinyMqtt.Db.ConnPool

/-!
The lock of the access control list and that of the connection pool, over
sequences of calls. Two early returns keep their lock: the one of an
authorisation that no node of the list matches, and the one of a pop whose new
connection fails.
-/

namespace TinyMqtt

/-- A `pthread_rwlock_t`. -/
structure RwLock where
  readers : Nat
  writer : Bool
  deriving DecidableEq, Repr

namespace RwLock

/-- `pthread_rwlock_rdlock` waits for a writer. -/
def rdlock (lk : RwLock) : Option RwLock :=
  if lk.writer then none else some { lk with readers := lk.readers + 1 }

/-- `pthread_rwlock_wrlock` waits for a writer and for readers. -/
def wrlock (lk : RwLock) : Option RwLock :=
  if lk.writer ∨ 0 < lk.readers then none else some { lk with writer := true }

def unlock (lk : RwLock) : RwLock :=
  if lk.writer then { lk with writer := false } else { lk with readers := lk.readers - 1 }

theorem rdlock_unlock {lk locked : RwLock} (h : lk.rdlock = some locked) : locked.unlock = lk := by
  obtain ⟨readers, writer⟩ := lk
  cases writer with
  | true => cases h
  | false =>
      obtain rfl := Option.some.inj h
      rfl

theorem rdlock_ne {lk locked : RwLock} (h : lk.rdlock = some locked) : locked ≠ lk := by
  obtain ⟨readers, writer⟩ := lk
  cases writer with
  | true => cases h
  | false =>
      obtain rfl := Option.some.inj h
      intro hsame
      exact Nat.succ_ne_self readers (congrArg RwLock.readers hsame)

theorem wrlock_unlock {lk locked : RwLock} (h : lk.wrlock = some locked) : locked.unlock = lk := by
  obtain ⟨readers, writer⟩ := lk
  rw [wrlock] at h
  split at h
  · cases h
  · rename_i hfree
    obtain rfl := Option.some.inj h
    cases writer with
    | true => exact absurd (.inl rfl) hfree
    | false => rfl

end RwLock

/-- An access control list with its lock. -/
structure LockedAcl where
  acl : Acl
  lk : RwLock

namespace LockedAcl

def tmqAclAuth (a : LockedAcl) (session : AclSession) (topicFilter : Bytes)
    (access : AclAccess) : Option (Permission × LockedAcl) := do
  let lk ← a.lk.rdlock
  match aclMatch (tmqTopicSplit topicFilter) a.acl.root false with
  | none => some (a.acl.nomatchPermission, { a with lk := lk })
  | some node =>
      let perm := checkRules session access node.value.rules
      let perm := if perm = .unknown then checkRules session access node.value.rulesForAll else perm
      some (if perm = .unknown then a.acl.nomatchPermission else perm, { a with lk := lk.unlock })

/-- The two functions that add a rule, around the change of the list. -/
def addLocked (a : LockedAcl) (change : Acl → Option Acl) : Option LockedAcl := do
  let lk ← a.lk.wrlock
  let acl ← change a.acl
  some ⟨acl, lk.unlock⟩

def tmqAclAddRule (a : LockedAcl) (topicFilter : Bytes) (rule : AclRule) : Option LockedAcl :=
  a.addLocked fun acl => acl.tmqAclAddRule topicFilter rule

def tmqAclAddRuleForAll (a : LockedAcl) (topicFilter : Bytes) (rule : AclRule) :
    Option LockedAcl :=
  a.addLocked fun acl => acl.tmqAclAddRuleForAll topicFilter rule

/-- A call answers as it does without the lock, and leaves the list. -/
theorem auth_result {a next : LockedAcl} {session : AclSession} {topicFilter : Bytes}
    {access : AclAccess} {perm : Permission}
    (h : a.tmqAclAuth session topicFilter access = some (perm, next)) :
    perm = TinyMqtt.tmqAclAuth a.acl session topicFilter access ∧ next.acl = a.acl := by
  obtain ⟨lk, -, h⟩ := Option.bind_eq_some_iff.mp h
  rw [TinyMqtt.tmqAclAuth]
  cases hmatch : aclMatch (tmqTopicSplit topicFilter) a.acl.root false with
  | none =>
      rw [hmatch] at h
      obtain ⟨rfl, rfl⟩ := Prod.mk.inj (Option.some.inj h)
      exact ⟨rfl, rfl⟩
  | some node =>
      rw [hmatch] at h
      obtain ⟨rfl, rfl⟩ := Prod.mk.inj (Option.some.inj h)
      exact ⟨rfl, rfl⟩

theorem auth_lk_iff {a next : LockedAcl} {session : AclSession} {topicFilter : Bytes}
    {access : AclAccess} {perm : Permission}
    (h : a.tmqAclAuth session topicFilter access = some (perm, next)) :
    next.lk = a.lk ↔ (aclMatch (tmqTopicSplit topicFilter) a.acl.root false).isSome := by
  obtain ⟨lk, hlock, h⟩ := Option.bind_eq_some_iff.mp h
  cases hmatch : aclMatch (tmqTopicSplit topicFilter) a.acl.root false with
  | none =>
      rw [hmatch] at h
      obtain ⟨-, rfl⟩ := Prod.mk.inj (Option.some.inj h)
      exact iff_of_false (RwLock.rdlock_ne hlock) (by simp)
  | some node =>
      rw [hmatch] at h
      obtain ⟨-, rfl⟩ := Prod.mk.inj (Option.some.inj h)
      exact iff_of_true (RwLock.rdlock_unlock hlock) rfl

theorem addLocked_lk {a next : LockedAcl} {change : Acl → Option Acl}
    (h : a.addLocked change = some next) : next.lk = a.lk := by
  obtain ⟨lk, hlock, h⟩ := Option.bind_eq_some_iff.mp h
  obtain ⟨acl, -, h⟩ := Option.bind_eq_some_iff.mp h
  obtain rfl := Option.some.inj h
  exact RwLock.wrlock_unlock hlock

end LockedAcl

namespace MysqlConnPool

theorem lock_eq_some {pool locked : MysqlConnPool} (h : pool.lock = some locked) :
    pool.lk = false ∧ locked = { pool with lk := true } := by
  rw [lock] at h
  split at h
  · cases h
  · rename_i hfree
    exact ⟨Bool.eq_false_iff.mpr hfree, (Option.some.inj h).symm⟩

theorem pop_lk_iff {pool next : MysqlConnPool} {conn : Nat} {connects : Bool}
    {result : Option Nat} (h : pool.tmqMysqlConnPoolPop conn connects = some (result, next)) :
    next.lk = pool.lk ↔ pool.idleConns.Nonempty ∨ connects = true := by
  obtain ⟨locked, hlock, h⟩ := Option.bind_eq_some_iff.mp h
  obtain ⟨hfree, rfl⟩ := lock_eq_some hlock
  rw [hfree, ← Finset.card_pos]
  split at h
  · cases h
  split at h
  · rename_i hidle
    obtain ⟨-, rfl⟩ := Prod.mk.inj (Option.some.inj h)
    exact iff_of_true rfl (.inl hidle)
  rename_i hidle
  split at h
  · rename_i hconnects
    obtain ⟨-, rfl⟩ := Prod.mk.inj (Option.some.inj h)
    exact iff_of_true rfl (.inr hconnects)
  · rename_i hconnects
    obtain ⟨-, rfl⟩ := Prod.mk.inj (Option.some.inj h)
    apply iff_of_false
    · intro hsame
      cases hsame
    · rintro (hsome | hconnected)
      · exact hidle hsome
      · exact hconnects hconnected

theorem push_lk {pool next : MysqlConnPool} {conn : Nat}
    (h : pool.tmqMysqlConnPoolPush conn = some next) : next.lk = pool.lk := by
  rw [push_result h]
  split <;> rfl

end MysqlConnPool

/-! ### Sequences of calls -/

/-- The two objects with locks. -/
structure LockState where
  acl : LockedAcl
  pool : MysqlConnPool

inductive LockCall where
  | auth (session : AclSession) (topicFilter : Bytes) (access : AclAccess)
  | addRule (topicFilter : Bytes) (rule : AclRule)
  | addRuleForAll (topicFilter : Bytes) (rule : AclRule)
  | pop (conn : Nat) (connects : Bool)
  | push (conn : Nat)

namespace LockState

def step (s : LockState) : LockCall → Option LockState
  | .auth session topicFilter access =>
      (s.acl.tmqAclAuth session topicFilter access).map fun result => { s with acl := result.2 }
  | .addRule topicFilter rule =>
      (s.acl.tmqAclAddRule topicFilter rule).map fun acl => { s with acl := acl }
  | .addRuleForAll topicFilter rule =>
      (s.acl.tmqAclAddRuleForAll topicFilter rule).map fun acl => { s with acl := acl }
  | .pop conn connects =>
      (s.pool.tmqMysqlConnPoolPop conn connects).map fun result => { s with pool := result.2 }
  | .push conn => (s.pool.tmqMysqlConnPoolPush conn).map fun pool => { s with pool := pool }

def locks (s : LockState) : RwLock × Bool := (s.acl.lk, s.pool.lk)

/-- An authorisation finds a node, and a pop finds an idle connection or opens
one. -/
def Served (s : LockState) : LockCall → Prop
  | .auth _ topicFilter _ => (aclMatch (tmqTopicSplit topicFilter) s.acl.acl.root false).isSome
  | .pop _ connects => s.pool.idleConns.Nonempty ∨ connects = true
  | _ => True

/-- A call gives its lock back exactly when it is served. -/
theorem step_locks_iff {s next : LockState} {call : LockCall} (h : s.step call = some next) :
    next.locks = s.locks ↔ s.Served call := by
  have hacl : ∀ {a : LockedAcl}, (a.lk = s.acl.lk ↔ ({ s with acl := a } : LockState).locks
      = s.locks) := by
    intro a
    rw [locks, locks, Prod.mk.injEq, and_iff_left rfl]
  have hpool : ∀ {p : MysqlConnPool}, (p.lk = s.pool.lk ↔ ({ s with pool := p } : LockState).locks
      = s.locks) := by
    intro p
    rw [locks, locks, Prod.mk.injEq, and_iff_right rfl]
  cases call with
  | auth session topicFilter access =>
      obtain ⟨⟨perm, a⟩, hauth, rfl⟩ := Option.map_eq_some_iff.mp h
      exact hacl.symm.trans (LockedAcl.auth_lk_iff hauth)
  | addRule topicFilter rule =>
      obtain ⟨a, hadd, rfl⟩ := Option.map_eq_some_iff.mp h
      exact iff_of_true (hacl.mp (LockedAcl.addLocked_lk hadd)) trivial
  | addRuleForAll topicFilter rule =>
      obtain ⟨a, hadd, rfl⟩ := Option.map_eq_some_iff.mp h
      exact iff_of_true (hacl.mp (LockedAcl.addLocked_lk hadd)) trivial
  | pop conn connects =>
      obtain ⟨⟨result, p⟩, hpop, rfl⟩ := Option.map_eq_some_iff.mp h
      exact hpool.symm.trans (MysqlConnPool.pop_lk_iff hpop)
  | push conn =>
      obtain ⟨p, hpush, rfl⟩ := Option.map_eq_some_iff.mp h
      exact iff_of_true (hpool.mp (MysqlConnPool.push_lk hpush)) trivial

/-- Each call gives its lock back exactly when it is served, and a sequence of
calls finds the locks as they were at its start exactly when all are. -/
theorem locks_released_iff (s next : LockState) (call : LockCall) (start final : LockState)
    (calls : List LockCall) :
    (s.step call = some next → (next.locks = s.locks ↔ s.Served call)) ∧
    (Run.runs step start calls = some final →
      ((∀ earlier, earlier <+: calls → ∀ s, Run.runs step start earlier = some s →
          s.locks = start.locks) ↔ Run.Admissible Served step start calls)) := by
  refine ⟨step_locks_iff, ?_⟩
  intro hrun
  have hobserve : ∀ s : LockState, s.locks = start.locks → s.locks = start.locks :=
    fun _ hkept => hkept
  have haccepted : Run.Admissible (fun _ _ => True) step start calls :=
    Run.admissible_of_forall (fun _ _ _ => trivial) start
  refine Run.runs_always_iff_of_admissible hobserve ?_ ?_ haccepted rfl hrun
  · intro s call next hkept _ hserved hstep
    exact ((step_locks_iff hstep).mpr hserved).trans hkept
  · intro s call next hkept _ hstep hnot hsame
    exact hnot ((step_locks_iff hstep).mp (hsame.trans hkept.symm))

def sampleState : LockState := ⟨⟨tmqAclInit .deny, ⟨0, false⟩⟩, .init 1⟩

/-- A rule, an authorisation that meets it, and a connection that is opened, given
back and handed out again. -/
def authorised : List LockCall :=
  [.addRule [97] ⟨.all, .pub, .allow⟩, .auth ⟨[99], [117], 0⟩ [97] .pub, .pop 0 true, .push 0,
    .pop 1 false]

theorem locks_released_iff_authorised :
    ∃ ruled next final : LockState,
      sampleState.step (.addRule [97] ⟨.all, .pub, .allow⟩) = some ruled ∧
      ruled.step (.auth ⟨[99], [117], 0⟩ [97] .pub) = some next ∧
      (next.locks = ruled.locks ↔ ruled.Served (.auth ⟨[99], [117], 0⟩ [97] .pub)) ∧
      Run.runs step sampleState authorised = some final ∧
      ((∀ earlier, earlier <+: authorised → ∀ s, Run.runs step sampleState earlier = some s →
          s.locks = sampleState.locks) ↔ Run.Admissible Served step sampleState authorised) := by
  refine ⟨_, _, _, rfl, rfl, ?_, rfl, ?_⟩
  · exact (locks_released_iff _ _ _ sampleState sampleState []).1 rfl
  · exact (locks_released_iff sampleState sampleState (.push 0) sampleState _ authorised).2 rfl

/-- Without a node for the topic an authorisation keeps the lock, and the next
rule waits for it. -/
theorem not_released_unmatched :
    ∃ s, sampleState.step (.auth ⟨[99], [117], 0⟩ [97] .pub) = some s ∧
      s.locks ≠ sampleState.locks ∧ s.step (.addRule [97] ⟨.all, .pub, .allow⟩) = none := by
  refine ⟨{ sampleState with acl := { sampleState.acl with lk := ⟨1, false⟩ } }, rfl, ?_, rfl⟩
  intro hsame
  cases hsame

end LockState

end TinyMqtt
