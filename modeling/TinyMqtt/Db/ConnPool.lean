import Mathlib.Data.Finset.Card
import Mathlib.Data.List.Basic
import TinyMqtt.Lib.Run

/-!
The pool of MySQL connections (`db/mqtt_conn_pool.c`). A call holds the lock of
the pool from its first line, so calls of several threads take effect one after
the other; a call that cannot go on has no result.
-/

namespace TinyMqtt

/-- `tmq_mysql_conn_pool_t`: the sets of addresses `using_conns` and `idle_conns`,
and whether the lock is taken. The arguments of `mysql_real_connect` are left
out. -/
structure MysqlConnPool where
  poolSize : Nat
  usingConns : Finset Nat
  idleConns : Finset Nat
  lk : Bool
  deriving DecidableEq

namespace MysqlConnPool

/-- `tmq_mysql_conn_pool_init`. -/
def init (poolSize : Nat) : MysqlConnPool := ⟨poolSize, ∅, ∅, false⟩

/-- `pthread_mutex_lock` waits while the lock is taken. -/
def lock (pool : MysqlConnPool) : Option MysqlConnPool :=
  if pool.lk then none else some { pool with lk := true }

def unlock (pool : MysqlConnPool) : MysqlConnPool := { pool with lk := false }

/-- `tmq_mysql_conn_pool_pop`. `conn` is the address at the front of the idle
set or, when that is empty, the one that `malloc` returns; `connects` is how
`mysql_real_connect` ends. The call waits while all connections are in use. -/
def tmqMysqlConnPoolPop (pool : MysqlConnPool) (conn : Nat) (connects : Bool) :
    Option (Option Nat × MysqlConnPool) := do
  let pool ← pool.lock
  if pool.usingConns.card = pool.poolSize then none
  else if 0 < pool.idleConns.card then
    some (some conn, { pool with usingConns := insert conn pool.usingConns }.unlock)
  else if connects then
    some (some conn, { pool with usingConns := insert conn pool.usingConns }.unlock)
  else some (none, pool)

def tmqMysqlConnPoolPush (pool : MysqlConnPool) (conn : Nat) : Option MysqlConnPool := do
  let pool ← pool.lock
  if conn ∉ pool.usingConns then some pool.unlock
  else
    some { pool with
      usingConns := pool.usingConns.erase conn
      idleConns := insert conn pool.idleConns }.unlock

/-- `conn` is an idle connection, or a new address when there is none. -/
def Picks (pool : MysqlConnPool) (conn : Nat) : Prop :=
  if pool.idleConns = ∅ then conn ∉ pool.usingConns else conn ∈ pool.idleConns

instance (pool : MysqlConnPool) (conn : Nat) : Decidable (pool.Picks conn) :=
  inferInstanceAs (Decidable (ite _ _ _))

theorem pop_connected {pool next : MysqlConnPool} {conn : Nat} {result : Option Nat}
    (h : pool.tmqMysqlConnPoolPop conn true = some (result, next)) :
    pool.usingConns.card ≠ pool.poolSize ∧ result = some conn ∧
      next = { pool with usingConns := insert conn pool.usingConns } := by
  obtain ⟨poolSize, usingConns, idleConns, lk⟩ := pool
  cases lk with
  | true => cases h
  | false =>
      rw [tmqMysqlConnPoolPop, lock] at h
      simp only [Bool.false_eq_true, if_false, if_true, Option.bind_eq_bind, Option.bind_some,
        ite_self] at h
      split at h
      · cases h
      · rename_i hfull
        obtain ⟨rfl, rfl⟩ := Prod.mk.inj (Option.some.inj h)
        exact ⟨hfull, rfl, rfl⟩

theorem push_result {pool next : MysqlConnPool} {conn : Nat}
    (h : pool.tmqMysqlConnPoolPush conn = some next) :
    next = if conn ∈ pool.usingConns then
        { pool with
          usingConns := pool.usingConns.erase conn
          idleConns := insert conn pool.idleConns }
      else pool := by
  obtain ⟨poolSize, usingConns, idleConns, lk⟩ := pool
  cases lk with
  | true => cases h
  | false =>
      rw [tmqMysqlConnPoolPush, lock] at h
      simp only [Bool.false_eq_true, if_false, Option.bind_eq_bind, Option.bind_some] at h
      split at h
      · rename_i hunused
        obtain rfl := Option.some.inj h
        exact (if_neg hunused).symm
      · rename_i hused
        obtain rfl := Option.some.inj h
        exact (if_pos (not_not.mp hused)).symm

end MysqlConnPool

/-! ### Callers -/

/-- The pool, and the connections that callers have popped and not pushed, one
for each caller. -/
structure PoolUse where
  pool : MysqlConnPool
  held : List Nat
  deriving DecidableEq

/-- A call that some thread makes, with the connection it gets or gives back. -/
inductive PoolCall where
  | pop (conn : Nat)
  | push (conn : Nat)
  deriving DecidableEq, Repr

namespace PoolUse

def start (poolSize : Nat) : PoolUse := ⟨.init poolSize, []⟩

/-- Connections open successfully, and a caller pushes what it has popped. -/
def step (s : PoolUse) : PoolCall → Option PoolUse
  | .pop conn => do
      let (result, pool) ← s.pool.tmqMysqlConnPoolPop conn true
      let conn ← result
      some ⟨pool, conn :: s.held⟩
  | .push conn =>
      if conn ∈ s.held then (s.pool.tmqMysqlConnPoolPush conn).map fun pool =>
        ⟨pool, s.held.erase conn⟩
      else none

/-- The address that a pop gets is one it can get. -/
def Offered (s : PoolUse) : PoolCall → Prop
  | .pop conn => s.pool.Picks conn
  | .push _ => True

instance (s : PoolUse) : (call : PoolCall) → Decidable (s.Offered call)
  | .pop conn => inferInstanceAs (Decidable (s.pool.Picks conn))
  | .push _ => inferInstanceAs (Decidable True)

/-- No two callers have one connection, no connection is both in use and idle,
and there are at most as many as the pool may have. -/
structure Exclusive (s : PoolUse) : Prop where
  held : s.held.Nodup
  disjoint : Disjoint s.pool.usingConns s.pool.idleConns
  bounded : s.pool.usingConns.card + s.pool.idleConns.card ≤ s.pool.poolSize

/-- No connection is idle when one is popped. -/
def PopsNew (s : PoolUse) : PoolCall → Prop
  | .pop _ => s.pool.idleConns = ∅
  | .push _ => True

/-- While only new connections are popped, those in use are those held. -/
structure Tidy (s : PoolUse) : Prop extends Exclusive s where
  using_eq : s.pool.usingConns = s.held.toFinset

theorem tidy_start (poolSize : Nat) : (start poolSize).Tidy where
  held := List.nodup_nil
  disjoint := Finset.disjoint_empty_left _
  bounded := Nat.zero_le _
  using_eq := rfl

theorem Tidy.pop {s : PoolUse} (h : s.Tidy) {conn : Nat} (hnew : s.pool.idleConns = ∅)
    (hpicks : s.pool.Picks conn) (hfull : s.pool.usingConns.card ≠ s.pool.poolSize) :
    Tidy ⟨{ s.pool with usingConns := insert conn s.pool.usingConns }, conn :: s.held⟩ := by
  have hunused : conn ∉ s.pool.usingConns := by
    rwa [MysqlConnPool.Picks, if_pos hnew] at hpicks
  have hbounded := h.bounded
  constructor
  · constructor
    · apply List.nodup_cons.mpr
      refine ⟨?_, h.held⟩
      intro hheld
      apply hunused
      rw [h.using_eq]
      exact List.mem_toFinset.mpr hheld
    · rw [hnew]
      exact Finset.disjoint_empty_right _
    · change (insert conn s.pool.usingConns).card + s.pool.idleConns.card ≤ s.pool.poolSize
      rw [Finset.card_insert_of_notMem hunused]
      rw [hnew, Finset.card_empty] at hbounded ⊢
      omega
  · rw [List.toFinset_cons, h.using_eq]

theorem Tidy.push {s : PoolUse} (h : s.Tidy) {conn : Nat} (hheld : conn ∈ s.held) :
    Tidy ⟨{ s.pool with
      usingConns := s.pool.usingConns.erase conn
      idleConns := insert conn s.pool.idleConns }, s.held.erase conn⟩ := by
  have hused : conn ∈ s.pool.usingConns := by
    rw [h.using_eq]
    exact List.mem_toFinset.mpr hheld
  have hidle : conn ∉ s.pool.idleConns := Finset.disjoint_left.mp h.disjoint hused
  have hpositive := Finset.card_pos.mpr ⟨conn, hused⟩
  constructor
  · constructor
    · exact h.held.erase conn
    · apply Finset.disjoint_insert_right.mpr
      exact ⟨Finset.notMem_erase conn _, h.disjoint.mono_left (Finset.erase_subset _ _)⟩
    · change (s.pool.usingConns.erase conn).card + (insert conn s.pool.idleConns).card
        ≤ s.pool.poolSize
      rw [Finset.card_erase_of_mem hused, Finset.card_insert_of_notMem hidle]
      have hbounded := h.bounded
      omega
  · ext other
    rw [Finset.mem_erase, h.using_eq, List.mem_toFinset, List.mem_toFinset, h.held.mem_erase_iff]

/-- The pool is exclusive in every state of a run exactly when no connection is
idle whenever one is popped. -/
theorem exclusive_iff_of_runs {poolSize : Nat} {calls : List PoolCall} {final : PoolUse}
    (hcalls : Run.Admissible Offered step (start poolSize) calls)
    (hrun : Run.runs step (start poolSize) calls = some final) :
    (∀ earlier, earlier <+: calls → ∀ s, Run.runs step (start poolSize) earlier = some s →
        s.Exclusive) ↔
      Run.Admissible PopsNew step (start poolSize) calls := by
  refine Run.runs_always_iff_of_admissible (fun _ => Tidy.toExclusive) ?_ ?_ hcalls
    (tidy_start poolSize) hrun
  · intro s call next htidy hoffered hnew hstep
    cases call with
    | pop conn =>
        obtain ⟨⟨result, pool⟩, hpop, hstep⟩ := Option.bind_eq_some_iff.mp hstep
        obtain ⟨hfull, rfl, rfl⟩ := MysqlConnPool.pop_connected hpop
        obtain rfl := Option.some.inj hstep
        exact htidy.pop hnew hoffered hfull
    | push conn =>
        rw [step] at hstep
        split at hstep
        · rename_i hheld
          obtain ⟨pool, hpush, rfl⟩ := Option.map_eq_some_iff.mp hstep
          have hused : conn ∈ s.pool.usingConns := by
            rw [htidy.using_eq]
            exact List.mem_toFinset.mpr hheld
          rw [MysqlConnPool.push_result hpush, if_pos hused]
          exact htidy.push hheld
        · cases hstep
  · intro s call next htidy hoffered hstep hnot hexclusive
    cases call with
    | pop conn =>
        obtain ⟨⟨result, pool⟩, hpop, hstep⟩ := Option.bind_eq_some_iff.mp hstep
        obtain ⟨hfull, rfl, rfl⟩ := MysqlConnPool.pop_connected hpop
        obtain rfl := Option.some.inj hstep
        have hidle : conn ∈ s.pool.idleConns := by
          have hpicks : s.pool.Picks conn := hoffered
          have hsome : ¬s.pool.idleConns = ∅ := hnot
          rwa [MysqlConnPool.Picks, if_neg hsome] at hpicks
        exact Finset.disjoint_left.mp hexclusive.disjoint (Finset.mem_insert_self _ _) hidle
    | push conn => exact hnot trivial

theorem exclusive_iff_of_runs_two :
    (∀ earlier, earlier <+: [.pop 1, .pop 2, .push 1] → ∀ s,
        Run.runs step (start 2) earlier = some s → s.Exclusive) ↔
      Run.Admissible PopsNew step (start 2) [.pop 1, .pop 2, .push 1] := by
  have hrun : Run.runs step (start 2) [.pop 1, .pop 2, .push 1]
      = some ⟨⟨2, {2}, {1}, false⟩, [2]⟩ := rfl
  exact exclusive_iff_of_runs (by decide) hrun

/-- A connection that was pushed back is popped twice. -/
theorem not_exclusive_popped_twice :
    ∃ s, Run.runs step (start 2) [.pop 1, .push 1, .pop 1, .pop 1] = some s ∧ ¬s.held.Nodup := by
  exact ⟨⟨⟨2, {1}, {1}, false⟩, [1, 1]⟩, rfl, by decide⟩

end PoolUse

end TinyMqtt
