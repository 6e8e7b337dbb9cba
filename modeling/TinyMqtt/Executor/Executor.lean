import TinyMqtt.Lib.Run

/-!
The executor of the logic thread (`mqtt/mqtt_executor.c`): tasks of several
priorities, run one after the other by one thread. Posting and the two critical
sections of `thread_routine_` are one step each, since they hold the lock; the
test of the preempt flag and the call of a task hold no lock, and are steps of
their own. What happens is recorded in a log, which no step reads.
-/

namespace TinyMqtt

variable {τ : Type}

structure TaskExecCtx (τ : Type) where
  mainBuf : List τ
  auxBuf : List τ
  breakPoint : Nat

namespace TaskExecCtx

def new : TaskExecCtx τ := ⟨[], [], 0⟩

def hasTasks (ctx : TaskExecCtx τ) : Bool :=
  decide (0 < ctx.mainBuf.length) || decide (0 < ctx.auxBuf.length)

/-- The tasks that wait, in the order in which they are to run: those of a
preempted batch from its break point on, then the ones posted since. -/
def waiting (ctx : TaskExecCtx τ) : List τ :=
  ctx.auxBuf.drop ctx.breakPoint ++ ctx.mainBuf

end TaskExecCtx

/-- Where `thread_routine_` stands. -/
inductive ExecThread (τ : Type) where
  /-- before the lock at the top of its loop, or waiting on the condition -/
  | idle
  /-- at the head of the loop over the batch `tasks`, for the task `t` -/
  | running (pri : Nat) (tasks : List τ) (t : Nat)
  /-- the preempt flag was not set, the task is about to be called -/
  | starting (pri : Nat) (tasks : List τ) (t : Nat) (task : τ)
  /-- the preempt flag was set, the lock is about to be taken -/
  | requeueing (pri : Nat) (tasks : List τ) (t : Nat)
  | returned

inductive ExecEvent (τ : Type) where
  | posted (pri : Nat) (task : τ)
  /-- the preempt check that lets a task start -/
  | checked (pri : Nat) (task : τ)
  | executed (pri : Nat) (task : τ)

/-- `tmq_executor_t` with its thread. Only the contexts up to `maxPri` are
there. -/
structure Executor (τ : Type) where
  exec : Nat → TaskExecCtx τ
  executingPri : Int
  preempt : Bool
  stop : Bool
  maxPri : Int
  taskTotal : Nat
  thread : ExecThread τ
  log : List (ExecEvent τ)

namespace Executor

/-- `tmq_executor_init`, followed by `tmq_executor_run`. -/
def tmqExecutorInit (priNum : Nat) : Executor τ where
  exec := fun _ => .new
  executingPri := -1
  preempt := false
  stop := false
  maxPri := priNum - 1
  taskTotal := 0
  thread := .idle
  log := []

/-- `tmq_executor_post`. There is no context for other priorities. -/
def tmqExecutorPost (executor : Executor τ) (task : τ) (pri : Nat) : Option (Executor τ) :=
  if (pri : Int) ≤ executor.maxPri then
    let ctx := executor.exec pri
    some { executor with
      exec := Function.update executor.exec pri { ctx with mainBuf := ctx.mainBuf ++ [task] }
      taskTotal := executor.taskTotal + 1
      preempt := if executor.executingPri < pri then true else executor.preempt
      log := executor.log ++ [.posted pri task] }
  else none

/-- `tmq_executor_stop`, up to the wait for the thread. -/
def tmqExecutorStop (executor : Executor τ) : Executor τ :=
  { executor with stop := true }

/-- The loop of `thread_routine_` over the priorities below `i`: the highest
one with tasks. -/
def findPri (exec : Nat → TaskExecCtx τ) : Nat → Option Nat
  | 0 => none
  | i + 1 => if (exec i).hasTasks then some i else findPri exec i

/-- What `thread_routine_` does under its first lock. Without any task the
loop over the priorities ends below 0 with `ctx` at the lowest one. -/
def pick (executor : Executor τ) : Executor τ :=
  let found := findPri executor.exec (executor.maxPri + 1).toNat
  let pri := found.getD 0
  let ctx := executor.exec pri
  let fromAux := decide (0 < ctx.auxBuf.length)
  let tasks := if fromAux then ctx.auxBuf else ctx.mainBuf
  let start := if fromAux then ctx.breakPoint else 0
  { executor with
    exec := Function.update executor.exec pri
      (if fromAux then { ctx with auxBuf := [] } else { ctx with mainBuf := [] })
    executingPri := match found with
      | none => -1
      | some i => i
    preempt := false
    taskTotal := executor.taskTotal - (tasks.length - start)
    thread := .running pri tasks start }

/-- What `thread_routine_` does under its second lock. -/
def requeue (executor : Executor τ) (pri : Nat) (tasks : List τ) (t : Nat) : Executor τ :=
  { executor with
    exec := Function.update executor.exec pri
      { executor.exec pri with auxBuf := tasks, breakPoint := t }
    taskTotal := executor.taskTotal + (tasks.length - t)
    thread := .idle }

/-- One step of `thread_routine_`. A thread that waits makes none. -/
def threadRoutine (executor : Executor τ) : Option (Executor τ) :=
  match executor.thread with
  | .idle =>
      if executor.taskTotal = 0 then none
      else if executor.stop ∧ executor.taskTotal = 0 then
        some { executor with thread := .returned }
      else some executor.pick
  | .running pri tasks t =>
      match tasks[t]? with
      | none => some { executor with thread := .idle }
      | some task =>
          if executor.preempt then some { executor with thread := .requeueing pri tasks t }
          else
            some { executor with
              thread := .starting pri tasks t task
              log := executor.log ++ [.checked pri task] }
  | .starting pri tasks t task =>
      some { executor with
        thread := .running pri tasks (t + 1)
        log := executor.log ++ [.executed pri task] }
  | .requeueing pri tasks t => some (executor.requeue pri tasks t)
  | .returned => none

/-- A step of the threads that post, of the one that stops the executor, or of
its own thread. -/
inductive Label (τ : Type) where
  | post (task : τ) (pri : Nat)
  | stop
  | thread

def step (executor : Executor τ) : Label τ → Option (Executor τ)
  | .post task pri => executor.tmqExecutorPost task pri
  | .stop => some executor.tmqExecutorStop
  | .thread => executor.threadRoutine

end Executor

/-- The tasks posted at a priority, in posting order. -/
def postedAt (pri : Nat) (log : List (ExecEvent τ)) : List τ :=
  log.filterMap fun
    | .posted p task => if p = pri then some task else none
    | _ => none

/-- The tasks executed at a priority, in the order of their calls. -/
def executedAt (pri : Nat) (log : List (ExecEvent τ)) : List τ :=
  log.filterMap fun
    | .executed p task => if p = pri then some task else none
    | _ => none

/-- The preempt checks that let a task start, with its priority. -/
def checksOf (log : List (ExecEvent τ)) : List (Nat × τ) :=
  log.filterMap fun
    | .checked pri task => some (pri, task)
    | _ => none

/-- The tasks executed, with their priorities. -/
def startsOf (log : List (ExecEvent τ)) : List (Nat × τ) :=
  log.filterMap fun
    | .executed pri task => some (pri, task)
    | _ => none

end TinyMqtt
