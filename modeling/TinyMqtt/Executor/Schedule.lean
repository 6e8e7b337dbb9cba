import Mathlib.Algebra.BigOperators.Group.Finset.Basic
import TinyMqtt.Executor.Executor

/-!
What the executor does with the tasks posted to it, over every interleaving of
posts with the steps of its thread. The tasks of a priority are at any time
executed, in the batch at hand, parked behind the break point or in the main
buffer, in that order, which is the order in which they were posted.
-/

namespace TinyMqtt

variable {τ : Type}

/-- The priority, the batch and the index of the loop of `thread_routine_`. -/
def ExecThread.batch : ExecThread τ → Option (Nat × List τ × Nat)
  | .running pri tasks t | .starting pri tasks t _ | .requeueing pri tasks t =>
      some (pri, tasks, t)
  | .idle | .returned => none

/-- The tasks of the batch at hand that were not called yet. -/
def ExecThread.inHand (thread : ExecThread τ) (pri : Nat) : List τ :=
  match thread.batch with
  | none => []
  | some (p, tasks, t) => if p = pri then tasks.drop t else []

def ExecThread.passedCheck : ExecThread τ → List (Nat × τ)
  | .starting pri _ _ task => [(pri, task)]
  | _ => []

namespace Executor

variable {executor next : Executor τ} {priNum : Nat}

/-- What holds of the batch at hand. -/
structure InHand (executor : Executor τ) (priNum pri : Nat) (tasks : List τ) (t : Nat) :
    Prop where
  inRange : pri < priNum
  executing : executor.executingPri = pri
  unparked : (executor.exec pri).auxBuf = []
  highest : executor.preempt = false → ∀ q, pri < q → (executor.exec q).waiting = []
  current : ∀ task, executor.thread = .starting pri tasks t task → tasks[t]? = some task
  left : executor.thread = .requeueing pri tasks t → t < tasks.length

structure Aligned (priNum : Nat) (executor : Executor τ) : Prop where
  maxPri : executor.maxPri = priNum - 1
  absent : ∀ pri, priNum ≤ pri → (executor.exec pri).waiting = []
  kept : ∀ pri, postedAt pri executor.log = executedAt pri executor.log ++
    (executor.thread.inHand pri ++ (executor.exec pri).waiting)
  parked : ∀ pri, (executor.exec pri).auxBuf ≠ [] →
    (executor.exec pri).breakPoint < (executor.exec pri).auxBuf.length
  total : executor.taskTotal = ∑ pri ∈ Finset.range priNum, (executor.exec pri).waiting.length
  inHand : ∀ pri tasks t, executor.thread.batch = some (pri, tasks, t) →
    executor.InHand priNum pri tasks t
  passed : checksOf executor.log = startsOf executor.log ++ executor.thread.passedCheck
  preempts : ∀ i pri task, executor.log[i]? = some (.checked pri task) → ∀ q, pri < q →
    executedAt q (executor.log.take i) = postedAt q (executor.log.take i)

/-! ### The buffers -/

theorem hasTasks_iff {ctx : TaskExecCtx τ}
    (hparked : ctx.auxBuf ≠ [] → ctx.breakPoint < ctx.auxBuf.length) :
    ctx.hasTasks = true ↔ ctx.waiting ≠ [] := by
  unfold TaskExecCtx.hasTasks TaskExecCtx.waiting
  simp only [Bool.or_eq_true, decide_eq_true_eq, List.length_pos_iff, ne_eq,
    List.append_eq_nil_iff, List.drop_eq_nil_iff]
  constructor
  · rintro (hmain | haux) ⟨hdrop, hnil⟩
    · exact hmain hnil
    · have hlt := hparked haux
      omega
  · intro hwaiting
    by_cases hmain : ctx.mainBuf = []
    · right
      intro haux
      exact hwaiting ⟨by simp [haux], hmain⟩
    · exact .inl hmain

/-- The loop over the priorities stops at the highest one with tasks. -/
theorem findPri_eq_some {exec : Nat → TaskExecCtx τ} {n i : Nat}
    (hfind : findPri exec n = some i) :
    i < n ∧ (exec i).hasTasks = true ∧ ∀ q, i < q → q < n → (exec q).hasTasks = false := by
  induction n with
  | zero => cases hfind
  | succ n ih =>
      rw [findPri] at hfind
      split at hfind
      · rename_i htasks
        obtain rfl := Option.some.inj hfind
        exact ⟨Nat.lt_succ_self _, htasks, fun q hlt hle => by omega⟩
      · rename_i htasks
        obtain ⟨hlt, hi, habove⟩ := ih hfind
        refine ⟨Nat.lt_succ_of_lt hlt, hi, ?_⟩
        intro q hq hle
        rcases Nat.lt_succ_iff_lt_or_eq.mp hle with hbelow | rfl
        · exact habove q hq hbelow
        · simpa using htasks

theorem findPri_eq_none {exec : Nat → TaskExecCtx τ} {n : Nat} (hfind : findPri exec n = none)
    {i : Nat} (hi : i < n) : (exec i).hasTasks = false := by
  induction n with
  | zero => cases hi
  | succ n ih =>
      rw [findPri] at hfind
      split at hfind
      · cases hfind
      · rename_i htasks
        rcases Nat.lt_succ_iff_lt_or_eq.mp hi with hbelow | rfl
        · exact ih hfind hbelow
        · simpa using htasks

/-- The number of waiting tasks when one context changes. -/
theorem total_update {exec : Nat → TaskExecCtx τ} {total total' : Nat}
    (htotal : total = ∑ i ∈ Finset.range priNum, (exec i).waiting.length) {pri : Nat}
    (hpri : pri < priNum) {ctx : TaskExecCtx τ}
    (hchange : total' + (exec pri).waiting.length = total + ctx.waiting.length) :
    total' = ∑ i ∈ Finset.range priNum, (Function.update exec pri ctx i).waiting.length := by
  have hmem : pri ∈ Finset.range priNum := Finset.mem_range.mpr hpri
  have hrest : ∑ i ∈ (Finset.range priNum).erase pri, (Function.update exec pri ctx i).waiting.length
      = ∑ i ∈ (Finset.range priNum).erase pri, (exec i).waiting.length := by
    apply Finset.sum_congr rfl
    intro i hi
    rw [Function.update_of_ne (Finset.ne_of_mem_erase hi)]
  rw [← Finset.add_sum_erase _ _ hmem] at htotal ⊢
  rw [Function.update_self, hrest]
  omega

/-! ### The log -/

@[simp] theorem postedAt_append (pri : Nat) (first second : List (ExecEvent τ)) :
    postedAt pri (first ++ second) = postedAt pri first ++ postedAt pri second :=
  List.filterMap_append

@[simp] theorem executedAt_append (pri : Nat) (first second : List (ExecEvent τ)) :
    executedAt pri (first ++ second) = executedAt pri first ++ executedAt pri second :=
  List.filterMap_append

@[simp] theorem checksOf_append (first second : List (ExecEvent τ)) :
    checksOf (first ++ second) = checksOf first ++ checksOf second :=
  List.filterMap_append

@[simp] theorem startsOf_append (first second : List (ExecEvent τ)) :
    startsOf (first ++ second) = startsOf first ++ startsOf second :=
  List.filterMap_append

/-- A passed check at the end of a longer log is an old one or the new event. -/
theorem preempts_append {log : List (ExecEvent τ)} {event : ExecEvent τ}
    (hlog : ∀ i pri task, log[i]? = some (.checked pri task) → ∀ q, pri < q →
      executedAt q (log.take i) = postedAt q (log.take i))
    (hevent : ∀ pri task, event = .checked pri task → ∀ q, pri < q →
      executedAt q log = postedAt q log) :
    ∀ i pri task, (log ++ [event])[i]? = some (.checked pri task) → ∀ q, pri < q →
      executedAt q ((log ++ [event]).take i) = postedAt q ((log ++ [event]).take i) := by
  intro i pri task hget q hq
  rcases Nat.lt_or_ge i log.length with hlt | hge
  · rw [List.getElem?_append_left hlt] at hget
    rw [List.take_append_of_le_length hlt.le]
    exact hlog i pri task hget q hq
  · rw [List.getElem?_append_right hge] at hget
    have hi : i = log.length := by
      by_contra hne
      rw [List.getElem?_eq_none (by simp; omega)] at hget
      cases hget
    subst hi
    rw [Nat.sub_self] at hget
    rw [List.take_left]
    exact hevent pri task (by simpa using hget) q hq

/-! ### The steps -/

theorem aligned_init (priNum : Nat) : Aligned priNum (tmqExecutorInit priNum : Executor τ) := by
  have hempty : ∀ pri, ((tmqExecutorInit priNum : Executor τ).exec pri).waiting = [] :=
    fun _ => rfl
  refine ⟨rfl, fun pri _ => hempty pri, fun _ => rfl, fun _ haux => (haux rfl).elim, ?_, ?_, rfl, ?_⟩
  · simp only [hempty, List.length_nil, Finset.sum_const_zero]
    rfl
  · intro pri tasks t hbatch
    cases hbatch
  · intro i pri task hget
    cases hget

theorem InHand.post {pri : Nat} {tasks : List τ} {t : Nat}
    (h : executor.InHand priNum pri tasks t) {task : τ} {p : Nat}
    (hpost : executor.tmqExecutorPost task p = some next) : next.InHand priNum pri tasks t := by
  unfold tmqExecutorPost at hpost
  split at hpost
  · obtain rfl := Option.some.inj hpost
    refine ⟨h.inRange, h.executing, ?_, ?_, h.current, h.left⟩
    · by_cases hp : pri = p
      · subst hp
        simpa using h.unparked
      · simpa [hp] using h.unparked
    · intro hpreempt q hq
      dsimp only at hpreempt ⊢
      split at hpreempt
      · cases hpreempt
      · rename_i hlower
        rw [h.executing] at hlower
        have hne : q ≠ p := by omega
        rw [Function.update_of_ne hne]
        exact h.highest hpreempt q hq
  · cases hpost

theorem aligned_post (h : Aligned priNum executor) {task : τ} {pri : Nat}
    (hpost : executor.tmqExecutorPost task pri = some next) : Aligned priNum next := by
  have hhand : ∀ p tasks t, executor.thread.batch = some (p, tasks, t) →
      next.InHand priNum p tasks t := fun p tasks t hbatch => (h.inHand p tasks t hbatch).post hpost
  unfold tmqExecutorPost at hpost
  split at hpost
  · rename_i hle
    have hpri : pri < priNum := by
      rw [h.maxPri] at hle
      omega
    obtain rfl := Option.some.inj hpost
    have hwaiting : ({ executor.exec pri with
        mainBuf := (executor.exec pri).mainBuf ++ [task] } : TaskExecCtx τ).waiting
          = (executor.exec pri).waiting ++ [task] := by
      simp [TaskExecCtx.waiting]
    refine ⟨h.maxPri, ?_, ?_, ?_, ?_, hhand, ?_, ?_⟩
    · intro p hp
      dsimp only
      rw [Function.update_of_ne (by omega)]
      exact h.absent p hp
    · intro p
      dsimp only
      have hkept := h.kept p
      by_cases hp : p = pri
      · subst hp
        rw [Function.update_self, hwaiting]
        simp [postedAt, executedAt] at hkept ⊢
        simp [hkept]
      · rw [Function.update_of_ne hp]
        simpa [postedAt, executedAt, Ne.symm hp] using hkept
    · intro p haux
      dsimp only at haux ⊢
      by_cases hp : p = pri
      · subst hp
        rw [Function.update_self] at haux ⊢
        exact h.parked p haux
      · rw [Function.update_of_ne hp] at haux ⊢
        exact h.parked p haux
    · refine total_update h.total hpri ?_
      rw [hwaiting, List.length_append, List.length_singleton]
      dsimp only
      omega
    · simpa [checksOf, startsOf] using h.passed
    · exact preempts_append h.preempts (by nofun)
  · cases hpost

theorem aligned_stop (h : Aligned priNum executor) : Aligned priNum executor.tmqExecutorStop :=
  ⟨h.maxPri, h.absent, h.kept, h.parked, h.total,
    fun pri tasks t hbatch =>
      let hhand := h.inHand pri tasks t hbatch
      ⟨hhand.inRange, hhand.executing, hhand.unparked, hhand.highest, hhand.current, hhand.left⟩,
    h.passed, h.preempts⟩

/-- The context whose tasks are taken, and what is left of it. -/
theorem aligned_pick (h : Aligned priNum executor) (hidle : executor.thread = .idle)
    (htasks : executor.taskTotal ≠ 0) : Aligned priNum executor.pick := by
  have hpriorities : (executor.maxPri + 1).toNat = priNum := by
    rw [h.maxPri]
    omega
  obtain ⟨pri, hfind⟩ : ∃ pri, findPri executor.exec priNum = some pri := by
    rw [← Option.ne_none_iff_exists']
    intro hnone
    apply htasks
    rw [h.total]
    apply Finset.sum_eq_zero
    intro i hi
    have hempty := findPri_eq_none hnone (Finset.mem_range.mp hi)
    rw [← Bool.not_eq_true, hasTasks_iff (h.parked i), not_not] at hempty
    rw [hempty]
    rfl
  obtain ⟨hpri, hhas, habove⟩ := findPri_eq_some hfind
  -- the batch from its start on, then what stays in the context
  obtain ⟨tasks, start, rest, hpick, hwaiting, haux, hbreak⟩ : ∃ tasks start rest,
      executor.pick = { executor with
        exec := Function.update executor.exec pri rest
        executingPri := pri
        preempt := false
        taskTotal := executor.taskTotal - (tasks.length - start)
        thread := .running pri tasks start } ∧
      (executor.exec pri).waiting = tasks.drop start ++ rest.waiting ∧ rest.auxBuf = [] ∧
      start ≤ tasks.length := by
    by_cases hparked : 0 < (executor.exec pri).auxBuf.length
    · refine ⟨(executor.exec pri).auxBuf, (executor.exec pri).breakPoint,
        { executor.exec pri with auxBuf := [] }, ?_, ?_, rfl, ?_⟩
      · simp [pick, hpriorities, hfind, hparked]
      · simp [TaskExecCtx.waiting]
      · exact (h.parked pri (List.length_pos_iff.mp hparked)).le
    · have hnone : (executor.exec pri).auxBuf = [] := by simpa using hparked
      refine ⟨(executor.exec pri).mainBuf, 0, { executor.exec pri with mainBuf := [] }, ?_, ?_,
        hnone, Nat.zero_le _⟩
      · simp [pick, hpriorities, hfind, hnone]
      · simp [TaskExecCtx.waiting, hnone]
  have hlength : (executor.exec pri).waiting.length = tasks.length - start + rest.waiting.length := by
    rw [hwaiting, List.length_append, List.length_drop]
  rw [hpick]
  refine ⟨h.maxPri, ?_, ?_, ?_, ?_, ?_, ?_, h.preempts⟩
  · intro p hp
    dsimp only
    rw [Function.update_of_ne (by omega)]
    exact h.absent p hp
  · intro p
    have hkept := h.kept p
    rw [hidle] at hkept
    by_cases hp : p = pri
    · subst hp
      simpa [ExecThread.inHand, ExecThread.batch, hwaiting] using hkept
    · simpa [ExecThread.inHand, ExecThread.batch, hp, Ne.symm hp] using hkept
  · intro p hparked
    dsimp only at hparked ⊢
    by_cases hp : p = pri
    · subst hp
      rw [Function.update_self] at hparked
      exact (hparked haux).elim
    · rw [Function.update_of_ne hp] at hparked ⊢
      exact h.parked p hparked
  · refine total_update h.total hpri ?_
    have hle : (executor.exec pri).waiting.length ≤ executor.taskTotal := by
      rw [h.total]
      exact Finset.single_le_sum (fun i _ => Nat.zero_le (executor.exec i).waiting.length)
        (Finset.mem_range.mpr hpri)
    dsimp only
    omega
  · intro p batch t hbatch
    obtain ⟨rfl, rfl, rfl⟩ : pri = p ∧ tasks = batch ∧ start = t := by
      simpa [ExecThread.batch] using hbatch
    refine ⟨hpri, rfl, ?_, ?_, by nofun, by nofun⟩
    · dsimp only
      rw [Function.update_self]
      exact haux
    · intro _ q hq
      dsimp only
      rw [Function.update_of_ne (by omega)]
      rcases Nat.lt_or_ge q priNum with hlt | hge
      · have hnone := habove q hq hlt
        rw [← Bool.not_eq_true, hasTasks_iff (h.parked q), not_not] at hnone
        exact hnone
      · exact h.absent q hge
  · have hpassed := h.passed
    rw [hidle] at hpassed
    exact hpassed

theorem aligned_requeue (h : Aligned priNum executor) {pri : Nat} {tasks : List τ} {t : Nat}
    (hthread : executor.thread = .requeueing pri tasks t) :
    Aligned priNum (executor.requeue pri tasks t) := by
  have hhand := h.inHand pri tasks t (by rw [hthread]; rfl)
  have hbefore : (executor.exec pri).waiting = (executor.exec pri).mainBuf := by
    simp [TaskExecCtx.waiting, hhand.unparked]
  have hafter : ({ executor.exec pri with auxBuf := tasks, breakPoint := t } :
      TaskExecCtx τ).waiting = tasks.drop t ++ (executor.exec pri).mainBuf := rfl
  refine ⟨h.maxPri, ?_, ?_, ?_, ?_, by nofun, ?_, h.preempts⟩
  · intro p hp
    have hinRange := hhand.inRange
    dsimp only [requeue]
    rw [Function.update_of_ne (by omega)]
    exact h.absent p hp
  · intro p
    have hkept := h.kept p
    rw [hthread] at hkept
    by_cases hp : p = pri
    · subst hp
      simpa [requeue, ExecThread.inHand, ExecThread.batch, hbefore, hafter] using hkept
    · simpa [requeue, ExecThread.inHand, ExecThread.batch, hp, Ne.symm hp] using hkept
  · intro p hparked
    dsimp only [requeue] at hparked ⊢
    by_cases hp : p = pri
    · subst hp
      rw [Function.update_self]
      exact hhand.left hthread
    · rw [Function.update_of_ne hp] at hparked ⊢
      exact h.parked p hparked
  · refine total_update h.total hhand.inRange ?_
    rw [hbefore, hafter, List.length_append, List.length_drop]
    change executor.taskTotal + (tasks.length - t) + _ = _
    omega
  · have hpassed := h.passed
    rw [hthread] at hpassed
    exact hpassed

/-- A step of the thread that neither touches the buffers nor leaves the
batch at hand. -/
theorem aligned_move (h : Aligned priNum executor) {thread : ExecThread τ}
    {log : List (ExecEvent τ)}
    (hkept : ∀ pri, postedAt pri log = executedAt pri log ++
      (thread.inHand pri ++ (executor.exec pri).waiting))
    (hbatch : ∀ pri tasks t, thread.batch = some (pri, tasks, t) →
      (∃ t', executor.thread.batch = some (pri, tasks, t')) ∧
      (∀ task, thread = .starting pri tasks t task → tasks[t]? = some task) ∧
      (thread = .requeueing pri tasks t → t < tasks.length))
    (hpassed : checksOf log = startsOf log ++ thread.passedCheck)
    (hpreempts : ∀ i pri task, log[i]? = some (.checked pri task) → ∀ q, pri < q →
      executedAt q (log.take i) = postedAt q (log.take i)) :
    Aligned priNum { executor with thread := thread, log := log } := by
  refine ⟨h.maxPri, h.absent, hkept, h.parked, h.total, ?_, hpassed, hpreempts⟩
  intro pri tasks t hthread
  obtain ⟨⟨t', hbefore⟩, hcurrent, hleft⟩ := hbatch pri tasks t hthread
  have hhand := h.inHand pri tasks t' hbefore
  exact ⟨hhand.inRange, hhand.executing, hhand.unparked, hhand.highest, hcurrent, hleft⟩

/-- The preempt check lets a task start only when nothing of a higher
priority is left. -/
theorem aligned_check (h : Aligned priNum executor) {pri : Nat} {tasks : List τ} {t : Nat}
    {task : τ} (hthread : executor.thread = .running pri tasks t) (htask : tasks[t]? = some task)
    (hpreempt : executor.preempt = false) :
    Aligned priNum { executor with
      thread := .starting pri tasks t task
      log := executor.log ++ [.checked pri task] } := by
  have hhand := h.inHand pri tasks t (by rw [hthread]; rfl)
  apply aligned_move h
  · intro p
    have hkept := h.kept p
    rw [hthread] at hkept
    simpa [postedAt, executedAt, ExecThread.inHand, ExecThread.batch] using hkept
  · intro p batch t' hbatch
    obtain ⟨rfl, rfl, rfl⟩ : pri = p ∧ tasks = batch ∧ t = t' := by
      simpa [ExecThread.batch] using hbatch
    refine ⟨⟨t, by rw [hthread]; rfl⟩, ?_, by nofun⟩
    intro other hother
    cases hother
    exact htask
  · have hpassed := h.passed
    rw [hthread] at hpassed
    simpa [checksOf, startsOf, ExecThread.passedCheck] using hpassed
  · apply preempts_append h.preempts
    intro p other hother q hq
    cases hother
    have hkept := h.kept q
    rw [hthread, hhand.highest hpreempt q hq] at hkept
    simpa [ExecThread.inHand, ExecThread.batch, hq.ne] using hkept.symm

theorem aligned_execute (h : Aligned priNum executor) {pri : Nat} {tasks : List τ} {t : Nat}
    {task : τ} (hthread : executor.thread = .starting pri tasks t task) :
    Aligned priNum { executor with
      thread := .running pri tasks (t + 1)
      log := executor.log ++ [.executed pri task] } := by
  have hhand := h.inHand pri tasks t (by rw [hthread]; rfl)
  have hdrop : tasks.drop t = task :: tasks.drop (t + 1) :=
    List.drop_eq_getElem?_toList_append.trans (by rw [hhand.current task hthread]; rfl)
  apply aligned_move h
  · intro p
    have hkept := h.kept p
    rw [hthread] at hkept
    by_cases hp : pri = p
    · subst hp
      simpa [postedAt, executedAt, ExecThread.inHand, ExecThread.batch, hdrop] using hkept
    · simpa [postedAt, executedAt, ExecThread.inHand, ExecThread.batch, hp] using hkept
  · intro p batch t' hbatch
    obtain ⟨rfl, rfl, rfl⟩ : pri = p ∧ tasks = batch ∧ t + 1 = t' := by
      simpa [ExecThread.batch] using hbatch
    exact ⟨⟨t, by rw [hthread]; rfl⟩, by nofun, by nofun⟩
  · have hpassed := h.passed
    rw [hthread] at hpassed
    simpa [checksOf, startsOf, ExecThread.passedCheck] using hpassed
  · exact preempts_append h.preempts (by nofun)

theorem aligned_threadRoutine (h : Aligned priNum executor)
    (hstep : executor.threadRoutine = some next) : Aligned priNum next := by
  unfold threadRoutine at hstep
  cases hthread : executor.thread with
  | idle =>
      rw [hthread] at hstep
      dsimp only at hstep
      split at hstep
      · cases hstep
      · rename_i htasks
        rw [if_neg (by simp [htasks])] at hstep
        obtain rfl := Option.some.inj hstep
        exact aligned_pick h hthread htasks
  | running pri tasks t =>
      rw [hthread] at hstep
      dsimp only at hstep
      split at hstep
      · rename_i hend
        obtain rfl := Option.some.inj hstep
        have hkept := h.kept
        have hpassed := h.passed
        have hlength := List.getElem?_eq_none_iff.mp hend
        rw [hthread] at hpassed
        refine aligned_move h ?_ (by nofun) hpassed h.preempts
        intro p
        have hdrop : tasks.drop t = [] := List.drop_eq_nil_of_le hlength
        simpa [hthread, ExecThread.inHand, ExecThread.batch, hdrop] using hkept p
      · rename_i task htask
        split at hstep
        · obtain rfl := Option.some.inj hstep
          have hkept := h.kept
          have hpassed := h.passed
          rw [hthread] at hkept hpassed
          refine aligned_move h hkept ?_ hpassed h.preempts
          intro p batch t' hbatch
          obtain ⟨rfl, rfl, rfl⟩ : pri = p ∧ tasks = batch ∧ t = t' := by
            simpa [ExecThread.batch] using hbatch
          refine ⟨⟨t, by rw [hthread]; rfl⟩, by nofun, fun _ => ?_⟩
          exact (List.getElem?_eq_some_iff.mp htask).1
        · rename_i hpreempt
          obtain rfl := Option.some.inj hstep
          exact aligned_check h hthread htask (by simpa using hpreempt)
  | starting pri tasks t task =>
      rw [hthread] at hstep
      obtain rfl := Option.some.inj hstep
      exact aligned_execute h hthread
  | requeueing pri tasks t =>
      rw [hthread] at hstep
      obtain rfl := Option.some.inj hstep
      exact aligned_requeue h hthread
  | returned =>
      rw [hthread] at hstep
      cases hstep

theorem aligned_step {label : Label τ} (h : Aligned priNum executor)
    (hstep : executor.step label = some next) : Aligned priNum next := by
  cases label with
  | post task pri => exact aligned_post h hstep
  | stop =>
      obtain rfl := Option.some.inj hstep
      exact aligned_stop h
  | thread => exact aligned_threadRoutine h hstep

/-! ### Whole runs -/

/-- What is asked of an executor with `priNum` priorities. -/
structure Schedules (priNum : Nat) (executor : Executor τ) : Prop where
  /-- the tasks of a priority are executed in posting order -/
  order : ∀ pri, executedAt pri executor.log <+: postedAt pri executor.log
  /-- those not executed yet are in the batch at hand or wait -/
  kept : ∀ pri, postedAt pri executor.log = executedAt pri executor.log ++
    (executor.thread.inHand pri ++ (executor.exec pri).waiting)
  /-- `task_total` counts the tasks in the main buffers and those from the
  break point on in the auxiliary buffers -/
  total : executor.taskTotal = ∑ pri ∈ Finset.range priNum,
    ((executor.exec pri).mainBuf.length +
      ((executor.exec pri).auxBuf.length - (executor.exec pri).breakPoint))
  /-- every task that starts has passed its preempt check -/
  passed : startsOf executor.log <+: checksOf executor.log
  /-- when a task passes its check, no task of a higher priority posted
  before is left -/
  preempts : ∀ before pri task after, executor.log = before ++ .checked pri task :: after →
    ∀ q, pri < q → executedAt q before = postedAt q before

theorem Aligned.schedules (h : Aligned priNum executor) : Schedules priNum executor := by
  refine ⟨?_, h.kept, ?_, ?_, ?_⟩
  · intro pri
    rw [h.kept pri]
    exact List.prefix_append _ _
  · rw [h.total]
    apply Finset.sum_congr rfl
    intro pri _
    rw [TaskExecCtx.waiting, List.length_append, List.length_drop, Nat.add_comm]
  · rw [h.passed]
    exact List.prefix_append _ _
  · intro before pri task after hlog q hq
    have hget : executor.log[before.length]? = some (.checked pri task) := by
      rw [hlog]
      simp
    have hpreempts := h.preempts before.length pri task hget q hq
    rwa [hlog, List.take_left] at hpreempts

/-- Over every interleaving of posts with the steps of the thread, no task is
lost, duplicated or reordered within its priority, the counter is exact, and
no task starts before one of a higher priority. -/
theorem schedules_of_runs (priNum : Nat) (labels : List (Label τ)) {executor : Executor τ}
    (hrun : Run.runs step (tmqExecutorInit priNum) labels = some executor) :
    Schedules priNum executor := by
  have haligned : Aligned priNum executor :=
    Run.runs_maintains (fun state label next h hstep => aligned_step h hstep)
      (aligned_init priNum) hrun
  exact haligned.schedules

/-- Two tasks of priority 0 are preempted after the first one by a task of
priority 1. -/
def preemptedRun : List (Label Nat) :=
  [.post 10 0, .post 11 0, .thread, .thread, .post 20 1, .thread, .thread, .thread, .thread,
    .thread, .thread, .thread, .thread, .thread, .thread]

theorem schedules_preemptedRun :
    ∃ executor, Run.runs step (tmqExecutorInit 2) preemptedRun = some executor ∧
      startsOf executor.log = [(0, 10), (1, 20), (0, 11)] ∧ Schedules 2 executor :=
  ⟨_, rfl, rfl, schedules_of_runs 2 preemptedRun rfl⟩

end Executor

end TinyMqtt
