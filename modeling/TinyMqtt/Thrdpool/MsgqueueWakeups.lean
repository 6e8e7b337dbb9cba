import TinyMqtt.Thrdpool.MsgqueueFifo

/-!
No wake-up of the message queue is lost. A thread that waits for a message
while there is one is about to be woken, and so is one that waits for room, so
the threads stop for good only when there is nothing to get, or no room and
nobody who gets.
-/

namespace TinyMqtt.Msgqueue

open MsgqueuePc

variable {T M : Type}

/-- The thread has woken those that wait for room and is to empty the list. -/
def emptying : MsgqueuePc M → Bool
  | swapPutHead _ _ | swapPutTail _ _ | swapReset _ => true
  | _ => false

/-- The thread is to signal `get_cond` after it put a message. -/
def signals : MsgqueuePc M → Bool
  | putUnlock | putSignal => true
  | _ => false

/-- The thread is to signal `get_cond` after it set `nonblock`. -/
def unblocksGet : MsgqueuePc M → Bool
  | nonblockLock | nonblockSignal => true
  | _ => false

/-- The thread is to broadcast on `put_cond` after it set `nonblock`. -/
def unblocksPut : MsgqueuePc M → Bool
  | nonblockLock | nonblockSignal | nonblockBroadcast => true
  | _ => false

/-- A thread waits with a reason, or is about to be woken. -/
structure Wakes (queue : Msgqueue T M) : Prop where
  get : ∀ t, isSwapWait (queue.pc t) = true → queue.woken t = false →
    queue.msgCnt = 0 ∨ ∃ u, signals (queue.pc u) = true
  getBlocks : ∀ t, isSwapWait (queue.pc t) = true → queue.woken t = false →
    queue.nonblock = false ∨ ∃ u, unblocksGet (queue.pc u) = true
  put : ∀ t, isPutWait (queue.pc t) = true → queue.woken t = false → queue.full = true
  putBlocks : ∀ t, isPutWait (queue.pc t) = true → queue.woken t = false →
    queue.nonblock = false ∨ ∃ u, unblocksPut (queue.pc u) = true
  emptied : ∀ t u, emptying (queue.pc u) = true → isPutWait (queue.pc t) = true →
    queue.woken t = true

theorem wakes_create (maxlen : Nat) : Wakes (msgqueueCreate maxlen : Msgqueue T M) where
  get := by rintro t ⟨⟩
  getBlocks := by rintro t ⟨⟩
  put := by rintro t ⟨⟩
  putBlocks := by rintro t ⟨⟩
  emptied := by rintro t u ⟨⟩

section Steps

variable [DecidableEq T] [DecidableEq M] {queue middle next : Msgqueue T M} {t : T}
  {pc pc' : MsgqueuePc M}

/-! ### What a statement does to those that wait -/

theorem Statement.woken_of (h : Statement queue t pc pc' middle) {u : T} (hne : u ≠ t)
    (hwoken : middle.woken u = false) : queue.woken u = false := by
  cases h with
  | putSleep => simpa [sleep, Function.update_of_ne hne] using hwoken
  | swapSleep => simpa [sleep, Function.update_of_ne hne] using hwoken
  | putSignal => exact (Bool.or_eq_false_iff.mp hwoken).1
  | nonblockSignal => exact (Bool.or_eq_false_iff.mp hwoken).1
  | nonblockBroadcast => exact (Bool.or_eq_false_iff.mp hwoken).1
  | swapCount =>
      split at hwoken
      · exact (Bool.or_eq_false_iff.mp hwoken).1
      · exact hwoken
  | _ => exact hwoken

/-- A thread that starts to wait for a message has a reason. -/
theorem Statement.swapWait_iff (h : Statement queue t pc pc' middle)
    (hwait : isSwapWait pc' = true) : middle.msgCnt = 0 ∧ middle.nonblock = false := by
  cases h with
  | swapSleep hzero hblock => exact ⟨hzero, hblock⟩
  | swapUnlock => split at hwait <;> cases hwait
  | _ => cases hwait

/-- A thread that starts to wait for room has a reason, and holds the mutex. -/
theorem Statement.putWait_iff (h : Statement queue t pc pc' middle)
    (hwait : isPutWait pc' = true) :
    middle.full = true ∧ middle.nonblock = false ∧ holdsPut pc = true := by
  cases h with
  | putSleep hfull hblock => exact ⟨hfull, hblock, rfl⟩
  | swapUnlock => split at hwait <;> cases hwait
  | _ => cases hwait

theorem Statement.msgCnt_of (h : Statement queue t pc pc' middle) (hzero : queue.msgCnt = 0) :
    middle.msgCnt = 0 ∨ signals pc' = true := by
  cases h with
  | putCount => exact .inr rfl
  | swapReset => exact .inl rfl
  | swapCount => split <;> exact .inl hzero
  | _ => exact .inl hzero

theorem Statement.full_of (h : Statement queue t pc pc' middle) (hfull : queue.full = true) :
    middle.full = true ∨ emptying pc = true := by
  cases h with
  | putCount =>
      rw [full, decide_eq_true_eq] at hfull
      left
      rw [full, decide_eq_true_eq]
      exact Nat.lt_succ_of_lt hfull
  | swapReset => exact .inr rfl
  | swapCount => split <;> exact .inl hfull
  | _ => exact .inl hfull

theorem Statement.nonblock_eq (h : Statement queue t pc pc' middle) :
    middle.nonblock = queue.nonblock := by
  cases h with
  | swapCount => split <;> rfl
  | _ => rfl

/-- A signal for a message is not forgotten. -/
theorem Statement.signals_of (h : Statement queue t pc pc' middle) (hsignals : signals pc = true) :
    signals pc' = true ∨ ∀ u, isSwapWait (queue.pc u) = true → middle.woken u = true := by
  cases h with
  | putUnlock => exact .inl rfl
  | putSignal => exact .inr fun u hu => by simp [signalGet, hu]
  | _ => cases hsignals

theorem Statement.unblocksGet_of (h : Statement queue t pc pc' middle)
    (hunblocks : unblocksGet pc = true) :
    unblocksGet pc' = true ∨ ∀ u, isSwapWait (queue.pc u) = true → middle.woken u = true := by
  cases h with
  | nonblockLock => exact .inl rfl
  | nonblockSignal => exact .inr fun u hu => by simp [signalGet, hu]
  | _ => cases hunblocks

theorem Statement.unblocksPut_of (h : Statement queue t pc pc' middle)
    (hunblocks : unblocksPut pc = true) :
    unblocksPut pc' = true ∨ ∀ u, isPutWait (queue.pc u) = true → middle.woken u = true := by
  cases h with
  | nonblockLock => exact .inl rfl
  | nonblockSignal => exact .inl rfl
  | nonblockBroadcast => exact .inr fun u hu => by simp [broadcastPut, hu]
  | _ => cases hunblocks

/-- Before a swap empties a full list it wakes those that wait for room. -/
theorem Statement.emptying_of (h : Statement queue t pc pc' middle)
    (hemptying : emptying pc' = true) :
    (emptying pc = true ∧ middle.woken = queue.woken) ∨
      (queue.full = true → ∀ u, isPutWait (queue.pc u) = true → middle.woken u = true) := by
  cases h with
  | swapPutHead => exact .inl ⟨rfl, rfl⟩
  | swapPutTail => exact .inl ⟨rfl, rfl⟩
  | swapCount =>
      right
      intro hfull u hu
      rw [if_pos hfull]
      simp [broadcastPut, hu]
  | swapUnlock => split at hemptying <;> cases hemptying
  | _ => cases hemptying

/-! ### The invariant -/

omit [DecidableEq M] in
/-- A thread that waits after a statement of `t` waited before, or it is `t`. -/
theorem waits_goto {W : MsgqueuePc M → Bool} {pcs : T → MsgqueuePc M} {u : T}
    (hwait : W (Function.update pcs t pc' u) = true) :
    (u = t ∧ W pc' = true) ∨ (u ≠ t ∧ W (pcs u) = true) := by
  by_cases hsame : u = t
  · subst hsame
    rw [Function.update_self] at hwait
    exact .inl ⟨rfl, hwait⟩
  · rw [Function.update_of_ne hsame] at hwait
    exact .inr ⟨hsame, hwait⟩

omit [DecidableEq M] in
/-- Some thread is to wake the others after a statement of `t`, if one was
before that and `t` does not wake them. -/
theorem exists_goto {P : MsgqueuePc M → Bool} {pcs : T → MsgqueuePc M} (h : ∃ u, P (pcs u) = true)
    (ht : P (pcs t) = true → P pc' = true) : ∃ u, P (Function.update pcs t pc' u) = true := by
  obtain ⟨u, hu⟩ := h
  by_cases hsame : u = t
  · subst hsame
    exact ⟨u, by rw [Function.update_self]; exact ht hu⟩
  · exact ⟨u, by rw [Function.update_of_ne hsame]; exact hu⟩

theorem wakes_statement (h : Wakes queue) (hlocks : Locks queue) (hpc : queue.pc t = pc)
    (hstatement : Statement queue t pc pc' middle) : Wakes (middle.goto t pc') := by
  subst hpc
  have hpcs := hstatement.pc_eq
  constructor
  · intro u hwait hasleep
    simp only [goto, hpcs] at hwait hasleep ⊢
    rcases waits_goto hwait with ⟨rfl, hself⟩ | ⟨hne, hbefore⟩
    · exact .inl (hstatement.swapWait_iff hself).1
    · rcases h.get u hbefore (hstatement.woken_of hne hasleep) with hzero | hsignals
      · rcases hstatement.msgCnt_of hzero with hstill | hnew
        · exact .inl hstill
        · exact .inr ⟨t, by rw [Function.update_self]; exact hnew⟩
      · refine .inr (exists_goto hsignals ?_)
        intro hself
        rcases hstatement.signals_of hself with hkeeps | hwakes
        · exact hkeeps
        · rw [hwakes u hbefore] at hasleep
          cases hasleep
  · intro u hwait hasleep
    simp only [goto, hpcs] at hwait hasleep ⊢
    rcases waits_goto hwait with ⟨rfl, hself⟩ | ⟨hne, hbefore⟩
    · exact .inl (hstatement.swapWait_iff hself).2
    · rw [hstatement.nonblock_eq]
      rcases h.getBlocks u hbefore (hstatement.woken_of hne hasleep) with hblocks | hunblocks
      · exact .inl hblocks
      · refine .inr (exists_goto hunblocks ?_)
        intro hself
        rcases hstatement.unblocksGet_of hself with hkeeps | hwakes
        · exact hkeeps
        · rw [hwakes u hbefore] at hasleep
          cases hasleep
  · intro u hwait hasleep
    simp only [goto, hpcs] at hwait hasleep
    rcases waits_goto hwait with ⟨rfl, hself⟩ | ⟨hne, hbefore⟩
    · exact (hstatement.putWait_iff hself).1
    · have hslept := hstatement.woken_of hne hasleep
      rcases hstatement.full_of (h.put u hbefore hslept) with hfull | hemptying
      · exact hfull
      · rw [h.emptied u t hemptying hbefore] at hslept
        cases hslept
  · intro u hwait hasleep
    simp only [goto, hpcs] at hwait hasleep ⊢
    rcases waits_goto hwait with ⟨rfl, hself⟩ | ⟨hne, hbefore⟩
    · exact .inl (hstatement.putWait_iff hself).2.1
    · rw [hstatement.nonblock_eq]
      rcases h.putBlocks u hbefore (hstatement.woken_of hne hasleep) with hblocks | hunblocks
      · exact .inl hblocks
      · refine .inr (exists_goto hunblocks ?_)
        intro hself
        rcases hstatement.unblocksPut_of hself with hkeeps | hwakes
        · exact hkeeps
        · rw [hwakes u hbefore] at hasleep
          cases hasleep
  · intro u v hemptying hwait
    simp only [goto, hpcs] at hemptying hwait ⊢
    rw [← Bool.not_eq_false]
    intro hasleep
    have hholds : ∀ pc : MsgqueuePc M, emptying pc = true → holdsPut pc = true := by
      intro pc hpc
      cases pc <;> first | rfl | cases hpc
    rcases waits_goto hwait with ⟨rfl, hself⟩ | ⟨hne, hbefore⟩
    · have hput := (hlocks.put u).mp (hstatement.putWait_iff hself).2.2
      rcases waits_goto hemptying with ⟨rfl, hv⟩ | ⟨hvne, hv⟩
      · cases pc' <;> first | exact absurd hself Bool.false_ne_true | exact absurd hv Bool.false_ne_true
      · have hv := (hlocks.put v).mp (hholds _ hv)
        rw [hput] at hv
        exact hvne (Option.some.inj hv).symm
    · have hslept := hstatement.woken_of hne hasleep
      rcases waits_goto hemptying with ⟨rfl, hv⟩ | ⟨hvne, hv⟩
      · rcases hstatement.emptying_of hv with ⟨hearlier, -⟩ | hwakes
        · rw [h.emptied u v hearlier hbefore] at hslept
          cases hslept
        · rw [hwakes (h.put u hbefore hslept) u hbefore] at hasleep
          cases hasleep
      · rw [h.emptied u v hv hbefore] at hslept
        cases hslept

omit [DecidableEq M] in
/-- A call begins: nobody waits anew. -/
theorem Wakes.enters (h : Wakes queue) (hpc : queue.pc t = idle)
    (hwait : isSwapWait pc' = false ∧ isPutWait pc' = false ∧ emptying pc' = false)
    {links : MsgLink M → Option M} {nonblock : Bool}
    (hnonblock : nonblock = queue.nonblock ∨ unblocksGet pc' = true) :
    Wakes ({ queue with links := links, nonblock := nonblock }.goto t pc') := by
  obtain ⟨hswap, hput, hempty⟩ := hwait
  have hunblocks : unblocksGet pc' = true → unblocksPut pc' = true := by
    intro hpc'
    cases pc' <;> first | rfl | cases hpc'
  have hbefore : ∀ {W : MsgqueuePc M → Bool}, W pc' = false → ∀ u,
      W (Function.update queue.pc t pc' u) = true → W (queue.pc u) = true := by
    intro W hself u hu
    rcases waits_goto hu with ⟨rfl, hnew⟩ | ⟨-, hold⟩
    · rw [hself] at hnew
      cases hnew
    · exact hold
  have hafter : ∀ {P : MsgqueuePc M → Bool}, P idle = false → (∃ u, P (queue.pc u) = true) →
      ∃ u, P (Function.update queue.pc t pc' u) = true := by
    intro P hidle hu
    refine exists_goto hu ?_
    intro hself
    rw [hpc, hidle] at hself
    cases hself
  constructor
  · intro u hu hasleep
    exact (h.get u (hbefore hswap u hu) hasleep).imp id (hafter rfl)
  · intro u hu hasleep
    rcases hnonblock with rfl | hself
    · exact (h.getBlocks u (hbefore hswap u hu) hasleep).imp id (hafter rfl)
    · exact .inr ⟨t, by simp only [goto, Function.update_self]; exact hself⟩
  · intro u hu hasleep
    exact h.put u (hbefore hput u hu) hasleep
  · intro u hu hasleep
    rcases hnonblock with rfl | hself
    · exact (h.putBlocks u (hbefore hput u hu) hasleep).imp id (hafter rfl)
    · exact .inr ⟨t, by simp only [goto, Function.update_self]; exact hunblocks hself⟩
  · intro u v hv hu
    exact h.emptied u v (hbefore hempty v hv) (hbefore hput u hu)

theorem wakes_step (h : Wakes queue) (hlocks : Locks queue) {action : Action T M}
    (hstep : queue.step action = some next) : Wakes next := by
  cases action with
  | put t msg =>
      rw [step] at hstep
      split at hstep
      · rename_i hpc
        obtain rfl := Option.some.inj hstep
        exact h.enters hpc ⟨rfl, rfl, rfl⟩ (.inl rfl)
      · cases hstep
  | get t =>
      rw [step] at hstep
      split at hstep
      · rename_i hpc
        obtain rfl := Option.some.inj hstep
        exact h.enters hpc ⟨rfl, rfl, rfl⟩ (.inl rfl)
      · cases hstep
  | setNonblock t =>
      rw [step] at hstep
      split at hstep
      · rename_i hpc
        obtain rfl := Option.some.inj hstep
        exact h.enters hpc ⟨rfl, rfl, rfl⟩ (.inr rfl)
      · cases hstep
  | setBlock t =>
      rw [step] at hstep
      split at hstep
      · obtain rfl := Option.some.inj hstep
        exact ⟨h.get, fun _ _ _ => .inl rfl, h.put, fun _ _ _ => .inl rfl, h.emptied⟩
      · cases hstep
  | run t =>
      obtain ⟨pc', middle, hstatement, rfl⟩ := advance_statement hstep
      exact wakes_statement h hlocks rfl hstatement
  | wake t =>
      rw [step] at hstep
      split at hstep
      · obtain rfl := Option.some.inj hstep
        have hasleep : ∀ u, Function.update queue.woken t true u = false →
            queue.woken u = false := by
          intro u hu
          by_cases hsame : u = t
          · subst hsame
            rw [Function.update_self] at hu
            cases hu
          · rwa [Function.update_of_ne hsame] at hu
        refine ⟨fun u hu hs => h.get u hu (hasleep u hs), fun u hu hs => h.getBlocks u hu (hasleep u hs),
          fun u hu hs => h.put u hu (hasleep u hs), fun u hu hs => h.putBlocks u hu (hasleep u hs), ?_⟩
        intro u v hv hu
        by_cases hsame : u = t
        · subst hsame
          exact Function.update_self _ _ _
        · dsimp only
          rw [Function.update_of_ne hsame]
          exact h.emptied u v hv hu
      · cases hstep

theorem wakes_runs {maxlen : Nat} {actions : List (Action T M)}
    (hactions : Run.Admissible Allowed step (msgqueueCreate maxlen) actions)
    (hrun : Run.runs step (msgqueueCreate maxlen) actions = some queue) :
    Wakes queue ∧ ∃ gets puts, Inv queue gets puts := by
  refine @Run.runs_preserves _ _ Allowed step
    (fun queue => Wakes queue ∧ ∃ gets puts, Inv queue gets puts) ?_ actions (msgqueueCreate maxlen)
    queue ⟨wakes_create maxlen, [], [], inv_create maxlen⟩ hactions hrun
  rintro state action next ⟨hwakes, gets, puts, hinv⟩ hallowed hstep
  exact ⟨wakes_step hwakes hinv.locks hstep, inv_step hinv hallowed hstep⟩

/-- When no thread can go on, nobody holds `put_mutex`, and only a thread that
waits for a message holds `get_mutex`. -/
theorem Inv.stuck {gets puts : List M} (h : Inv queue gets puts)
    (hstuck : ∀ t, queue.advance t = none) :
    queue.putMutex = none ∧
      ∀ t, queue.getMutex = some t → isSwapWait (queue.pc t) = true ∧ queue.woken t = false := by
  have hblocked : ∀ t, queue.Blocked t := fun t => (h.advance_eq_none_iff t).mp (hstuck t)
  have hput : queue.putMutex = none := by
    cases howner : queue.putMutex with
    | none => rfl
    | some t =>
        have hholds := (h.locks.put t).mpr howner
        have ht := hblocked t
        rw [Blocked] at ht
        cases hpc : queue.pc t <;> rw [hpc] at hholds ht <;>
          first | exact absurd hholds Bool.false_ne_true | exact False.elim ht
  refine ⟨hput, ?_⟩
  intro t howner
  have hholds := (h.locks.get t).mpr howner
  have ht := hblocked t
  rw [Blocked, hput] at ht
  cases hpc : queue.pc t <;> rw [hpc] at hholds ht <;> simp_all [holdsGet, isSwapWait]

/-- The queue never gets stuck. When no thread can go on, every thread is in no
call, or `nonblock` is not set and either all calls get and no message is left,
or all calls put, the list to put to is full, and nobody gets. -/
theorem msgqueue_never_stuck (maxlen : Nat) (actions : List (Action T M))
    (hactions : Run.Admissible Allowed step (msgqueueCreate maxlen) actions)
    (queue : Msgqueue T M) (hrun : Run.runs step (msgqueueCreate maxlen) actions = some queue)
    (hstuck : ∀ t, queue.advance t = none) :
    (∀ t, queue.pc t = idle) ∨
      queue.nonblock = false ∧
        ((queue.queued = [] ∧
            ∀ t, queue.pc t = idle ∨ queue.pc t = getLock ∨ isSwapWait (queue.pc t) = true) ∨
          (queue.full = true ∧ ∀ t, queue.pc t = idle ∨ isPutWait (queue.pc t) = true)) := by
  obtain ⟨hwakes, gets, puts, hinv⟩ := wakes_runs hactions hrun
  obtain ⟨hput, hget⟩ := hinv.stuck hstuck
  have hplaces : ∀ t, queue.pc t = idle ∨ (queue.pc t = getLock ∧ queue.getMutex ≠ none) ∨
      (isPutWait (queue.pc t) = true ∧ queue.woken t = false) ∨
      (isSwapWait (queue.pc t) = true ∧ queue.woken t = false) := by
    intro t
    have ht := (hinv.advance_eq_none_iff t).mp (hstuck t)
    rw [Blocked, hput] at ht
    cases hpc : queue.pc t <;> rw [hpc] at ht <;> simp_all [isPutWait, isSwapWait]
  have hnobody : ∀ P : MsgqueuePc M → Bool, P idle = false → P getLock = false →
      (∀ pc, isPutWait pc = true → P pc = false) → (∀ pc, isSwapWait pc = true → P pc = false) →
      ¬∃ u, P (queue.pc u) = true := by
    rintro P hidle hlock hputs hgets ⟨u, hu⟩
    rcases hplaces u with hpc | ⟨hpc, -⟩ | ⟨hpc, -⟩ | ⟨hpc, -⟩
    · rw [hpc, hidle] at hu
      cases hu
    · rw [hpc, hlock] at hu
      cases hu
    · rw [hputs _ hpc] at hu
      cases hu
    · rw [hgets _ hpc] at hu
      cases hu
  have hlists := hinv.lists
  rw [hput] at hlists
  have hcount : queue.msgCnt = puts.length := hlists.countOf
  cases hgetter : queue.getMutex with
  | some g =>
      obtain ⟨hwait, hasleep⟩ := hget g hgetter
      have hzero : queue.msgCnt = 0 := by
        refine (hwakes.get g hwait hasleep).resolve_right (hnobody signals rfl rfl ?_ ?_) <;>
          intro pc hpc <;> cases pc <;> first | rfl | cases hpc
      have hblock : queue.nonblock = false := by
        refine (hwakes.getBlocks g hwait hasleep).resolve_right (hnobody unblocksGet rfl rfl ?_ ?_) <;>
          intro pc hpc <;> cases pc <;> first | rfl | cases hpc
      have hnone : gets = [] := by
        rw [hgetter] at hlists
        have hside := hlists.getSide
        cases hpc : queue.pc g with
        | swapWait head =>
            rw [ownerPc, Option.elim_some, hpc] at hside
            obtain ⟨-, -, -, hgets⟩ : GetSide _ _ _ _ _ := hside
            exact hgets
        | _ =>
            rw [hpc] at hwait
            cases hwait
      refine .inr ⟨hblock, .inl ⟨?_, ?_⟩⟩
      · rw [hinv.queued_eq, hnone, List.nil_append, ← List.length_eq_zero_iff, ← hcount]
        exact hzero
      · intro t
        rcases hplaces t with hpc | ⟨hpc, -⟩ | ⟨hpc, hslept⟩ | ⟨hpc, -⟩
        · exact .inl hpc
        · exact .inr (.inl hpc)
        · have hfull := hwakes.put t hpc hslept
          rw [full, decide_eq_true_eq, hzero] at hfull
          exact absurd hfull (Nat.not_lt_zero _)
        · exact .inr (.inr hpc)
  | none =>
      have hputs : ∀ t, queue.pc t = idle ∨
          (isPutWait (queue.pc t) = true ∧ queue.woken t = false) := by
        intro t
        rcases hplaces t with hpc | ⟨-, hheld⟩ | hpc | ⟨hpc, -⟩
        · exact .inl hpc
        · exact absurd hgetter hheld
        · exact .inr hpc
        · have hholds : holdsGet (queue.pc t) = true := by
            cases hat : queue.pc t <;> rw [hat] at hpc <;> first | rfl | cases hpc
          rw [(hinv.locks.get t).mp hholds] at hgetter
          cases hgetter
      by_cases hidle : ∀ t, queue.pc t = idle
      · exact .inl hidle
      · obtain ⟨t, ht⟩ := not_forall.mp hidle
        obtain ⟨hwait, hasleep⟩ := (hputs t).resolve_left ht
        have hblock : queue.nonblock = false := by
          refine (hwakes.putBlocks t hwait hasleep).resolve_right
              (hnobody unblocksPut rfl rfl ?_ ?_) <;>
            intro pc hpc <;> cases pc <;> first | rfl | cases hpc
        refine .inr ⟨hblock, .inr ⟨hwakes.put t hwait hasleep, ?_⟩⟩
        intro u
        exact (hputs u).imp id And.left

/-- A list with room for one message is full, and a second thread waits. -/
theorem msgqueue_never_stuck_full :
    ∃ queue : Msgqueue (Fin 2) Nat, Run.runs step (msgqueueCreate 1)
        (.put 0 7 :: List.replicate 7 (.run 0) ++ .put 1 8 :: List.replicate 2 (.run 1))
        = some queue ∧
      ((∀ t, queue.pc t = idle) ∨
        queue.nonblock = false ∧
          ((queue.queued = [] ∧
              ∀ t, queue.pc t = idle ∨ queue.pc t = getLock ∨ isSwapWait (queue.pc t) = true) ∨
            (queue.full = true ∧ ∀ t, queue.pc t = idle ∨ isPutWait (queue.pc t) = true))) ∧
      queue.queued = [7] := by
  have hobserved : (Run.runs step (msgqueueCreate 1 : Msgqueue (Fin 2) Nat)
      (.put 0 7 :: List.replicate 7 (.run 0) ++ .put 1 8 :: List.replicate 2 (.run 1))).map
        (fun queue => (queue.queued, decide (∀ t, (queue.advance t).isNone = true)))
      = some ([7], true) := by decide +kernel
  obtain ⟨queue, hrun, hqueue⟩ := Option.map_eq_some_iff.mp hobserved
  obtain ⟨hqueued, hstuck⟩ := Prod.mk.inj hqueue
  have hstuck : ∀ t, queue.advance t = none :=
    fun t => Option.isNone_iff_eq_none.mp (of_decide_eq_true hstuck t)
  exact ⟨queue, hrun, msgqueue_never_stuck 1 _ (by decide +kernel) queue hrun hstuck, hqueued⟩

end Steps

end TinyMqtt.Msgqueue
