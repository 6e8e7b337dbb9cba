import TinyMqtt.Thrdpool.Msgqueue

/-!
The message queue hands out the messages in the order in which they were
stored, each once, whatever the order in which the threads go on. The
invariant says who holds which mutex and which lists the pointers make: one to
get from and one to put to, except while a thread swaps them.
-/

namespace TinyMqtt.Msgqueue

open MsgqueuePc LinkChain

variable {T M : Type}

/-! ### Statements -/

section Statement

variable [DecidableEq T] [DecidableEq M]

/-- The statements: where a thread stands before and after one, and the queue
after it but for that. -/
inductive Statement (queue : Msgqueue T M) (t : T) :
    MsgqueuePc M → MsgqueuePc M → Msgqueue T M → Prop
  | putLock {msg : M} : queue.putMutex = none →
      Statement queue t (putLock msg) (putTest msg) { queue with putMutex := some t }
  | putSleep {msg : M} : queue.full = true → queue.nonblock = false →
      Statement queue t (putTest msg) (putWait msg) ({ queue with putMutex := none }.sleep t)
  | putGo {msg : M} : (queue.full = true → queue.nonblock = true) →
      Statement queue t (putTest msg) (putStore msg) queue
  | putRelock {msg : M} : queue.woken t = true → queue.putMutex = none →
      Statement queue t (putWait msg) (putTest msg) { queue with putMutex := some t }
  | putStore {msg : M} : Statement queue t (putStore msg) (putAdvance msg)
      { queue with
        links := Function.update queue.links queue.putTail (some msg)
        puts := queue.puts ++ [msg] }
  | putAdvance {msg : M} :
      Statement queue t (putAdvance msg) putCount { queue with putTail := .of msg }
  | putCount : Statement queue t putCount putUnlock { queue with msgCnt := queue.msgCnt + 1 }
  | putUnlock : Statement queue t putUnlock putSignal { queue with putMutex := none }
  | putSignal : Statement queue t putSignal idle queue.signalGet
  | getLock : queue.getMutex = none →
      Statement queue t getLock getTest { queue with getMutex := some t }
  | getSome {msg : M} : queue.links queue.getHead = some msg →
      Statement queue t getTest getTake queue
  | getNone : queue.links queue.getHead = none → Statement queue t getTest swapBegin queue
  | swapBegin : Statement queue t swapBegin (swapLock queue.getHead)
      { queue with getHead := queue.putHead }
  | swapLock {getHead : MsgLink M} : queue.putMutex = none →
      Statement queue t (swapLock getHead) (swapTest getHead) { queue with putMutex := some t }
  | swapSleep {getHead : MsgLink M} : queue.msgCnt = 0 → queue.nonblock = false →
      Statement queue t (swapTest getHead) (swapWait getHead)
        ({ queue with putMutex := none }.sleep t)
  | swapGo {getHead : MsgLink M} : (queue.msgCnt = 0 → queue.nonblock = true) →
      Statement queue t (swapTest getHead) (swapCount getHead) queue
  | swapRelock {getHead : MsgLink M} : queue.woken t = true → queue.putMutex = none →
      Statement queue t (swapWait getHead) (swapTest getHead) { queue with putMutex := some t }
  | swapCount {getHead : MsgLink M} :
      Statement queue t (swapCount getHead) (swapPutHead getHead queue.msgCnt)
        (if queue.full then queue.broadcastPut else queue)
  | swapPutHead {getHead : MsgLink M} {cnt : Nat} : Statement queue t (swapPutHead getHead cnt)
      (swapPutTail getHead cnt) { queue with putHead := getHead }
  | swapPutTail {getHead : MsgLink M} {cnt : Nat} : Statement queue t (swapPutTail getHead cnt)
      (swapReset cnt) { queue with putTail := getHead }
  | swapReset {cnt : Nat} :
      Statement queue t (swapReset cnt) (swapUnlock cnt) { queue with msgCnt := 0 }
  | swapUnlock {cnt : Nat} : Statement queue t (swapUnlock cnt)
      (if 0 < cnt then getTake else getUnlock none) { queue with putMutex := none }
  | getTake {msg : M} : queue.links queue.getHead = some msg →
      Statement queue t getTake (getUnlink msg) queue
  | getUnlink {msg first : M} : queue.links queue.getHead = some first →
      Statement queue t (getUnlink msg) (getUnlock (some msg))
        { queue with
          links := Function.update queue.links queue.getHead (queue.links (.of first))
          gots := queue.gots ++ [msg] }
  | getUnlock {msg : Option M} :
      Statement queue t (getUnlock msg) idle { queue with getMutex := none }
  | nonblockLock : queue.putMutex = none →
      Statement queue t nonblockLock nonblockSignal { queue with putMutex := some t }
  | nonblockSignal : Statement queue t nonblockSignal nonblockBroadcast queue.signalGet
  | nonblockBroadcast : Statement queue t nonblockBroadcast nonblockUnlock queue.broadcastPut
  | nonblockUnlock : Statement queue t nonblockUnlock idle { queue with putMutex := none }

/-- The thread goes on from `pc` by one of the statements. -/
def Executes (queue : Msgqueue T M) (t : T) (pc : MsgqueuePc M) (next : Msgqueue T M) : Prop :=
  ∃ pc' middle, Statement queue t pc pc' middle ∧ next = middle.goto t pc'

variable {queue next middle : Msgqueue T M} {t : T} {pc pc' : MsgqueuePc M}

theorem Statement.executes (h : Statement queue t pc pc' middle)
    (hstep : some (middle.goto t pc') = some next) : Executes queue t pc next :=
  ⟨pc', middle, h, (Option.some.inj hstep).symm⟩

/-- A lock of `put_mutex` goes on when nobody holds it. -/
theorem executes_lockPut
    (h : queue.putMutex = none → Statement queue t pc pc' { queue with putMutex := some t })
    (hstep : queue.lockPut t pc' = some next) : Executes queue t pc next := by
  rw [lockPut] at hstep
  split at hstep
  · rename_i hfree
    exact (h hfree).executes hstep
  · cases hstep

/-- A wait for a condition goes on when it was woken and `put_mutex` is free. -/
theorem executes_relock
    (h : queue.woken t = true → queue.putMutex = none →
      Statement queue t pc pc' { queue with putMutex := some t })
    (hstep : (if queue.woken t then queue.lockPut t pc' else none) = some next) :
    Executes queue t pc next := by
  split at hstep
  · rename_i hwoken
    exact executes_lockPut (h hwoken) hstep
  · cases hstep

/-- A thread that goes on executes a statement. -/
theorem advance_statement (hstep : queue.advance t = some next) :
    Executes queue t (queue.pc t) next := by
  unfold advance at hstep
  generalize queue.pc t = pc at hstep ⊢
  cases pc with
  | idle => cases hstep
  | putLock msg => exact executes_lockPut .putLock hstep
  | putTest msg =>
      dsimp only at hstep
      split at hstep
      · rename_i hwait
        exact (Statement.putSleep hwait.1 hwait.2).executes hstep
      · rename_i hgo
        exact (Statement.putGo (by simpa using hgo)).executes hstep
  | putWait msg => exact executes_relock .putRelock hstep
  | putStore msg => exact Statement.putStore.executes hstep
  | putAdvance msg => exact Statement.putAdvance.executes hstep
  | putCount => exact Statement.putCount.executes hstep
  | putUnlock => exact Statement.putUnlock.executes hstep
  | putSignal => exact Statement.putSignal.executes hstep
  | getLock =>
      dsimp only at hstep
      split at hstep
      · rename_i hfree
        exact (Statement.getLock hfree).executes hstep
      · cases hstep
  | getTest =>
      dsimp only at hstep
      split at hstep
      · rename_i hsome
        obtain ⟨msg, hmsg⟩ := Option.isSome_iff_exists.mp hsome
        exact (Statement.getSome hmsg).executes hstep
      · rename_i hnone
        exact (Statement.getNone (by simpa using hnone)).executes hstep
  | swapBegin => exact Statement.swapBegin.executes hstep
  | swapLock getHead => exact executes_lockPut .swapLock hstep
  | swapTest getHead =>
      dsimp only at hstep
      split at hstep
      · rename_i hwait
        exact (Statement.swapSleep hwait.1 hwait.2).executes hstep
      · rename_i hgo
        exact (Statement.swapGo (by simpa using hgo)).executes hstep
  | swapWait getHead => exact executes_relock .swapRelock hstep
  | swapCount getHead => exact Statement.swapCount.executes hstep
  | swapPutHead getHead cnt => exact Statement.swapPutHead.executes hstep
  | swapPutTail getHead cnt => exact Statement.swapPutTail.executes hstep
  | swapReset cnt => exact Statement.swapReset.executes hstep
  | swapUnlock cnt => exact Statement.swapUnlock.executes hstep
  | getTake =>
      obtain ⟨msg, hmsg, rfl⟩ := Option.map_eq_some_iff.mp hstep
      exact (Statement.getTake hmsg).executes rfl
  | getUnlink msg =>
      obtain ⟨first, hfirst, rfl⟩ := Option.map_eq_some_iff.mp hstep
      exact (Statement.getUnlink hfirst).executes rfl
  | getUnlock msg => exact Statement.getUnlock.executes hstep
  | nonblockLock => exact executes_lockPut .nonblockLock hstep
  | nonblockSignal => exact Statement.nonblockSignal.executes hstep
  | nonblockBroadcast => exact Statement.nonblockBroadcast.executes hstep
  | nonblockUnlock => exact Statement.nonblockUnlock.executes hstep

/-- A statement moves no thread but its own. -/
theorem Statement.pc_eq (h : Statement queue t pc pc' middle) : middle.pc = queue.pc := by
  cases h with
  | swapCount => split <;> rfl
  | _ => rfl

end Statement

/-! ### Mutexes -/

/-- The thread holds `get_mutex`. -/
def holdsGet : MsgqueuePc M → Bool
  | getTest | swapBegin | swapLock _ | swapTest _ | swapWait _ | swapCount _ | swapPutHead _ _
  | swapPutTail _ _ | swapReset _ | swapUnlock _ | getTake | getUnlink _ | getUnlock _ => true
  | _ => false

/-- The thread holds `put_mutex`. -/
def holdsPut : MsgqueuePc M → Bool
  | putTest _ | putStore _ | putAdvance _ | putCount | putUnlock | swapTest _ | swapCount _
  | swapPutHead _ _ | swapPutTail _ _ | swapReset _ | swapUnlock _ | nonblockSignal
  | nonblockBroadcast | nonblockUnlock => true
  | _ => false

/-- A mutex is held by the thread that stands between its lock and its unlock. -/
structure Locks (queue : Msgqueue T M) : Prop where
  get : ∀ t, holdsGet (queue.pc t) = true ↔ queue.getMutex = some t
  put : ∀ t, holdsPut (queue.pc t) = true ↔ queue.putMutex = some t

/-- What a statement of a thread does to a mutex that it holds before or after. -/
inductive MutexMove (t : T) : Option T → Option T → Bool → Bool → Prop
  | keep {owner : Option T} {holds holds' : Bool} : holds' = holds →
      MutexMove t owner owner holds holds'
  | lock {holds : Bool} : MutexMove t none (some t) holds true
  | unlock {owner : Option T} {holds : Bool} : holds = true → MutexMove t owner none holds false

section Mutexes

variable [DecidableEq T]

/-- A mutex has the owner that the threads' places say when a thread goes on. -/
theorem MutexMove.owner {H : MsgqueuePc M → Bool} {pc : T → MsgqueuePc M} {owner owner' : Option T}
    (h : ∀ u, H (pc u) = true ↔ owner = some u) {t : T} {pc' : MsgqueuePc M}
    (hmove : MutexMove t owner owner' (H (pc t)) (H pc')) (u : T) :
    H (Function.update pc t pc' u) = true ↔ owner' = some u := by
  by_cases hsame : u = t
  · subst hsame
    rw [Function.update_self]
    generalize hholds' : H pc' = holds' at hmove
    generalize hholds : H (pc u) = holds at hmove
    cases hmove with
    | keep heq =>
        rw [heq, ← hholds]
        exact h u
    | lock => simp
    | unlock => simp
  · rw [Function.update_of_ne hsame, h u]
    generalize H pc' = holds' at hmove
    generalize hholds : H (pc t) = holds at hmove
    cases hmove with
    | keep => rfl
    | lock => simp [Ne.symm hsame]
    | unlock hheld =>
        rw [hheld] at hholds
        rw [(h t).mp hholds]
        simp [Ne.symm hsame]

variable {queue middle next : Msgqueue T M} {t : T} {pc' : MsgqueuePc M}

/-- Only where the threads stand and who holds the mutexes matters. -/
theorem Locks.goto (h : Locks queue) (hpc : middle.pc = queue.pc)
    (hget : MutexMove t queue.getMutex middle.getMutex (holdsGet (queue.pc t)) (holdsGet pc'))
    (hput : MutexMove t queue.putMutex middle.putMutex (holdsPut (queue.pc t)) (holdsPut pc')) :
    Locks (middle.goto t pc') := by
  have hget := hget.owner h.get
  have hput := hput.owner h.put
  rw [← hpc] at hget hput
  exact ⟨hget, hput⟩

/-- What a statement does to the two mutexes. -/
theorem Statement.mutexMoves [DecidableEq M] {pc : MsgqueuePc M}
    (h : Statement queue t pc pc' middle) :
    MutexMove t queue.getMutex middle.getMutex (holdsGet pc) (holdsGet pc') ∧
      MutexMove t queue.putMutex middle.putMutex (holdsPut pc) (holdsPut pc') := by
  cases h with
  | putLock hfree => exact ⟨.keep rfl, by rw [hfree]; exact .lock⟩
  | putRelock hwoken hfree => exact ⟨.keep rfl, by rw [hfree]; exact .lock⟩
  | swapLock hfree => exact ⟨.keep rfl, by rw [hfree]; exact .lock⟩
  | swapRelock hwoken hfree => exact ⟨.keep rfl, by rw [hfree]; exact .lock⟩
  | nonblockLock hfree => exact ⟨.keep rfl, by rw [hfree]; exact .lock⟩
  | getLock hfree => exact ⟨by rw [hfree]; exact .lock, .keep rfl⟩
  | putSleep | swapSleep | putUnlock | nonblockUnlock => exact ⟨.keep rfl, .unlock rfl⟩
  | swapUnlock => split <;> exact ⟨.keep rfl, .unlock rfl⟩
  | getUnlock => exact ⟨.unlock rfl, .keep rfl⟩
  | swapCount => split <;> exact ⟨.keep rfl, .keep rfl⟩
  | _ => exact ⟨.keep rfl, .keep rfl⟩

theorem locks_statement [DecidableEq M] (h : Locks queue)
    (hstatement : Statement queue t (queue.pc t) pc' middle) : Locks (middle.goto t pc') := by
  obtain ⟨hget, hput⟩ := hstatement.mutexMoves
  exact h.goto hstatement.pc_eq hget hput

end Mutexes

/-! ### Lists -/

/-- What the thread that holds `put_mutex` has done to the list to put to. -/
inductive PutPhase (M : Type) where
  | whole
  /-- a message is stored, `put_tail` is where it was -/
  | stored (msg : M)
  /-- `msg_cnt` does not count the last message -/
  | uncounted
  /-- the list is empty, `put_tail` and `msg_cnt` are those of the other one -/
  | emptied
  /-- `msg_cnt` is that of the other list -/
  | unreset

def putPhase : MsgqueuePc M → PutPhase M
  | putAdvance msg => .stored msg
  | putCount => .uncounted
  | swapPutTail _ _ => .emptied
  | swapReset _ => .unreset
  | _ => .whole

/-- The head that a swap has not given to the list to put to yet. -/
def spare : MsgqueuePc M → Option (MsgLink M)
  | swapLock getHead => some getHead
  | swapTest getHead => some getHead
  | swapWait getHead => some getHead
  | swapCount getHead => some getHead
  | swapPutHead getHead _ => some getHead
  | _ => none

section Lists

variable (links : MsgLink M → Option M) (getHead putHead putTail : MsgLink M) (msgCnt : Nat)

/-- The list to get from. During a swap `get_head` stands at the other list. -/
def GetSide (getter : MsgqueuePc M) (gets : List M) : Prop :=
  match spare getter with
  | some head => getHead = putHead ∧ head = putHead.other ∧ links head = none ∧ gets = []
  | none => getHead = putHead.other ∧ Chain .of links getHead gets

/-- Where `put_tail` stands. -/
def TailAt (puts : List M) : PutPhase M → Prop
  | .stored msg => ∃ before, puts = before ++ [msg] ∧ putTail = lastLink .of putHead before
  | .emptied => True
  | _ => putTail = lastLink .of putHead puts

/-- What `msg_cnt` counts. -/
def CountOf (puts : List M) : PutPhase M → Prop
  | .stored _ => msgCnt + 1 = puts.length
  | .uncounted => msgCnt + 1 = puts.length
  | .emptied => puts = []
  | .unreset => puts = []
  | .whole => msgCnt = puts.length

/-- What the thread that holds `get_mutex` knows. -/
def Knows (getter : MsgqueuePc M) (gets puts : List M) : Prop :=
  match getter with
  | swapBegin => gets = []
  | swapPutHead _ cnt => cnt = puts.length
  | swapPutTail head cnt => head = putHead ∧ cnt = gets.length
  | swapReset cnt => cnt = gets.length
  | swapUnlock cnt => cnt = gets.length
  | getTake => gets ≠ []
  | getUnlink msg => gets.head? = some msg
  | _ => True

/-- The pointers make two lists. -/
structure Lists (getter : MsgqueuePc M) (phase : PutPhase M) (gets puts : List M) : Prop where
  isHead : putHead = .head1 ∨ putHead = .head2
  getSide : GetSide links getHead putHead getter gets
  putSide : Chain .of links putHead puts
  tailAt : TailAt putHead putTail puts phase
  countOf : CountOf msgCnt puts phase
  nodup : (gets ++ puts).Nodup
  knows : Knows putHead getter gets puts

end Lists

theorem of_injective : Function.Injective (MsgLink.of : M → MsgLink M) :=
  fun _ _ h => MsgLink.of.inj h

theorem of_ne_head {putHead : MsgLink M} (h : putHead = .head1 ∨ putHead = .head2) (m : M) :
    .of m ≠ putHead ∧ .of m ≠ putHead.other := by
  rcases h with rfl | rfl <;> exact ⟨by rintro ⟨⟩, by rintro ⟨⟩⟩

theorem other_ne {putHead : MsgLink M} (h : putHead = .head1 ∨ putHead = .head2) :
    putHead.other ≠ putHead := by
  rcases h with rfl | rfl <;> rintro ⟨⟩

theorem other_other (head : MsgLink M) : head.other.other = head := by
  cases head <;> rfl

section ListSteps

variable {links : MsgLink M → Option M} {getHead putHead putTail : MsgLink M} {msgCnt : Nat}
  {getter : MsgqueuePc M} {phase : PutPhase M} {gets puts : List M}

/-- Clearing the link of a message that is in neither list. -/
theorem Lists.clear [DecidableEq M]
    (h : Lists links getHead putHead putTail msgCnt getter phase gets puts) {msg : M}
    (hmsg : msg ∉ gets ++ puts) :
    Lists (Function.update links (.of msg) none) getHead putHead putTail msgCnt getter phase gets
      puts := by
  have hne := of_ne_head h.isHead msg
  rw [List.mem_append, not_or] at hmsg
  have hplace : ∀ list : List M, msg ∉ list → ∀ m ∈ list, (.of msg : MsgLink M) ≠ .of m := by
    intro list hlist m hm hsame
    obtain rfl := of_injective hsame
    exact hlist hm
  refine ⟨h.isHead, ?_, h.putSide.update hne.1 (hplace puts hmsg.2) none, h.tailAt, h.countOf,
    h.nodup, h.knows⟩
  have hside := h.getSide
  rw [GetSide] at hside ⊢
  split
  · rename_i head hhead
    simp only [hhead] at hside
    obtain ⟨hget, rfl, hempty, hnone⟩ := hside
    exact ⟨hget, rfl, by rw [Function.update_of_ne hne.2.symm]; exact hempty, hnone⟩
  · rename_i hhead
    simp only [hhead] at hside
    obtain ⟨rfl, hchain⟩ := hside
    exact ⟨rfl, hchain.update hne.2 (hplace gets hmsg.1) none⟩

/-- The getter goes on without touching the lists. -/
theorem Lists.goOn {getter' : MsgqueuePc M}
    (h : Lists links getHead putHead putTail msgCnt getter phase gets puts)
    (hspare : spare getter' = spare getter) (hknows : Knows putHead getter' gets puts) :
    Lists links getHead putHead putTail msgCnt getter' phase gets puts := by
  refine ⟨h.isHead, ?_, h.putSide, h.tailAt, h.countOf, h.nodup, hknows⟩
  rw [GetSide, hspare]
  exact h.getSide

/-- `get_head` when no swap is under way. -/
theorem Lists.getChain (h : Lists links getHead putHead putTail msgCnt getter phase gets puts)
    (hspare : spare getter = none) :
    getHead = putHead.other ∧ Chain .of links getHead gets := by
  have hside := h.getSide
  rw [GetSide, hspare] at hside
  exact hside

theorem Lists.swapBegin (h : Lists links getHead putHead putTail msgCnt swapBegin phase gets puts) :
    Lists links putHead putHead putTail msgCnt (swapLock getHead) phase gets puts := by
  obtain ⟨hother, hchain⟩ := h.getChain rfl
  have hnone : gets = [] := h.knows
  refine ⟨h.isHead, ⟨rfl, hother, ?_, hnone⟩, h.putSide, h.tailAt, h.countOf, h.nodup, trivial⟩
  rw [hnone] at hchain
  exact hchain

/-- `put_head` gets the spare head: the lists are swapped. -/
theorem Lists.swapPutHead {head : MsgLink M} {cnt : Nat}
    (h : Lists links getHead putHead putTail msgCnt (swapPutHead head cnt) phase gets puts) :
    gets = [] ∧ Lists links getHead head putTail msgCnt (swapPutTail head cnt) .emptied puts [] := by
  obtain ⟨rfl, rfl, hempty, rfl⟩ : GetSide _ _ _ _ _ := h.getSide
  have hcnt : cnt = puts.length := h.knows
  refine ⟨rfl, ?_, ⟨?_, h.putSide⟩, hempty, trivial, rfl, ?_, rfl, hcnt⟩
  · rcases h.isHead with rfl | rfl
    · exact .inr rfl
    · exact .inl rfl
  · rw [other_other]
  · rw [List.append_nil]
    exact h.nodup

theorem Lists.swapPutTail {head : MsgLink M} {cnt : Nat}
    (h : Lists links getHead putHead putTail msgCnt (swapPutTail head cnt) .emptied gets puts) :
    Lists links getHead putHead head msgCnt (swapReset cnt) .unreset gets puts := by
  obtain ⟨rfl, hcnt⟩ : Knows _ _ _ _ := h.knows
  have hnone : puts = [] := h.countOf
  refine ⟨h.isHead, h.getSide, h.putSide, ?_, hnone, h.nodup, hcnt⟩
  rw [hnone]
  rfl

theorem Lists.swapReset {cnt : Nat}
    (h : Lists links getHead putHead putTail msgCnt (swapReset cnt) .unreset gets puts) :
    Lists links getHead putHead putTail 0 (swapUnlock cnt) .whole gets puts := by
  have hnone : puts = [] := h.countOf
  refine ⟨h.isHead, h.getSide, h.putSide, h.tailAt, ?_, h.nodup, h.knows⟩
  rw [hnone]
  rfl

theorem Lists.putAdvance {msg : M}
    (h : Lists links getHead putHead putTail msgCnt getter (.stored msg) gets puts) :
    Lists links getHead putHead (.of msg) msgCnt getter .uncounted gets puts := by
  obtain ⟨before, rfl, -⟩ : TailAt _ _ _ _ := h.tailAt
  exact ⟨h.isHead, h.getSide, h.putSide, (lastLink_concat _ _ _ _).symm, h.countOf, h.nodup, h.knows⟩

theorem Lists.putCount
    (h : Lists links getHead putHead putTail msgCnt getter .uncounted gets puts) :
    Lists links getHead putHead putTail (msgCnt + 1) getter .whole gets puts :=
  ⟨h.isHead, h.getSide, h.putSide, h.tailAt, h.countOf, h.nodup, h.knows⟩

variable [DecidableEq M]

/-- Storing a message appends it to the list to put to. -/
theorem Lists.putStore (h : Lists links getHead putHead putTail msgCnt getter .whole gets puts)
    (hgetter : holdsPut getter = false) {msg : M} (hmsg : msg ∉ gets ++ puts)
    (hempty : links (.of msg) = none) :
    Lists (Function.update links putTail (some msg)) getHead putHead putTail msgCnt getter
      (.stored msg) gets (puts ++ [msg]) := by
  have htail : putTail = lastLink .of putHead puts := h.tailAt
  have hne := of_ne_head h.isHead
  have hputs : ∀ m ∈ puts, m ∉ gets := by
    intro m hm hgets
    exact (List.nodup_append.mp h.nodup).2.2 m hgets m hm rfl
  have hchain : Chain .of (Function.update links putTail (some msg)) putHead (puts ++ [msg]) := by
    rw [htail]
    rw [List.mem_append, not_or] at hmsg
    exact h.putSide.append of_injective (List.nodup_append.mp h.nodup).2.1
      (fun m _ => (hne m).1) hmsg.2 (hne msg).1 hempty
  have hplace : putTail ≠ putHead.other ∧ ∀ m ∈ gets, putTail ≠ .of m := by
    rw [htail]
    rcases lastLink_cases .of putHead puts with ⟨-, hlast⟩ | ⟨n, hn, hlast⟩
    · rw [hlast]
      exact ⟨(other_ne h.isHead).symm, fun m _ => (hne m).1.symm⟩
    · rw [hlast]
      refine ⟨(hne n).2, ?_⟩
      intro m hm hsame
      obtain rfl := of_injective hsame
      exact hputs n hn hm
  refine ⟨h.isHead, ?_, hchain, ⟨puts, rfl, htail⟩, ?_, ?_, ?_⟩
  · have hside := h.getSide
    rw [GetSide] at hside ⊢
    split
    · rename_i head hhead
      simp only [hhead] at hside
      obtain ⟨hget, rfl, hspare, hnone⟩ := hside
      exact ⟨hget, rfl, by rw [Function.update_of_ne hplace.1.symm]; exact hspare, hnone⟩
    · rename_i hhead
      simp only [hhead] at hside
      obtain ⟨rfl, hget⟩ := hside
      exact ⟨rfl, hget.update hplace.1 hplace.2 _⟩
  · rw [CountOf, List.length_append, List.length_singleton]
    exact congrArg (· + 1) h.countOf
  · rw [← List.append_assoc]
    refine List.nodup_append.mpr ⟨h.nodup, List.nodup_singleton msg, ?_⟩
    intro m hm n hn
    obtain rfl := List.mem_singleton.mp hn
    rintro rfl
    exact hmsg hm
  · have hknows := h.knows
    cases getter with
    | swapPutHead head cnt => cases hgetter
    | _ => exact hknows

/-- Unlinking the first message of the list to get from. -/
theorem Lists.getUnlink {msg first : M}
    (h : Lists links getHead putHead putTail msgCnt (getUnlink msg) phase gets puts)
    (hfirst : links getHead = some first) :
    ∃ rest, gets = msg :: rest ∧
      Lists (Function.update links getHead (links (.of first))) getHead putHead putTail msgCnt
        (getUnlock (some msg)) phase rest puts := by
  obtain ⟨rfl, hchain⟩ := h.getChain rfl
  obtain ⟨rest, rfl, -⟩ := hchain.eq_cons hfirst
  obtain rfl : first = msg := Option.some.inj h.knows
  have hne := of_ne_head h.isHead
  refine ⟨rest, rfl, h.isHead, ⟨rfl, hchain.tail fun n _ => (hne n).2⟩, ?_, h.tailAt, h.countOf,
    (List.nodup_cons.mp h.nodup).2, trivial⟩
  exact h.putSide.update (other_ne h.isHead) (fun m _ => (hne m).2.symm) _

end ListSteps

/-! ### The invariant -/

/-- The message that a call has not stored yet. -/
def putting : MsgqueuePc M → Option M
  | putLock msg => some msg
  | putTest msg => some msg
  | putWait msg => some msg
  | putStore msg => some msg
  | _ => none

theorem held_of_putting {pc : MsgqueuePc M} {msg : M} (h : putting pc = some msg) :
    held pc = some msg := by
  cases pc <;> first | exact h | cases h

def ownerPc (owner : Option T) (pc : T → MsgqueuePc M) : MsgqueuePc M := owner.elim idle pc

/-- Every reachable queue. -/
structure Inv (queue : Msgqueue T M) (gets puts : List M) : Prop where
  locks : Locks queue
  lists : Lists queue.links queue.getHead queue.putHead queue.putTail queue.msgCnt
    (ownerPc queue.getMutex queue.pc) (putPhase (ownerPc queue.putMutex queue.pc)) gets puts
  history : queue.puts = queue.gots ++ (gets ++ puts)
  heldOut : ∀ t msg, held (queue.pc t) = some msg → msg ∉ gets ++ puts
  heldOnce : ∀ t u msg, held (queue.pc t) = some msg → held (queue.pc u) = some msg → t = u
  cleared : ∀ t msg, putting (queue.pc t) = some msg → queue.links (.of msg) = none

theorem Inv.queued_eq {queue : Msgqueue T M} {gets puts : List M} (h : Inv queue gets puts) :
    queue.queued = gets ++ puts := by
  rw [queued, h.history, List.drop_left]

theorem inv_create (maxlen : Nat) : Inv (msgqueueCreate maxlen : Msgqueue T M) [] [] where
  locks := ⟨fun t => iff_of_false (by rintro ⟨⟩) (by rintro ⟨⟩),
    fun t => iff_of_false (by rintro ⟨⟩) (by rintro ⟨⟩)⟩
  lists := ⟨.inr rfl, ⟨rfl, rfl⟩, rfl, rfl, rfl, List.nodup_nil, trivial⟩
  history := rfl
  heldOut := by
    intro t msg h
    cases h
  heldOnce := by
    intro t u msg h
    cases h
  cleared := by
    intro t msg h
    cases h

section Steps

variable [DecidableEq T] {queue middle next : Msgqueue T M} {t : T} {pc pc' : MsgqueuePc M}

theorem ownerPc_self {owner : Option T} (h : owner = some t) (pcs : T → MsgqueuePc M) :
    ownerPc owner (Function.update pcs t pc') = pc' := by
  rw [h]
  exact Function.update_self _ _ _

theorem ownerPc_other {owner : Option T} (h : owner ≠ some t) (pcs : T → MsgqueuePc M) :
    ownerPc owner (Function.update pcs t pc') = ownerPc owner pcs := by
  cases owner with
  | none => rfl
  | some u =>
      have hne : u ≠ t := by
        rintro rfl
        exact h rfl
      exact Function.update_of_ne hne _ _

/-- Where a thread stands if it holds the mutex. -/
def seen (H : MsgqueuePc M → Bool) (pc : MsgqueuePc M) : MsgqueuePc M := if H pc then pc else idle

/-- The owner of a mutex stands where it stood, or it is the thread that goes on
before and after that. -/
theorem MutexMove.ownerPc {H : MsgqueuePc M → Bool} {pcs : T → MsgqueuePc M}
    {owner owner' : Option T} (h : ∀ u, H (pcs u) = true ↔ owner = some u)
    (hmove : MutexMove t owner owner' (H (pcs t)) (H pc')) :
    (H (pcs t) = false ∧ H pc' = false ∧
      Msgqueue.ownerPc owner' (Function.update pcs t pc') = Msgqueue.ownerPc owner pcs) ∨
    (Msgqueue.ownerPc owner pcs = seen H (pcs t) ∧
      Msgqueue.ownerPc owner' (Function.update pcs t pc') = seen H pc') := by
  cases hbefore : H (pcs t) with
  | true =>
      have howner := (h t).mp hbefore
      rw [hbefore, howner] at hmove
      refine .inr ⟨?_, ?_⟩
      · rw [howner, seen, hbefore]
        rfl
      · rw [seen]
        generalize H pc' = holds' at hmove
        cases hmove with
        | keep hsame =>
            rw [hsame]
            exact ownerPc_self rfl _
        | unlock => rfl
  | false =>
      rw [hbefore] at hmove
      have hnot : owner ≠ some t := by
        intro howner
        rw [(h t).mpr howner] at hbefore
        cases hbefore
      cases hafter : H pc' with
      | false =>
          rw [hafter] at hmove
          refine .inl ⟨rfl, rfl, ?_⟩
          cases hmove with
          | keep => exact ownerPc_other hnot _
          | unlock hheld => cases hheld
      | true =>
          rw [hafter] at hmove
          cases hmove with
          | keep hsame => cases hsame
          | lock =>
              refine .inr ⟨?_, ?_⟩
              · rw [seen, hbefore]
                rfl
              · rw [seen, hafter]
                exact ownerPc_self rfl _

/-- A call keeps its message or lets go of it. -/
theorem heldOut_goto {pcs : T → MsgqueuePc M} {inside : List M}
    (h : ∀ u msg, held (pcs u) = some msg → msg ∉ inside)
    (hheld : ∀ msg, held pc' = some msg → msg ∉ inside) (u : T) (msg : M)
    (hmsg : held (Function.update pcs t pc' u) = some msg) : msg ∉ inside := by
  by_cases hsame : u = t
  · subst hsame
    rw [Function.update_self] at hmsg
    exact hheld msg hmsg
  · rw [Function.update_of_ne hsame] at hmsg
    exact h u msg hmsg

theorem heldOnce_goto {pcs : T → MsgqueuePc M}
    (h : ∀ u v msg, held (pcs u) = some msg → held (pcs v) = some msg → u = v)
    (hheld : ∀ msg, held pc' = some msg → ∀ u, u ≠ t → held (pcs u) ≠ some msg) (u v : T) (msg : M)
    (hu : held (Function.update pcs t pc' u) = some msg)
    (hv : held (Function.update pcs t pc' v) = some msg) : u = v := by
  by_cases hut : u = t
  · subst hut
    rw [Function.update_self] at hu
    by_cases hvt : v = u
    · exact hvt.symm
    · rw [Function.update_of_ne hvt] at hv
      exact absurd hv (hheld msg hu v hvt)
  · rw [Function.update_of_ne hut] at hu
    by_cases hvt : v = t
    · subst hvt
      rw [Function.update_self] at hv
      exact absurd hu (hheld msg hv u hut)
    · rw [Function.update_of_ne hvt] at hv
      exact h u v msg hu hv

theorem cleared_goto (t : T) (pc' : MsgqueuePc M) {pcs : T → MsgqueuePc M}
    {links : MsgLink M → Option M} (h : ∀ u msg, putting (pcs u) = some msg → links (.of msg) = none)
    (hputting : ∀ msg, putting pc' = some msg → links (.of msg) = none) (u : T) (msg : M)
    (hmsg : putting (Function.update pcs t pc' u) = some msg) : links (.of msg) = none := by
  by_cases hsame : u = t
  · subst hsame
    rw [Function.update_self] at hmsg
    exact hputting msg hmsg
  · rw [Function.update_of_ne hsame] at hmsg
    exact h u msg hmsg

variable [DecidableEq M] {gets puts : List M}

/-- The places whose statement writes a pointer, the count or a record. -/
def writesLists : MsgqueuePc M → Bool
  | putStore _ | putAdvance _ | putCount | swapBegin | swapPutHead _ _ | swapPutTail _ _
  | swapReset _ | getUnlink _ => true
  | _ => false

/-- A statement that writes nothing but where its thread stands and who holds
the mutexes. -/
structure Passes (queue middle : Msgqueue T M) (pc pc' : MsgqueuePc M) : Prop where
  links : middle.links = queue.links
  getHead : middle.getHead = queue.getHead
  putHead : middle.putHead = queue.putHead
  putTail : middle.putTail = queue.putTail
  msgCnt : middle.msgCnt = queue.msgCnt
  puts : middle.puts = queue.puts
  gots : middle.gots = queue.gots
  held : held pc' = held pc ∨ held pc' = none
  putting : putting pc' = putting pc ∨ putting pc' = none
  spare : spare (seen holdsGet pc') = spare (seen holdsGet pc)
  phase : putPhase (seen holdsPut pc') = putPhase (seen holdsPut pc)

theorem Statement.passes (h : Statement queue t pc pc' middle) (hquiet : writesLists pc = false) :
    Passes queue middle pc pc' := by
  cases h with
  | putStore | putAdvance | putCount | swapBegin | swapPutHead | swapPutTail | swapReset
  | getUnlink => cases hquiet
  | getUnlock => exact ⟨rfl, rfl, rfl, rfl, rfl, rfl, rfl, .inr rfl, .inl rfl, rfl, rfl⟩
  | swapCount => split <;> exact ⟨rfl, rfl, rfl, rfl, rfl, rfl, rfl, .inl rfl, .inl rfl, rfl, rfl⟩
  | swapUnlock => split <;> exact ⟨rfl, rfl, rfl, rfl, rfl, rfl, rfl, .inl rfl, .inl rfl, rfl, rfl⟩
  | _ => exact ⟨rfl, rfl, rfl, rfl, rfl, rfl, rfl, .inl rfl, .inl rfl, rfl, rfl⟩

theorem Inv.quiet (h : Inv queue gets puts) (hpc : queue.pc t = pc)
    (hstatement : Statement queue t pc pc' middle) (hquiet : writesLists pc = false)
    (hknows : Knows queue.putHead (seen holdsGet pc') gets puts) :
    Inv (middle.goto t pc') gets puts := by
  subst hpc
  have hpasses := hstatement.passes hquiet
  obtain ⟨hgetMove, hputMove⟩ := hstatement.mutexMoves
  refine ⟨locks_statement h.locks hstatement, ?_, ?_, ?_, ?_, ?_⟩
  · simp only [goto, hpasses.links, hpasses.getHead, hpasses.putHead, hpasses.putTail,
      hpasses.msgCnt, hstatement.pc_eq]
    have hphases : putPhase (ownerPc middle.putMutex (Function.update queue.pc t pc'))
        = putPhase (ownerPc queue.putMutex queue.pc) := by
      rcases hputMove.ownerPc h.locks.put with ⟨-, -, hsame⟩ | ⟨hbefore, hafter⟩
      · rw [hsame]
      · rw [hbefore, hafter, hpasses.phase]
    rw [hphases]
    rcases hgetMove.ownerPc h.locks.get with ⟨-, -, hsame⟩ | ⟨hbefore, hafter⟩
    · rw [hsame]
      exact h.lists
    · rw [hafter]
      refine h.lists.goOn ?_ hknows
      rw [hbefore, hpasses.spare]
  · simp only [goto, hpasses.puts, hpasses.gots]
    exact h.history
  · simp only [goto, hstatement.pc_eq]
    refine heldOut_goto h.heldOut ?_
    intro msg hmsg
    rcases hpasses.held with hsame | hnone
    · exact h.heldOut t msg (hsame ▸ hmsg)
    · rw [hnone] at hmsg
      cases hmsg
  · simp only [goto, hstatement.pc_eq]
    refine heldOnce_goto h.heldOnce ?_
    intro msg hmsg u hne hu
    rcases hpasses.held with hsame | hnone
    · exact hne (h.heldOnce u t msg hu (hsame ▸ hmsg))
    · rw [hnone] at hmsg
      cases hmsg
  · simp only [goto, hstatement.pc_eq, hpasses.links]
    refine cleared_goto _ _ h.cleared ?_
    intro msg hmsg
    rcases hpasses.putting with hsame | hnone
    · exact h.cleared t msg (hsame ▸ hmsg)
    · rw [hnone] at hmsg
      cases hmsg

/-- The other parts of the invariant after a statement that writes. -/
theorem Inv.writes (h : Inv queue gets puts) (hpc : queue.pc t = pc)
    (hstatement : Statement queue t pc pc' middle) {gets' puts' : List M} {getter : MsgqueuePc M} {phase : PutPhase M}
    (hlists : Lists middle.links middle.getHead middle.putHead middle.putTail middle.msgCnt getter
      phase gets' puts')
    (hgetter : ownerPc middle.getMutex (Function.update queue.pc t pc') = getter)
    (hphase : putPhase (ownerPc middle.putMutex (Function.update queue.pc t pc')) = phase)
    (hhistory : middle.puts = middle.gots ++ (gets' ++ puts'))
    (hheldOut : ∀ u msg, held (Function.update queue.pc t pc' u) = some msg →
      msg ∉ gets' ++ puts')
    (hheldOnce : ∀ msg, held pc' = some msg → ∀ u, u ≠ t → held (queue.pc u) ≠ some msg)
    (hcleared : ∀ u msg, putting (Function.update queue.pc t pc' u) = some msg →
      middle.links (.of msg) = none) :
    Inv (middle.goto t pc') gets' puts' := by
  subst hpc
  refine ⟨locks_statement h.locks hstatement, ?_, hhistory, ?_, ?_, ?_⟩
  · simp only [goto, hstatement.pc_eq, hgetter, hphase]
    exact hlists
  · simp only [goto, hstatement.pc_eq]
    exact hheldOut
  · simp only [goto, hstatement.pc_eq]
    exact heldOnce_goto h.heldOnce hheldOnce
  · simp only [goto, hstatement.pc_eq]
    exact hcleared

omit [DecidableEq T] [DecidableEq M] in
/-- The thread that puts, and what the one that gets does not hold then. -/
theorem Inv.putter (h : Inv queue gets puts) (hput : holdsPut (queue.pc t) = true)
    (hget : holdsGet (queue.pc t) = false) :
    ownerPc queue.putMutex queue.pc = queue.pc t ∧ queue.getMutex ≠ some t ∧
      holdsPut (ownerPc queue.getMutex queue.pc) = false := by
  have howner := (h.locks.put t).mp hput
  have hnot : queue.getMutex ≠ some t := by
    intro hgetter
    rw [(h.locks.get t).mpr hgetter] at hget
    cases hget
  refine ⟨by rw [howner]; rfl, hnot, ?_⟩
  cases hgetter : queue.getMutex with
  | none => rfl
  | some u =>
      rw [Bool.eq_false_iff]
      intro hholds
      have hu := (h.locks.put u).mp hholds
      rw [howner] at hu
      obtain rfl := Option.some.inj hu
      exact hnot hgetter

omit [DecidableEq M] in
/-- Nothing is held anew. -/
theorem held_none {pc : MsgqueuePc M} (hheld : held pc = none) {inside : List M} :
    ∀ msg, held pc = some msg → msg ∉ inside := by
  intro msg hmsg
  rw [hheld] at hmsg
  cases hmsg

/-- A statement of the thread that holds `put_mutex` on the list to put to. -/
theorem Inv.putStore {msg : M} (h : Inv queue gets puts) (hpc : queue.pc t = putStore msg) :
    Inv ({ queue with
      links := Function.update queue.links queue.putTail (some msg)
      puts := queue.puts ++ [msg] }.goto t (putAdvance msg)) gets (puts ++ [msg]) := by
  obtain ⟨hputter, hnot, hgetter⟩ := h.putter (t := t) (by rw [hpc]; rfl) (by rw [hpc]; rfl)
  have howner := (h.locks.put t).mp (by rw [hpc]; rfl)
  have hheld : held (queue.pc t) = some msg := by
    rw [hpc]
    rfl
  have hmsg := h.heldOut t msg hheld
  have hlists := h.lists
  rw [hputter, hpc] at hlists
  have hstored := hlists.putStore hgetter hmsg (h.cleared t msg (by rw [hpc]; rfl))
  refine h.writes hpc .putStore hstored (ownerPc_other hnot _) ?_ ?_ ?_ ?_ ?_
  · rw [ownerPc_self howner]
    rfl
  · dsimp only
    rw [h.history]
    simp
  · have hout : ∀ u m, held (Function.update queue.pc t (putAdvance msg) u) = some m →
        m ∉ gets ++ puts := heldOut_goto h.heldOut (held_none rfl)
    intro u m hm hmem
    rw [← List.append_assoc, List.mem_append] at hmem
    rcases hmem with hmem | hmem
    · exact hout u m hm hmem
    · obtain rfl := List.mem_singleton.mp hmem
      by_cases hsame : u = t
      · subst hsame
        rw [Function.update_self] at hm
        cases hm
      · rw [Function.update_of_ne hsame] at hm
        exact hsame (h.heldOnce u t m hm hheld)
  · intro m hm
    cases hm
  · intro u m hm
    have hputting := cleared_goto t (putAdvance msg) h.cleared (by rintro m ⟨⟩) u m hm
    dsimp only
    rw [Function.update_of_ne]
    · exact hputting
    · intro hplace
      have hheldm : held (Function.update queue.pc t (putAdvance msg) u) = some m :=
        held_of_putting hm
      have hout := heldOut_goto h.heldOut (held_none rfl) u m hheldm
      have htail : queue.putTail = lastLink .of queue.putHead puts := hlists.tailAt
      rw [htail] at hplace
      rcases lastLink_cases .of queue.putHead puts with ⟨-, hlast⟩ | ⟨n, hn, hlast⟩
      · exact (of_ne_head h.lists.isHead m).1 (hplace.trans hlast)
      · rw [hlast] at hplace
        obtain rfl := of_injective hplace
        exact hout (List.mem_append_right gets hn)

/-- A statement that writes a pointer or the count of the queue. -/
theorem Inv.pointers (h : Inv queue gets puts) (hpc : queue.pc t = pc)
    (hstatement : Statement queue t pc pc' middle) {gets' puts' : List M}
    {getter : MsgqueuePc M} {phase : PutPhase M}
    (hlists : Lists middle.links middle.getHead middle.putHead middle.putTail middle.msgCnt getter
      phase gets' puts')
    (hgetter : ownerPc middle.getMutex (Function.update queue.pc t pc') = getter)
    (hphase : putPhase (ownerPc middle.putMutex (Function.update queue.pc t pc')) = phase)
    (hlinks : middle.links = queue.links) (hsame : gets' ++ puts' = gets ++ puts)
    (hputs : middle.puts = queue.puts) (hgots : middle.gots = queue.gots)
    (hheld : held pc' = none) : Inv (middle.goto t pc') gets' puts' := by
  refine h.writes hpc hstatement hlists hgetter hphase ?_ ?_ ?_ ?_
  · rw [hputs, hgots, hsame]
    exact h.history
  · rw [hsame]
    exact heldOut_goto h.heldOut (held_none hheld)
  · intro msg hmsg
    rw [hheld] at hmsg
    cases hmsg
  · rw [hlinks]
    refine cleared_goto _ _ h.cleared ?_
    intro msg hmsg
    rw [held_of_putting hmsg] at hheld
    cases hheld

/-- Unlinking the message that `msgqueue_get` returns. -/
theorem Inv.getUnlink {msg first : M} (h : Inv queue gets puts)
    (hpc : queue.pc t = .getUnlink msg) (hfirst : queue.links queue.getHead = some first) :
    ∃ rest, Inv ({ queue with
      links := Function.update queue.links queue.getHead (queue.links (.of first))
      gots := queue.gots ++ [msg] }.goto t (getUnlock (some msg))) rest puts := by
  have howner := (h.locks.get t).mp (by rw [hpc]; rfl)
  have hgetter : ownerPc queue.getMutex queue.pc = .getUnlink msg := by
    rw [howner]
    exact hpc
  have hnot : queue.putMutex ≠ some t := by
    intro hput
    have hholds := (h.locks.put t).mpr hput
    rw [hpc] at hholds
    cases hholds
  have hlists := h.lists
  rw [hgetter] at hlists
  obtain ⟨rest, rfl, hrest⟩ := hlists.getUnlink hfirst
  obtain ⟨hfresh, hnodup⟩ := List.nodup_cons.mp hlists.nodup
  have hin : msg ∈ (msg :: rest) ++ puts := by simp
  refine ⟨rest, h.writes hpc (.getUnlink hfirst) hrest (ownerPc_self howner _) ?_ ?_ ?_ ?_ ?_⟩
  · rw [ownerPc_other hnot]
  · dsimp only
    rw [h.history]
    simp
  · refine heldOut_goto ?_ ?_
    · intro u m hm hmem
      exact h.heldOut u m hm (List.mem_cons_of_mem msg hmem)
    · intro m hm
      obtain rfl := Option.some.inj hm
      exact hfresh
  · intro m hm u _ hu
    obtain rfl := Option.some.inj hm
    exact h.heldOut u msg hu hin
  · intro u m hm
    have hputting := cleared_goto t (getUnlock (some msg)) h.cleared
      (by rintro m ⟨⟩) u m hm
    have hne := of_ne_head h.lists.isHead m
    obtain ⟨hother, -⟩ := hlists.getChain rfl
    dsimp only
    rw [Function.update_of_ne]
    · exact hputting
    · rw [hother]
      exact hne.2

omit [DecidableEq T] [DecidableEq M] in
/-- The lists as the thread sees them that holds `get_mutex`. -/
theorem Inv.getterLists (h : Inv queue gets puts) (hpc : queue.pc t = pc)
    (hget : holdsGet pc = true) :
    queue.getMutex = some t ∧
      Lists queue.links queue.getHead queue.putHead queue.putTail queue.msgCnt pc
        (putPhase (ownerPc queue.putMutex queue.pc)) gets puts := by
  subst hpc
  have howner := (h.locks.get t).mp hget
  have hlists := h.lists
  rw [howner] at hlists
  exact ⟨howner, hlists⟩

omit [DecidableEq T] [DecidableEq M] in
/-- The lists as the thread sees them that swaps them. -/
theorem Inv.swapperLists (h : Inv queue gets puts) (hpc : queue.pc t = pc)
    (hget : holdsGet pc = true) (hput : holdsPut pc = true) :
    queue.getMutex = some t ∧ queue.putMutex = some t ∧
      Lists queue.links queue.getHead queue.putHead queue.putTail queue.msgCnt pc (putPhase pc)
        gets puts := by
  obtain ⟨hgetMutex, hlists⟩ := h.getterLists hpc hget
  subst hpc
  have howner := (h.locks.put t).mp hput
  rw [howner] at hlists
  exact ⟨hgetMutex, howner, hlists⟩

/-- What the thread with `get_mutex` knows after a statement that writes
nothing. -/
theorem Inv.knows (h : Inv queue gets puts) (hpc : queue.pc t = pc)
    (hstatement : Statement queue t pc pc' middle) (hquiet : writesLists pc = false) :
    Knows queue.putHead (seen holdsGet pc') gets puts := by
  cases hstatement with
  | putStore | putAdvance | putCount | swapBegin | swapPutHead | swapPutTail | swapReset
  | getUnlink => cases hquiet
  | @getSome msg hsome =>
      have hchain := ((h.getterLists hpc rfl).2.getChain rfl).2
      obtain ⟨rest, rfl, -⟩ := hchain.eq_cons hsome
      exact List.cons_ne_nil msg rest
  | getNone hnone => exact ((h.getterLists hpc rfl).2.getChain rfl).2.eq_nil hnone
  | swapCount => exact (h.swapperLists hpc rfl rfl).2.2.countOf
  | @swapUnlock cnt =>
      have hcnt : cnt = gets.length := (h.getterLists hpc rfl).2.knows
      split
      · rename_i hpos
        rintro rfl
        rw [hcnt] at hpos
        exact absurd hpos (Nat.lt_irrefl 0)
      · trivial
  | @getTake msg hsome =>
      have hchain := ((h.getterLists hpc rfl).2.getChain rfl).2
      obtain ⟨rest, rfl, -⟩ := hchain.eq_cons hsome
      rfl
  | _ => trivial

/-- `put_tail` and the count are written by the thread that puts. -/
theorem Inv.putPointers (h : Inv queue gets puts) (hpc : queue.pc t = pc)
    (hstatement : Statement queue t pc pc' middle) (hput : holdsPut pc = true)
    (hget : holdsGet pc = false)
    (hlists : ∀ getter, Lists queue.links queue.getHead queue.putHead queue.putTail queue.msgCnt
      getter (putPhase pc) gets puts →
      Lists middle.links middle.getHead middle.putHead middle.putTail middle.msgCnt getter
        (putPhase pc') gets puts)
    (hmutexes : middle.getMutex = queue.getMutex ∧ middle.putMutex = queue.putMutex)
    (hlinks : middle.links = queue.links) (hputs : middle.puts = queue.puts)
    (hgots : middle.gots = queue.gots) (hheld : held pc' = none) :
    Inv (middle.goto t pc') gets puts := by
  obtain ⟨hputter, hnot, -⟩ := h.putter (t := t) (by rw [hpc, hput]) (by rw [hpc, hget])
  have howner := (h.locks.put t).mp (by rw [hpc, hput])
  have hbefore := h.lists
  rw [hputter, hpc] at hbefore
  refine h.pointers hpc hstatement (hlists _ hbefore) ?_ ?_ hlinks rfl hputs hgots hheld
  · rw [hmutexes.1]
    exact ownerPc_other hnot _
  · rw [hmutexes.2, ownerPc_self howner]

/-- `put_head`, `put_tail` and the count are written by the thread that swaps. -/
theorem Inv.swapPointers (h : Inv queue gets puts) (hpc : queue.pc t = pc)
    (hstatement : Statement queue t pc pc' middle) (hget : holdsGet pc = true)
    (hput : holdsPut pc = true) {gets' puts' : List M}
    (hlists : Lists middle.links middle.getHead middle.putHead middle.putTail middle.msgCnt pc'
      (putPhase pc') gets' puts')
    (hmutexes : middle.getMutex = queue.getMutex ∧ middle.putMutex = queue.putMutex)
    (hlinks : middle.links = queue.links) (hsame : gets' ++ puts' = gets ++ puts)
    (hputs : middle.puts = queue.puts) (hgots : middle.gots = queue.gots)
    (hheld : held pc' = none) : Inv (middle.goto t pc') gets' puts' := by
  obtain ⟨hgetMutex, hputMutex, -⟩ := h.swapperLists hpc hget hput
  refine h.pointers hpc hstatement hlists ?_ ?_ hlinks hsame hputs hgots hheld
  · rw [hmutexes.1]
    exact ownerPc_self hgetMutex _
  · rw [hmutexes.2, ownerPc_self hputMutex]

/-- `get_head` moves to the list to put to, which the thread does not hold yet. -/
theorem Inv.swapBegin (h : Inv queue gets puts) (hpc : queue.pc t = swapBegin) :
    Inv ({ queue with getHead := queue.putHead }.goto t (swapLock queue.getHead)) gets puts := by
  have hnot : queue.putMutex ≠ some t := by
    intro howner
    have hholds := (h.locks.put t).mpr howner
    rw [hpc] at hholds
    cases hholds
  obtain ⟨hgetMutex, hlists⟩ := h.getterLists hpc rfl
  refine h.pointers hpc .swapBegin hlists.swapBegin (ownerPc_self hgetMutex _) ?_ rfl rfl rfl rfl
    rfl
  rw [ownerPc_other hnot]

/-- A statement keeps the invariant. -/
theorem inv_statement (h : Inv queue gets puts) (hpc : queue.pc t = pc)
    (hstatement : Statement queue t pc pc' middle) :
    ∃ gets' puts', Inv (middle.goto t pc') gets' puts' := by
  cases hwrites : writesLists pc with
  | false =>
      have hknows := h.knows hpc hstatement hwrites
      exact ⟨gets, puts, h.quiet hpc hstatement hwrites hknows⟩
  | true =>
      cases hstatement with
      | putStore => exact ⟨gets, _, h.putStore hpc⟩
      | putAdvance =>
          exact ⟨gets, puts, h.putPointers hpc .putAdvance rfl rfl
            (fun _ hlists => hlists.putAdvance) ⟨rfl, rfl⟩ rfl rfl rfl rfl⟩
      | putCount =>
          exact ⟨gets, puts, h.putPointers hpc .putCount rfl rfl
            (fun _ hlists => hlists.putCount) ⟨rfl, rfl⟩ rfl rfl rfl rfl⟩
      | swapBegin => exact ⟨gets, puts, h.swapBegin hpc⟩
      | swapPutHead =>
          obtain ⟨hnone, hswapped⟩ := (h.swapperLists hpc rfl rfl).2.2.swapPutHead
          exact ⟨puts, [], h.swapPointers hpc .swapPutHead rfl rfl hswapped ⟨rfl, rfl⟩ rfl
            (by rw [hnone]; simp) rfl rfl rfl⟩
      | swapPutTail =>
          have hlists := (h.swapperLists hpc rfl rfl).2.2.swapPutTail
          exact ⟨gets, puts, h.swapPointers hpc .swapPutTail rfl rfl hlists ⟨rfl, rfl⟩ rfl rfl rfl
            rfl rfl⟩
      | swapReset =>
          have hlists := (h.swapperLists hpc rfl rfl).2.2.swapReset
          exact ⟨gets, puts, h.swapPointers hpc .swapReset rfl rfl hlists ⟨rfl, rfl⟩ rfl rfl rfl
            rfl rfl⟩
      | getUnlink hfirst =>
          obtain ⟨rest, hrest⟩ := h.getUnlink hpc hfirst
          exact ⟨rest, puts, hrest⟩
      | _ => cases hwrites

omit [DecidableEq M] in
/-- A thread enters a function of the queue. -/
theorem Inv.enters (h : Inv queue gets puts) (hpc : queue.pc t = idle)
    (hget : holdsGet pc' = false) (hput : holdsPut pc' = false)
    (hheldOut : ∀ msg, held pc' = some msg → msg ∉ gets ++ puts ∧ ∀ u, held (queue.pc u) ≠ some msg)
    {links : MsgLink M → Option M} {nonblock : Bool}
    (hlists : Lists links queue.getHead queue.putHead queue.putTail queue.msgCnt
      (ownerPc queue.getMutex queue.pc) (putPhase (ownerPc queue.putMutex queue.pc)) gets puts)
    (hcleared : ∀ u msg, putting (Function.update queue.pc t pc' u) = some msg →
      links (.of msg) = none) :
    Inv ({ queue with links := links, nonblock := nonblock }.goto t pc') gets puts := by
  have hgetNot : queue.getMutex ≠ some t := by
    intro howner
    have hholds := (h.locks.get t).mpr howner
    rw [hpc] at hholds
    cases hholds
  have hputNot : queue.putMutex ≠ some t := by
    intro howner
    have hholds := (h.locks.put t).mpr howner
    rw [hpc] at hholds
    cases hholds
  refine ⟨?_, ?_, h.history, ?_, ?_, hcleared⟩
  · refine h.locks.goto rfl ?_ ?_
    · rw [hpc, hget]
      exact .keep rfl
    · rw [hpc, hput]
      exact .keep rfl
  · simp only [goto, ownerPc_other hgetNot, ownerPc_other hputNot]
    exact hlists
  · exact heldOut_goto h.heldOut fun msg hmsg => (hheldOut msg hmsg).1
  · exact heldOnce_goto h.heldOnce fun msg hmsg u _ => (hheldOut msg hmsg).2 u

/-- An action keeps the invariant. -/
theorem inv_step (h : Inv queue gets puts) {action : Action T M} (hallowed : queue.Allowed action)
    (hstep : queue.step action = some next) : ∃ gets' puts', Inv next gets' puts' := by
  cases action with
  | put t msg =>
      rw [step] at hstep
      split at hstep
      · rename_i hpc
        obtain rfl := Option.some.inj hstep
        obtain ⟨hqueued, hheld⟩ := hallowed
        rw [h.queued_eq] at hqueued
        refine ⟨gets, puts, h.enters hpc rfl rfl ?_ (h.lists.clear hqueued) ?_⟩
        · rintro m hm
          obtain rfl := Option.some.inj hm
          exact ⟨hqueued, hheld⟩
        · refine cleared_goto _ _ ?_ ?_
          · intro u m hm
            have hne : m ≠ msg := by
              rintro rfl
              exact hheld u (held_of_putting hm)
            rw [Function.update_of_ne (fun hsame => hne (of_injective hsame))]
            exact h.cleared u m hm
          · intro m hm
            obtain rfl := Option.some.inj hm
            exact Function.update_self _ _ _
      · cases hstep
  | get t =>
      rw [step] at hstep
      split at hstep
      · rename_i hpc
        obtain rfl := Option.some.inj hstep
        refine ⟨gets, puts, h.enters hpc rfl rfl (by rintro m ⟨⟩) h.lists ?_⟩
        exact cleared_goto _ _ h.cleared (by rintro m ⟨⟩)
      · cases hstep
  | setNonblock t =>
      rw [step] at hstep
      split at hstep
      · rename_i hpc
        obtain rfl := Option.some.inj hstep
        refine ⟨gets, puts, h.enters hpc rfl rfl (by rintro m ⟨⟩) h.lists ?_⟩
        exact cleared_goto _ _ h.cleared (by rintro m ⟨⟩)
      · cases hstep
  | setBlock t =>
      rw [step] at hstep
      split at hstep
      · obtain rfl := Option.some.inj hstep
        exact ⟨gets, puts, ⟨h.locks.get, h.locks.put⟩, h.lists, h.history, h.heldOut, h.heldOnce,
          h.cleared⟩
      · cases hstep
  | run t =>
      obtain ⟨pc', middle, hstatement, rfl⟩ := advance_statement hstep
      exact inv_statement h rfl hstatement
  | wake t =>
      rw [step] at hstep
      split at hstep
      · obtain rfl := Option.some.inj hstep
        exact ⟨gets, puts, ⟨h.locks.get, h.locks.put⟩, h.lists, h.history, h.heldOut, h.heldOnce,
          h.cleared⟩
      · cases hstep

/-- Every queue that a run leads to. -/
theorem inv_runs {maxlen : Nat} {actions : List (Action T M)}
    (hactions : Run.Admissible Allowed step (msgqueueCreate maxlen) actions)
    (hrun : Run.runs step (msgqueueCreate maxlen) actions = some queue) :
    ∃ gets puts, Inv queue gets puts := by
  refine @Run.runs_preserves _ _ Allowed step (fun queue => ∃ gets puts, Inv queue gets puts) ?_
    actions (msgqueueCreate maxlen) queue ⟨[], [], inv_create maxlen⟩ hactions hrun
  rintro state action next ⟨gets, puts, hinv⟩ hallowed hstep
  exact inv_step hinv hallowed hstep

/-- A thread cannot go on: it calls nothing, or waits for a mutex or a signal. -/
def Blocked (queue : Msgqueue T M) (t : T) : Prop :=
  match queue.pc t with
  | idle => True
  | getLock => queue.getMutex ≠ none
  | putLock _ => queue.putMutex ≠ none
  | swapLock _ => queue.putMutex ≠ none
  | nonblockLock => queue.putMutex ≠ none
  | putWait _ => queue.woken t = false ∨ queue.putMutex ≠ none
  | swapWait _ => queue.woken t = false ∨ queue.putMutex ≠ none
  | _ => False

omit [DecidableEq M] in
theorem lockPut_eq_none_iff : queue.lockPut t pc' = none ↔ queue.putMutex ≠ none := by
  rw [lockPut]
  split <;> simp_all

/-- Nothing else keeps a thread from going on: no null pointer is followed. -/
theorem Inv.advance_eq_none_iff (h : Inv queue gets puts) (t : T) :
    queue.advance t = none ↔ queue.Blocked t := by
  have hgetter : holdsGet (queue.pc t) = true → ownerPc queue.getMutex queue.pc = queue.pc t := by
    intro hholds
    rw [(h.locks.get t).mp hholds]
    rfl
  have hlists := h.lists
  unfold advance Blocked
  cases hpc : queue.pc t with
  | putLock msg => exact lockPut_eq_none_iff
  | swapLock head => exact lockPut_eq_none_iff
  | nonblockLock => exact lockPut_eq_none_iff
  | putWait msg => cases hwoken : queue.woken t <;> simp [lockPut_eq_none_iff]
  | swapWait head => cases hwoken : queue.woken t <;> simp [lockPut_eq_none_iff]
  | getLock =>
      dsimp only
      split <;> simp_all
  | getTake =>
      rw [hgetter (by rw [hpc]; rfl), hpc] at hlists
      have hne : gets ≠ [] := hlists.knows
      obtain ⟨-, hchain⟩ := hlists.getChain rfl
      cases gets with
      | nil => exact absurd rfl hne
      | cons msg rest => simp [hchain.1]
  | getUnlink msg =>
      rw [hgetter (by rw [hpc]; rfl), hpc] at hlists
      have hhead : gets.head? = some msg := hlists.knows
      obtain ⟨-, hchain⟩ := hlists.getChain rfl
      cases gets with
      | nil => cases hhead
      | cons msg rest => simp [hchain.1]
  | putTest msg =>
      dsimp only
      split <;> simp
  | swapTest head =>
      dsimp only
      split <;> simp
  | getTest =>
      dsimp only
      split <;> simp
  | _ => simp

/-- Whatever the order in which the threads go on, the messages handed out are
the first of those stored, in their order; the thread that takes one takes the
oldest; `msg_cnt` is zero where a swap tests it exactly when no message is left;
and a thread stops only to wait. -/
theorem msgqueue_fifo (maxlen : Nat) (actions : List (Action T M))
    (hactions : Run.Admissible Allowed step (msgqueueCreate maxlen) actions)
    (queue : Msgqueue T M) (hrun : Run.runs step (msgqueueCreate maxlen) actions = some queue) :
    queue.gots <+: queue.puts ∧
      (∀ t msg, queue.pc t = .getUnlink msg → queue.queued.head? = some msg) ∧
      (∀ t head, queue.pc t = swapTest head → (queue.msgCnt = 0 ↔ queue.queued = [])) ∧
      ∀ t, queue.advance t = none ↔ queue.Blocked t := by
  obtain ⟨gets, puts, hinv⟩ := inv_runs hactions hrun
  have hgetter : ∀ t, holdsGet (queue.pc t) = true →
      ownerPc queue.getMutex queue.pc = queue.pc t := by
    intro t hholds
    rw [(hinv.locks.get t).mp hholds]
    rfl
  refine ⟨⟨gets ++ puts, hinv.history.symm⟩, ?_, ?_, hinv.advance_eq_none_iff⟩
  · intro t msg hpc
    have hlists := hinv.lists
    rw [hgetter t (by rw [hpc]; rfl), hpc] at hlists
    have hhead : gets.head? = some msg := hlists.knows
    rw [hinv.queued_eq, List.head?_append, hhead]
    rfl
  · intro t head hpc
    have hlists := hinv.lists
    have hputter : ownerPc queue.putMutex queue.pc = queue.pc t := by
      rw [(hinv.locks.put t).mp (by rw [hpc]; rfl)]
      rfl
    rw [hgetter t (by rw [hpc]; rfl), hputter, hpc] at hlists
    obtain ⟨-, -, -, hnone⟩ : GetSide _ _ _ _ _ := hlists.getSide
    have hcount : queue.msgCnt = puts.length := hlists.countOf
    rw [hinv.queued_eq, hnone, hcount, List.nil_append, List.length_eq_zero_iff]

/-- A thread gets while another puts: it sleeps, is woken and takes the
message. -/
theorem msgqueue_fifo_two :
    ∃ queue : Msgqueue (Fin 2) Nat, Run.runs step (msgqueueCreate 0)
        (.get 0 :: List.replicate 5 (.run 0) ++ .put 1 7 :: List.replicate 7 (.run 1) ++
          List.replicate 9 (.run 0)) = some queue ∧
      queue.gots = [7] ∧ queue.gots <+: queue.puts ∧ queue.pc 0 = .getUnlock (some 7) := by
  have hobserved : (Run.runs step (msgqueueCreate 0 : Msgqueue (Fin 2) Nat)
      (.get 0 :: List.replicate 5 (.run 0) ++ .put 1 7 :: List.replicate 7 (.run 1) ++
        List.replicate 9 (.run 0))).map (fun queue => (queue.gots, queue.pc 0))
      = some ([7], .getUnlock (some 7)) := by decide +kernel
  obtain ⟨queue, hrun, hqueue⟩ := Option.map_eq_some_iff.mp hobserved
  obtain ⟨hgots, hpc⟩ := Prod.mk.inj hqueue
  exact ⟨queue, hrun, hgots, (msgqueue_fifo 0 _ (by decide +kernel) queue hrun).1, hpc⟩

end Steps

end TinyMqtt.Msgqueue
