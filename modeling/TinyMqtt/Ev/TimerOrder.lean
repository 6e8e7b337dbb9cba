import TinyMqtt.Ev.TimerStorage

/-!
The timer heap over whole histories: what goes in and comes out of it, and in
which order. The array of the model has every slot, so this is the heap as it
is where its storage suffices.
-/

namespace TinyMqtt

open BinaryHeap LinkedList Run

inductive TimerHeapResult where
  | changed (first : Bool)
  | popped (timer : Option Addr)
  deriving DecidableEq, Repr

def timerHeapCall (run : TimerHeapRun) : TimerHeapOp → Option (TimerHeapRun × TimerHeapResult)
  | .insert timer expire =>
      let expires := Function.update run.1 timer (some expire)
      (TimerHeap.timerHeapInsert expires run.2 timer).map
        fun (heap, changed) => ((expires, heap), .changed changed)
  | .pop =>
      (TimerHeap.timerHeapPop run.1 run.2).map fun (heap, timer) => ((run.1, heap), .popped timer)

abbrev TimerHistory := TimerHeapRun × List (TimerHeapOp × TimerHeapResult)

def timerHistoryStep (history : TimerHistory) (op : TimerHeapOp) : Option TimerHistory :=
  (timerHeapCall history.1 op).map fun (next, result) => (next, history.2 ++ [(op, result)])

def insertedBy : TimerHeapOp × TimerHeapResult → Option Addr
  | (.insert timer _, _) => some timer
  | (.pop, _) => none

def poppedBy : TimerHeapOp × TimerHeapResult → Option Addr
  | (.pop, .popped timer) => timer
  | _ => none

def inserted (calls : List (TimerHeapOp × TimerHeapResult)) : Multiset Addr :=
  calls.filterMap insertedBy

def popped (calls : List (TimerHeapOp × TimerHeapResult)) : Multiset Addr :=
  calls.filterMap poppedBy

theorem inserted_concat (calls : List (TimerHeapOp × TimerHeapResult))
    (call : TimerHeapOp × TimerHeapResult) :
    inserted (calls ++ [call]) = inserted calls + (insertedBy call).toList := by
  rw [inserted, List.filterMap_append, ← Multiset.coe_add]
  cases h : insertedBy call <;> simp [inserted, h]

theorem popped_concat (calls : List (TimerHeapOp × TimerHeapResult))
    (call : TimerHeapOp × TimerHeapResult) :
    popped (calls ++ [call]) = popped calls + (poppedBy call).toList := by
  rw [popped, List.filterMap_append, ← Multiset.coe_add]
  cases h : poppedBy call <;> simp [popped, h]

/-- A timer that is in the heap is not given another expiry. -/
def TimerHeapOp.KeepsExpiry (history : TimerHistory) : TimerHeapOp → Prop
  | .insert timer expire => timer ∈ history.1.2.timers → history.1.1 timer = some expire
  | .pop => True

instance (history : TimerHistory) (op : TimerHeapOp) : Decidable (op.KeepsExpiry history) :=
  match op with
  | .insert timer expire =>
      inferInstanceAs (Decidable (timer ∈ history.1.2.timers → history.1.1 timer = some expire))
  | .pop => inferInstanceAs (Decidable True)

def TimerHeap.top (heap : TimerHeap) : Option Addr :=
  if 0 < heap.size then some (heap.slot 1) else none

/-- What a call has to return: whether the first timer is another one, or a
timer that expires no later than any other. -/
def TimerHeapOp.Returns (before after : TimerHeapRun) : TimerHeapOp → TimerHeapResult → Prop
  | .insert _ _, .changed first => first = true ↔ after.2.top ≠ before.2.top
  | .pop, .popped none => before.2.timers = 0
  | .pop, .popped (some timer) => timer ∈ before.2.timers ∧
      ∀ other ∈ before.2.timers, ∃ expire expire', before.1 timer = some expire ∧
        before.1 other = some expire' ∧ expire ≤ expire'
  | _, _ => False

/-- The heap is in order, and its timers are those that went in and did not
come out. -/
structure TimerHistory.InOrder (history : TimerHistory) : Prop where
  live : TimerHeap.Live history.1.1 history.1.2.timers
  ordered : Ordered (TimerHeap.expireKey history.1.1) history.1.2.slot history.1.2.size
  balance : inserted history.2 = history.1.2.timers + popped history.2

/-- The result of an insertion compares the first timer with the one before. -/
theorem TimerHeap.timerHeapInsert_changed {expire : Addr → Option Int} {heap after : TimerHeap}
    {timer : Addr} {changed : Bool}
    (h : timerHeapInsert expire heap timer = some (after, changed)) :
    changed = true ↔ some (after.slot 1) ≠ heap.top := by
  obtain ⟨next, htop, -, -, -⟩ := heap.grow.oriTop_spec
  rw [grow_slot, grow_size] at htop
  rw [timerHeapInsert, htop] at h
  obtain ⟨swum, -, hresult⟩ := Option.bind_eq_some_iff.mp h
  obtain ⟨rfl, rfl⟩ := Prod.mk.inj (Option.some.inj hresult)
  exact decide_eq_true_iff

theorem TimerHeap.timers_eq_zero {heap : TimerHeap} : heap.timers = 0 ↔ heap.size = 0 := by
  constructor
  · intro h
    by_contra hne
    have hmem : heap.slot 1 ∈ heap.timers := mem_timers.mpr ⟨1, by omega, rfl⟩
    rw [h] at hmem
    exact Multiset.notMem_zero _ hmem
  · intro h
    rw [timers, h, contents_zero]

/-- An insertion. -/
theorem TimerHistory.InOrder.insert {history : TimerHistory} (h : history.InOrder) {timer : Addr}
    {expire : Int} (hkeeps : TimerHeapOp.KeepsExpiry history (.insert timer expire)) :
    ∃ after result, timerHeapCall history.1 (.insert timer expire) = some (after, result) ∧
      TimerHistory.InOrder (after, history.2 ++ [(.insert timer expire, result)]) ∧
      TimerHeapOp.Returns history.1 after (.insert timer expire) result := by
  obtain ⟨⟨expires, heap⟩, calls⟩ := history
  have hsame : ∀ other ∈ heap.timers,
      Function.update expires timer (some expire) other = expires other := by
    intro other hmem
    by_cases hother : other = timer
    · subst hother
      rw [Function.update_self]
      exact (hkeeps hmem).symm
    · exact Function.update_of_ne hother _ _
  have hlive : TimerHeap.Live (Function.update expires timer (some expire))
      (timer ::ₘ heap.timers) := by
    intro other hmem
    rcases Multiset.mem_cons.mp hmem with rfl | hmem
    · exact ⟨expire, Function.update_self _ _ _⟩
    · rw [hsame other hmem]
      exact h.live other hmem
  have hordered : Ordered (TimerHeap.expireKey (Function.update expires timer (some expire)))
      heap.slot heap.size := by
    apply h.ordered.congr
    intro other hmem
    rw [TimerHeap.expireKey, hsame other hmem]
    rfl
  obtain ⟨after, changed, hinsert, hsize, -, -, htimers, -, horder⟩ :=
    TimerHeap.timerHeapInsert_spec hlive
  refine ⟨(Function.update expires timer (some expire), after), .changed changed, ?_,
    ⟨?_, horder hordered, ?_⟩, ?_⟩
  · simp only [timerHeapCall, hinsert, Option.map_some]
  · rwa [← htimers] at hlive
  · rw [inserted_concat, popped_concat, h.balance]
    change heap.timers + popped calls + {timer} = after.timers + (popped calls + 0)
    rw [htimers, add_zero, add_right_comm, add_comm heap.timers, Multiset.singleton_add]
  · have htop : TimerHeap.top after = some (after.slot 1) := if_pos (by omega)
    change changed = true ↔ TimerHeap.top after ≠ TimerHeap.top heap
    rw [htop]
    exact TimerHeap.timerHeapInsert_changed hinsert

/-- A removal. -/
theorem TimerHistory.InOrder.pop {history : TimerHistory} (h : history.InOrder) :
    ∃ after result, timerHeapCall history.1 .pop = some (after, result) ∧
      TimerHistory.InOrder (after, history.2 ++ [(.pop, result)]) ∧
      TimerHeapOp.Returns history.1 after .pop result := by
  obtain ⟨⟨expires, heap⟩, calls⟩ := history
  rcases Nat.eq_zero_or_pos heap.size with hzero | hpos
  · refine ⟨(expires, heap), .popped none, ?_, ⟨h.live, h.ordered, ?_⟩,
      TimerHeap.timers_eq_zero.mpr hzero⟩
    · simp [timerHeapCall, TimerHeap.timerHeapPop, hzero]
    · rw [inserted_concat, popped_concat, h.balance]
      exact add_assoc _ _ _
  · obtain ⟨after, hpop, hsize, -, htimers, horder⟩ := TimerHeap.timerHeapPop_spec hpos h.live
    have hmem : heap.slot 1 ∈ heap.timers := htimers ▸ Multiset.mem_cons_self _ _
    refine ⟨(expires, after), .popped (some (heap.slot 1)), ?_, ⟨?_, horder h.ordered, ?_⟩,
      hmem, ?_⟩
    · simp only [timerHeapCall, hpop, Option.map_some]
    · intro timer hmem
      exact h.live timer (htimers ▸ Multiset.mem_cons_of_mem hmem)
    · rw [inserted_concat, popped_concat, h.balance]
      change heap.timers + popped calls + 0 = after.timers + (popped calls + {heap.slot 1})
      rw [← htimers, add_zero, ← Multiset.singleton_add, add_comm {heap.slot 1}, add_assoc,
        add_comm {heap.slot 1}]
    · intro other hother
      obtain ⟨expire, hexpire⟩ := h.live _ hmem
      obtain ⟨expire', hexpire'⟩ := h.live other hother
      have hle := h.ordered.root_le_of_mem hother
      rw [TimerHeap.expireKey_eq hexpire, TimerHeap.expireKey_eq hexpire'] at hle
      exact ⟨expire, expire', hexpire, hexpire', hle⟩

theorem timerHistoryStep_inOrder {history : TimerHistory} (h : history.InOrder) {op : TimerHeapOp}
    (hkeeps : op.KeepsExpiry history) :
    ∃ after result, timerHeapCall history.1 op = some (after, result) ∧
      TimerHistory.InOrder (after, history.2 ++ [(op, result)]) ∧
      op.Returns history.1 after result := by
  cases op with
  | insert timer expire => exact h.insert hkeeps
  | pop => exact h.pop

def timerHistoryStart (garbage : Nat → Addr) : TimerHistory :=
  ((fun _ => none, TimerHeap.init garbage), [])

theorem timerHistoryStart_inOrder (garbage : Nat → Addr) : (timerHistoryStart garbage).InOrder where
  live := fun timer hmem => absurd hmem (Multiset.notMem_zero timer)
  ordered := ordered_of_size_le_one (Nat.zero_le 1)
  balance := rfl

/-- Along every sequence of insertions and removals the heap stays in order,
holds what went in and did not come out, and every call returns what it has
to. -/
theorem timerHeap_order (garbage : Nat → Addr) {ops : List TimerHeapOp}
    (hops : Admissible TimerHeapOp.KeepsExpiry timerHistoryStep (timerHistoryStart garbage) ops) :
    (∃ final, runs timerHistoryStep (timerHistoryStart garbage) ops = some final ∧
        final.InOrder) ∧
      ∀ earlier op, earlier ++ [op] <+: ops →
        ∃ before after result,
          runs timerHistoryStep (timerHistoryStart garbage) earlier = some before ∧
          before.InOrder ∧ timerHeapCall before.1 op = some (after, result) ∧
          op.Returns before.1 after result := by
  have hstep : ∀ history op, TimerHistory.InOrder history → TimerHeapOp.KeepsExpiry history op →
      ∃ next, timerHistoryStep history op = some next ∧ next.InOrder := by
    intro history op h hkeeps
    obtain ⟨after, result, hcall, hinOrder, -⟩ := timerHistoryStep_inOrder h hkeeps
    exact ⟨(after, history.2 ++ [(op, result)]), by simp [timerHistoryStep, hcall], hinOrder⟩
  refine ⟨runs_invariant hstep (timerHistoryStart_inOrder garbage) hops, ?_⟩
  intro earlier op hprefix
  obtain ⟨before, hrun, hinOrder, hkeeps⟩ :=
    runs_before hstep (timerHistoryStart_inOrder garbage) hops hprefix
  obtain ⟨after, result, hcall, -, hreturns⟩ := timerHistoryStep_inOrder hinOrder hkeeps
  exact ⟨before, after, result, hrun, hinOrder, hcall, hreturns⟩

/-- Three timers, of which the second one comes out first. -/
theorem timerHeap_order_three :
    ∃ final, runs timerHistoryStep (timerHistoryStart fun _ => 0)
        [.insert 1 30, .insert 2 10, .insert 3 20, .pop] = some final ∧
      final.InOrder ∧ final.2.map Prod.snd
        = [.changed true, .changed true, .changed false, .popped (some 2)] := by
  obtain ⟨⟨final, hrun, hinOrder⟩, -⟩ := @timerHeap_order (fun _ => 0)
    [.insert 1 30, .insert 2 10, .insert 3 20, .pop] (by decide +kernel)
  have hresults : (runs timerHistoryStep (timerHistoryStart fun _ => 0)
      [.insert 1 30, .insert 2 10, .insert 3 20, .pop]).map
        (fun history => history.2.map Prod.snd)
      = some [.changed true, .changed true, .changed false, .popped (some 2)] := by
    decide +kernel
  exact ⟨final, hrun, hinOrder, observe_eq hrun hresults⟩

end TinyMqtt
