import TinyMqtt.Ev.TimerHeap
import TinyMqtt.Lib.Run

/-!
The storage of the timer heap. `tmq_timer_heap_init` allocates room for 16
pointers and one byte, but the slots are used from 1 on, and slot 16 is no
longer inside; the `realloc` that should come next asks for bytes where
pointers are meant.
-/

namespace TinyMqtt

open BinaryHeap LinkedList Run

/-- A timer with its expiry goes in, or the first one comes out. -/
inductive TimerHeapOp where
  | insert (timer : Addr) (expire : Int)
  | pop
  deriving DecidableEq, Repr

abbrev TimerHeapRun := (Addr → Option Int) × TimerHeap

def timerHeapStep (run : TimerHeapRun) : TimerHeapOp → Option TimerHeapRun
  | .insert timer expire =>
      let expires := Function.update run.1 timer (some expire)
      (TimerHeap.timerHeapInsert expires run.2 timer).map fun (heap, _) => (expires, heap)
  | .pop => (TimerHeap.timerHeapPop run.1 run.2).map fun (heap, _) => (run.1, heap)

/-- A timer goes in only when it is not the sixteenth or a later one. -/
def TimerHeapOp.Fits (run : TimerHeapRun) : TimerHeapOp → Prop
  | .insert _ _ => run.2.size + 1 < timerHeapInitialSize
  | .pop => True

instance (access : SlotAccess) : Decidable access.Inside :=
  inferInstanceAs (Decidable (_ ≤ _))

namespace TimerHeap

/-- Every slot that was accessed lay inside the allocation of that time. -/
def StaysInside (heap : TimerHeap) : Prop := ∀ access ∈ heap.accesses, access.Inside

instance (heap : TimerHeap) : Decidable heap.StaysInside :=
  inferInstanceAs (Decidable (∀ access ∈ heap.accesses, access.Inside))

/-- Nothing but the first allocation was needed so far. -/
structure Initial (heap : TimerHeap) : Prop where
  cap : heap.cap = timerHeapInitialSize
  allocated : heap.allocated = sizeofPointer * timerHeapInitialSize + 1
  size : heap.size < timerHeapInitialSize
  inside : heap.StaysInside

theorem init_initial (garbage : Nat → Addr) : (init garbage).Initial :=
  ⟨rfl, rfl, Nat.succ_pos _, fun _ h => absurd h List.not_mem_nil⟩

theorem Initial.grow {heap : TimerHeap} (h : heap.Initial) : heap.grow = heap := by
  have hne : heap.size ≠ heap.cap := by
    rw [h.cap]
    exact h.size.ne
  exact if_neg hne

/-- Fifteen slots lie inside. -/
theorem Initial.touched {before after : TimerHeap} {bound : Nat} (h : before.Initial)
    (htouched : before.Touched after bound) (hbound : bound < timerHeapInitialSize)
    (hsize : after.size < timerHeapInitialSize) : after.Initial := by
  refine ⟨htouched.cap.trans h.cap, htouched.allocated.trans h.allocated, hsize, ?_⟩
  obtain ⟨more, hmore, hinside⟩ := htouched.accesses
  intro access hmem
  rw [hmore] at hmem
  rcases List.mem_append.mp hmem with hmem | hmem
  · exact h.inside access hmem
  · obtain ⟨⟨-, hindex⟩, hallocated⟩ := hinside access hmem
    rw [SlotAccess.Inside, hallocated, h.allocated]
    rw [timerHeapInitialSize] at hbound ⊢
    rw [sizeofPointer]
    omega

end TimerHeap

/-- The slots that a call touches: an insertion goes up to the slot behind the
last one, and touches that. -/
def TimerHeapOp.Touches (run next : TimerHeapRun) : TimerHeapOp → Prop
  | .insert _ _ => next.2.size = run.2.size + 1 ∧
      run.2.grow.Touched next.2 (run.2.size + 1) ∧
      ⟨run.2.size + 1, run.2.grow.allocated⟩ ∈ next.2.accesses
  | .pop => next.2.size ≤ run.2.size ∧ run.2.Touched next.2 run.2.size

/-- Every step has a result, and the timers in the heap keep their expiries. -/
theorem timerHeapStep_live {run : TimerHeapRun} (hlive : TimerHeap.Live run.1 run.2.timers)
    (op : TimerHeapOp) :
    ∃ next, timerHeapStep run op = some next ∧ TimerHeap.Live next.1 next.2.timers ∧
      op.Touches run next := by
  obtain ⟨expires, heap⟩ := run
  cases op with
  | insert timer expire =>
      have hlive' : TimerHeap.Live (Function.update expires timer (some expire))
          (timer ::ₘ heap.timers) := by
        intro other hmem
        by_cases hsame : other = timer
        · exact ⟨expire, by rw [hsame, Function.update_self]⟩
        · rw [Function.update_of_ne hsame]
          exact hlive other ((Multiset.mem_cons.mp hmem).resolve_left hsame)
      obtain ⟨after, changed, hinsert, hsize, htouched, haccess, htimers, -, -⟩ :=
        TimerHeap.timerHeapInsert_spec hlive'
      refine ⟨(Function.update expires timer (some expire), after), ?_, ?_, hsize, htouched,
        haccess⟩
      · simp only [timerHeapStep, hinsert, Option.map_some]
      · rwa [← htimers] at hlive'
  | pop =>
      rcases Nat.eq_zero_or_pos heap.size with hzero | hpos
      · refine ⟨(expires, heap), ?_, hlive, le_rfl, TimerHeap.Touched.refl heap _⟩
        simp [timerHeapStep, TimerHeap.timerHeapPop, hzero]
      · obtain ⟨after, hpop, hsize, htouched, htimers, -⟩ :=
          TimerHeap.timerHeapPop_spec hpos hlive
        refine ⟨(expires, after), ?_, ?_, ?_, htouched⟩
        · simp only [timerHeapStep, hpop, Option.map_some]
        · intro timer hmem
          exact hlive timer (htimers ▸ Multiset.mem_cons_of_mem hmem)
        · change after.size ≤ heap.size
          omega

/-- Along every sequence of insertions and removals, every slot that is accessed
lies inside the allocation just when no timer goes in while fifteen or more are
there. -/
theorem timerHeap_staysInside_iff (garbage : Nat → Addr) (ops : List TimerHeapOp) :
    (∃ final, runs timerHeapStep (fun _ => none, TimerHeap.init garbage) ops = some final) ∧
      ((∀ earlier, earlier <+: ops → ∀ run,
          runs timerHeapStep (fun _ => none, TimerHeap.init garbage) earlier = some run →
          run.2.StaysInside) ↔
        Admissible TimerHeapOp.Fits timerHeapStep (fun _ => none, TimerHeap.init garbage) ops) := by
  have hany : ∀ start : TimerHeapRun, Admissible (fun _ _ => True) timerHeapStep start ops :=
    admissible_of_forall fun _ _ _ => trivial
  have hlive : TimerHeap.Live (fun _ => none) (TimerHeap.init garbage).timers :=
    fun timer hmem => absurd hmem (Multiset.notMem_zero timer)
  have hdefined := @runs_invariant _ _ (fun _ _ => True) timerHeapStep
    (fun run => TimerHeap.Live run.1 run.2.timers)
    (fun run op h _ => by
      obtain ⟨next, hnext, hlive, -⟩ := timerHeapStep_live h op
      exact ⟨next, hnext, hlive⟩) ops (fun _ => none, TimerHeap.init garbage) hlive (hany _)
  obtain ⟨final, hrun, -⟩ := hdefined
  refine ⟨⟨final, hrun⟩, ?_⟩
  apply @runs_always_iff_of_admissible _ _ (fun _ _ => True) TimerHeapOp.Fits timerHeapStep
    (fun run => TimerHeap.Live run.1 run.2.timers ∧ run.2.Initial)
    (fun run => run.2.StaysInside) (fun run h => h.2.inside) _ _ _ _ _ (hany _)
    ⟨hlive, TimerHeap.init_initial garbage⟩ hrun
  · rintro run op next ⟨hlive, hinitial⟩ _ hfits hstep
    obtain ⟨next', hnext, hlive', hdone⟩ := timerHeapStep_live hlive op
    obtain rfl := Option.some.inj (hnext.symm.trans hstep)
    refine ⟨hlive', ?_⟩
    cases op with
    | insert timer expire =>
        obtain ⟨hsize, htouched, -⟩ := hdone
        rw [hinitial.grow] at htouched
        exact hinitial.touched htouched hfits (hsize.symm ▸ hfits)
    | pop =>
        obtain ⟨hsize, htouched⟩ := hdone
        exact hinitial.touched htouched hinitial.size (hsize.trans_lt hinitial.size)
  · rintro run op next ⟨hlive, hinitial⟩ _ hstep hfits hinside
    obtain ⟨next', hnext, -, hdone⟩ := timerHeapStep_live hlive op
    obtain rfl := Option.some.inj (hnext.symm.trans hstep)
    cases op with
    | insert timer expire =>
        obtain ⟨-, -, haccess⟩ := hdone
        have hlast : (run.2.size + 1 + 1) * sizeofPointer ≤ run.2.grow.allocated :=
          hinside _ haccess
        rw [hinitial.grow, hinitial.allocated] at hlast
        have hmany : ¬ run.2.size + 1 < timerHeapInitialSize := hfits
        rw [timerHeapInitialSize] at hmany hlast
        rw [sizeofPointer] at hlast
        omega
    | pop => exact hfits trivial

/-- Sixteen timers: the sixteenth is written to bytes 128 to 135 of 129. -/
theorem not_staysInside_sixteen : ∃ final,
    runs timerHeapStep (fun _ => none, TimerHeap.init fun _ => 0)
        ((List.range 16).map fun i => .insert i i) = some final ∧
      ¬ final.2.StaysInside := by
  have hleaves : (runs timerHeapStep (fun _ => none, TimerHeap.init fun _ => 0)
      ((List.range 16).map fun i => .insert i i)).map
        (fun run => decide run.2.StaysInside) = some false := by
    decide +kernel
  obtain ⟨final, hrun, hfalse⟩ := Option.map_eq_some_iff.mp hleaves
  exact ⟨final, hrun, of_decide_eq_false hfalse⟩

end TinyMqtt
