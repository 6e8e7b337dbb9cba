import TinyMqtt.Lib.BinaryHeap
import TinyMqtt.Lib.LinkedList

/-!
The heap of timers (`timer_heap->heap`): an array of pointers, used from slot 1
on. Every access to a slot is recorded with the size of the allocation at that
time; the contents are kept apart from it, as if every slot existed, so that
the order of the heap and the bounds of its storage can be told apart.
-/

namespace TinyMqtt

open BinaryHeap LinkedList

def timerHeapInitialSize : Nat := 16

def sizeofPointer : Nat := 8

def leftChildIdx (i : Nat) : Nat := 2 * i

def rightChildIdx (i : Nat) : Nat := 2 * i + 1

def parentIdx (i : Nat) : Nat := i / 2

/-- A slot that is read or written, and the bytes allocated then. -/
structure SlotAccess where
  index : Nat
  allocated : Nat
  deriving DecidableEq, Repr

def SlotAccess.Inside (access : SlotAccess) : Prop :=
  (access.index + 1) * sizeofPointer ≤ access.allocated

/-- The array of `tmq_timer_heap_t`. -/
structure TimerHeap where
  slot : Nat → Addr
  size : Nat
  cap : Nat
  allocated : Nat
  accesses : List SlotAccess

namespace TimerHeap

/-- The array that `tmq_timer_heap_init` allocates, with what happens to be
there. -/
def init (garbage : Nat → Addr) : TimerHeap :=
  ⟨garbage, 0, timerHeapInitialSize, sizeofPointer * timerHeapInitialSize + 1, []⟩

def read (heap : TimerHeap) (i : Nat) : Addr × TimerHeap :=
  (heap.slot i, { heap with accesses := heap.accesses ++ [⟨i, heap.allocated⟩] })

def write (heap : TimerHeap) (i : Nat) (timer : Addr) : TimerHeap :=
  { heap with
    slot := Function.update heap.slot i timer
    accesses := heap.accesses ++ [⟨i, heap.allocated⟩] }

variable (expire : Addr → Option Int)

/-- The loop of `timer_swim`, and where it stops. -/
def swimLoop (timer : Addr) : Nat → TimerHeap → Nat → Option (TimerHeap × Nat)
  | 0, _, _ => none
  | rounds + 1, heap, idx =>
      let p := parentIdx idx
      if 0 < p then do
        let (parent, heap) := heap.read p
        if (← expire timer) < (← expire parent) then
          let (parent, heap) := heap.read p
          swimLoop timer rounds (heap.write idx parent) p
        else some (heap, idx)
      else some (heap, idx)

def timerSwim (heap : TimerHeap) (idx : Nat) : Option TimerHeap := do
  let (timer, heap) := heap.read idx
  let (heap, idx) ← swimLoop expire timer (idx + 1) heap idx
  some (heap.write idx timer)

/-- The child that `timer_sink` compares with: the right one if there is one
that expires before the left one. -/
def lesserChild (heap : TimerHeap) (idx : Nat) : Option (Nat × TimerHeap) :=
  if rightChildIdx idx ≤ heap.size then do
    let (right, heap) := heap.read (rightChildIdx idx)
    let (child, heap) := heap.read (leftChildIdx idx)
    if (← expire right) < (← expire child) then some (rightChildIdx idx, heap)
    else some (leftChildIdx idx, heap)
  else some (leftChildIdx idx, heap)

/-- The loop of `timer_sink`, and where it stops. -/
def sinkLoop (timer : Addr) : Nat → TimerHeap → Nat → Option (TimerHeap × Nat)
  | 0, _, _ => none
  | rounds + 1, heap, idx =>
      if leftChildIdx idx ≤ heap.size then do
        let (child, heap) ← heap.lesserChild expire idx
        let (node, heap) := heap.read child
        if (← expire node) < (← expire timer) then
          let (node, heap) := heap.read child
          sinkLoop timer rounds (heap.write idx node) child
        else some (heap, idx)
      else some (heap, idx)

def timerSink (heap : TimerHeap) (idx : Nat) : Option TimerHeap :=
  if heap.size = 0 then some heap
  else do
    let (timer, heap) := heap.read idx
    let (heap, idx) ← sinkLoop expire timer (heap.size + 1) heap idx
    some (heap.write idx timer)

/-- The `realloc` of `timer_heap_insert`: the capacity is doubled, and so many
bytes and one more are asked for. -/
def grow (heap : TimerHeap) : TimerHeap :=
  if heap.size = heap.cap then
    { heap with allocated := heap.cap * 2 + 1, cap := heap.cap * 2 }
  else heap

def oriTop (heap : TimerHeap) : Option Addr × TimerHeap :=
  if 0 < heap.size then
    let (top, heap) := heap.read 1
    (some top, heap)
  else (none, heap)

/-- `timer_heap_insert`, and whether another timer is first now. -/
def timerHeapInsert (heap : TimerHeap) (timer : Addr) : Option (TimerHeap × Bool) := do
  let (oriTop, heap) := heap.grow.oriTop
  let heap := { heap with size := heap.size + 1 }
  let heap ← timerSwim expire (heap.write heap.size timer) heap.size
  let (top, heap) := heap.read 1
  some (heap, decide (some top ≠ oriTop))

def timerHeapPop (heap : TimerHeap) : Option (TimerHeap × Option Addr) :=
  if heap.size < 1 then some (heap, none)
  else do
    let (top, heap) := heap.read 1
    let (last, heap) := heap.read heap.size
    let heap := { heap.write 1 last with size := heap.size - 1 }
    let heap ← if 1 < heap.size then timerSink expire heap 1 else some heap
    some (heap, some top)

/-! ### Storage -/

/-- Slots up to `bound` were accessed, in the same allocation. -/
structure Touched (before after : TimerHeap) (bound : Nat) : Prop where
  cap : after.cap = before.cap
  allocated : after.allocated = before.allocated
  accesses : ∃ more, after.accesses = before.accesses ++ more ∧
    ∀ access ∈ more, (1 ≤ access.index ∧ access.index ≤ bound) ∧
      access.allocated = before.allocated

theorem Touched.refl (heap : TimerHeap) (bound : Nat) : heap.Touched heap bound :=
  ⟨rfl, rfl, [], by simp, by simp⟩

theorem Touched.trans {first second third : TimerHeap} {bound bound' : Nat}
    (h : first.Touched second bound) (h' : second.Touched third bound') (hle : bound ≤ bound') :
    first.Touched third bound' := by
  obtain ⟨more, hmore, hinside⟩ := h.accesses
  obtain ⟨more', hmore', hinside'⟩ := h'.accesses
  refine ⟨h'.cap.trans h.cap, h'.allocated.trans h.allocated, more ++ more', ?_, ?_⟩
  · rw [hmore', hmore, List.append_assoc]
  · intro access hmem
    rcases List.mem_append.mp hmem with hmem | hmem
    · obtain ⟨⟨hpos, hindex⟩, hsame⟩ := hinside access hmem
      exact ⟨⟨hpos, hindex.trans hle⟩, hsame⟩
    · obtain ⟨hindex, hsame⟩ := hinside' access hmem
      exact ⟨hindex, hsame.trans h.allocated⟩

theorem touched_read (heap : TimerHeap) {i bound : Nat} (hi : 1 ≤ i ∧ i ≤ bound) :
    heap.Touched (heap.read i).2 bound :=
  ⟨rfl, rfl, [⟨i, heap.allocated⟩], rfl, by simpa using hi⟩

theorem touched_write (heap : TimerHeap) (timer : Addr) {i bound : Nat}
    (hi : 1 ≤ i ∧ i ≤ bound) : heap.Touched (heap.write i timer) bound :=
  ⟨rfl, rfl, [⟨i, heap.allocated⟩], rfl, by simpa using hi⟩

def timers (heap : TimerHeap) : Multiset Addr := contents heap.slot heap.size

theorem mem_timers {heap : TimerHeap} {timer : Addr} :
    timer ∈ heap.timers ↔ ∃ i, (1 ≤ i ∧ i ≤ heap.size) ∧ heap.slot i = timer := mem_contents

/-- All the timers that a loop may look at are there. -/
def Live (timers : Multiset Addr) : Prop := ∀ timer ∈ timers, ∃ at_, expire timer = some at_

variable {expire}

/-- By what the order of the heap is. -/
def expireKey (expire : Addr → Option Int) (timer : Addr) : Int := (expire timer).getD 0

theorem expireKey_eq {timer : Addr} {at_ : Int} (h : expire timer = some at_) :
    expireKey expire timer = at_ := by
  rw [expireKey, h]
  rfl

/-! ### `timer_swim` -/

/-- The loop moves the hole up; what it leaves with `timer` in the hole are the
same timers, in order if they were around the hole. -/
theorem swimLoop_spec {timer : Addr} {rounds : Nat} {heap : TimerHeap} {idx : Nat}
    (hrounds : idx < rounds) (hidx : 1 ≤ idx ∧ idx ≤ heap.size)
    (hlive : Live expire (contents (Function.update heap.slot idx timer) heap.size)) :
    ∃ after stop, swimLoop expire timer rounds heap idx = some (after, stop) ∧
      (1 ≤ stop ∧ stop ≤ heap.size) ∧ after.size = heap.size ∧ heap.Touched after heap.size ∧
      contents (Function.update after.slot stop timer) heap.size
        = contents (Function.update heap.slot idx timer) heap.size ∧
      (UpHole (expireKey expire) heap.slot heap.size idx timer →
        Ordered (expireKey expire) (Function.update after.slot stop timer) heap.size) := by
  induction rounds generalizing heap idx with
  | zero => omega
  | succ rounds ih =>
      by_cases hroot : 0 < parentIdx idx
      · have hdown : parentIdx idx < idx := by
          rw [parentIdx]
          omega
        have hone : 1 < idx := by
          rw [parentIdx] at hroot
          omega
        have hne := hdown.ne
        have hparent : 1 ≤ parentIdx idx ∧ parentIdx idx ≤ heap.size :=
          ⟨hroot, hdown.le.trans hidx.2⟩
        obtain ⟨expireTimer, htimer⟩ := hlive timer
          (mem_contents.mpr ⟨idx, hidx, Function.update_self _ _ _⟩)
        obtain ⟨expireParent, hexpire⟩ := hlive (heap.slot (parentIdx idx))
          (mem_contents.mpr ⟨parentIdx idx, hparent, Function.update_of_ne hne _ _⟩)
        have hkey := expireKey_eq htimer
        have hkeyParent := expireKey_eq hexpire
        have hread := heap.touched_read hparent
        by_cases hlt : expireTimer < expireParent
        · have hmove := @contents_move _ heap.slot _ _ _ hidx hparent hne timer
          have hlive' := hmove.symm ▸ hlive
          let moved := ((heap.read (parentIdx idx)).2.read (parentIdx idx)).2.write idx
            (heap.slot (parentIdx idx))
          obtain ⟨after, stop, hloop, hstop, hsize, htouched, hsame, horder⟩ :=
            @ih moved (parentIdx idx) (by omega) hparent hlive'
          refine ⟨after, stop, ?_, hstop, hsize, ?_, hsame.trans hmove, ?_⟩
          · simp only [swimLoop, hroot, if_true, read, htimer, hexpire, Option.bind_eq_bind,
              Option.bind_some, hlt]
            exact hloop
          · have hread' := hread.trans ((heap.read (parentIdx idx)).2.touched_read hparent) le_rfl
            have hwrite := hread'.trans (touched_write _ (heap.slot (parentIdx idx)) hidx) le_rfl
            exact hwrite.trans htouched le_rfl
          · intro hhole
            exact horder (hhole.move hone hidx.2 (by rwa [hkey, ← parentIdx, hkeyParent]))
        · refine ⟨(heap.read (parentIdx idx)).2, idx, ?_, hidx, rfl, hread, rfl, ?_⟩
          · simp [swimLoop, hroot, read, htimer, hexpire, hlt]
          · intro hhole
            refine hhole.finish fun _ => ?_
            rw [hkey, ← parentIdx, hkeyParent]
            exact not_lt.mp hlt
      · refine ⟨heap, idx, ?_, hidx, rfl, Touched.refl heap _, rfl, ?_⟩
        · simp [swimLoop, hroot]
        · intro hhole
          refine hhole.finish fun hone => ?_
          rw [parentIdx] at hroot
          omega

theorem timerSwim_spec {heap : TimerHeap} {idx : Nat} (hidx : 1 ≤ idx ∧ idx ≤ heap.size)
    (hlive : Live expire heap.timers) :
    ∃ after, timerSwim expire heap idx = some after ∧ after.size = heap.size ∧
      heap.Touched after heap.size ∧ after.timers = heap.timers ∧
      (UpHole (expireKey expire) heap.slot heap.size idx (heap.slot idx) →
        Ordered (expireKey expire) after.slot heap.size) := by
  have hsame : Function.update heap.slot idx (heap.slot idx) = heap.slot :=
    Function.update_eq_self idx heap.slot
  have hread := heap.touched_read hidx
  have hlive' : Live expire (contents (Function.update (heap.read idx).2.slot idx (heap.slot idx))
      (heap.read idx).2.size) := by
    change Live expire (contents (Function.update heap.slot idx (heap.slot idx)) heap.size)
    rwa [hsame]
  obtain ⟨after, stop, hloop, hstop, hsize, htouched, htimers, horder⟩ :=
    @swimLoop_spec _ (heap.slot idx) (idx + 1) (heap.read idx).2 idx (Nat.lt_succ_self idx) hidx
      hlive'
  refine ⟨after.write stop (heap.slot idx), ?_, hsize, ?_, ?_, ?_⟩
  · change (swimLoop expire (heap.slot idx) (idx + 1) (heap.read idx).2 idx).bind _ = _
    rw [hloop]
    rfl
  · exact (hread.trans htouched le_rfl).trans (touched_write after _ hstop) le_rfl
  · change contents (Function.update after.slot stop (heap.slot idx)) after.size = _
    rw [hsize]
    refine htimers.trans ?_
    change contents (Function.update heap.slot idx (heap.slot idx)) heap.size = _
    rw [hsame]
    rfl
  · exact horder

/-! ### `timer_sink` -/

/-- The child that is looked at is one of the two, and none of the others
expires before it. -/
theorem lesserChild_spec {heap : TimerHeap} {idx : Nat} (hidx : 1 ≤ idx)
    (hleft : leftChildIdx idx ≤ heap.size)
    (hlive : ∀ i, i / 2 = idx → i ≤ heap.size → ∃ at_, expire (heap.slot i) = some at_) :
    ∃ child after, heap.lesserChild expire idx = some (child, after) ∧ child / 2 = idx ∧
      child ≤ heap.size ∧ after.slot = heap.slot ∧ after.size = heap.size ∧
      heap.Touched after heap.size ∧
      ∀ i, i / 2 = idx → i ≤ heap.size →
        expireKey expire (heap.slot child) ≤ expireKey expire (heap.slot i) := by
  have hleftHalf : leftChildIdx idx / 2 = idx := by
    rw [leftChildIdx]
    omega
  obtain ⟨expireLeft, hexpireLeft⟩ := hlive _ hleftHalf hleft
  have hpos : 1 ≤ leftChildIdx idx := by
    rw [leftChildIdx]
    omega
  have hchildren : ∀ i, i / 2 = idx → i = leftChildIdx idx ∨ i = rightChildIdx idx := by
    intro i hhalf
    rw [leftChildIdx, rightChildIdx]
    omega
  by_cases hright : rightChildIdx idx ≤ heap.size
  · have hrightHalf : rightChildIdx idx / 2 = idx := by
      rw [rightChildIdx]
      omega
    obtain ⟨expireRight, hexpireRight⟩ := hlive _ hrightHalf hright
    have hkeyLeft := expireKey_eq hexpireLeft
    have hkeyRight := expireKey_eq hexpireRight
    let after := ((heap.read (rightChildIdx idx)).2.read (leftChildIdx idx)).2
    have htouched : heap.Touched after heap.size :=
      (heap.touched_read ⟨Nat.succ_pos _, hright⟩).trans (touched_read _ ⟨hpos, hleft⟩) le_rfl
    by_cases hlt : expireRight < expireLeft
    · refine ⟨rightChildIdx idx, after, ?_, hrightHalf, hright, rfl, rfl, htouched, ?_⟩
      · simp [lesserChild, hright, after, read, hexpireRight, hexpireLeft, hlt]
      · intro i hhalf _
        rcases hchildren i hhalf with rfl | rfl
        · rw [hkeyLeft, hkeyRight]
          exact hlt.le
        · exact le_rfl
    · refine ⟨leftChildIdx idx, after, ?_, hleftHalf, hleft, rfl, rfl, htouched, ?_⟩
      · simp [lesserChild, hright, after, read, hexpireRight, hexpireLeft, hlt]
      · intro i hhalf _
        rcases hchildren i hhalf with rfl | rfl
        · exact le_rfl
        · rw [hkeyLeft, hkeyRight]
          exact not_lt.mp hlt
  · refine ⟨leftChildIdx idx, heap, if_neg hright, hleftHalf, hleft, rfl, rfl,
      Touched.refl heap _, ?_⟩
    intro i hhalf hle
    rcases hchildren i hhalf with rfl | rfl
    · exact le_rfl
    · exact absurd hle hright

/-- The loop moves the hole down; what it leaves with `timer` in the hole are
the same timers, in order if they were around the hole. -/
theorem sinkLoop_spec {timer : Addr} {rounds : Nat} {heap : TimerHeap} {idx : Nat}
    (hrounds : heap.size < rounds + idx) (hidx : 1 ≤ idx ∧ idx ≤ heap.size)
    (hlive : Live expire (contents (Function.update heap.slot idx timer) heap.size)) :
    ∃ after stop, sinkLoop expire timer rounds heap idx = some (after, stop) ∧
      (1 ≤ stop ∧ stop ≤ heap.size) ∧ after.size = heap.size ∧ heap.Touched after heap.size ∧
      contents (Function.update after.slot stop timer) heap.size
        = contents (Function.update heap.slot idx timer) heap.size ∧
      (DownHole (expireKey expire) heap.slot heap.size idx timer →
        Ordered (expireKey expire) (Function.update after.slot stop timer) heap.size) := by
  induction rounds generalizing heap idx with
  | zero => omega
  | succ rounds ih =>
      obtain ⟨expireTimer, htimer⟩ := hlive timer
        (mem_contents.mpr ⟨idx, hidx, Function.update_self _ _ _⟩)
      have hkey := expireKey_eq htimer
      by_cases hleft : leftChildIdx idx ≤ heap.size
      · have hliveBelow : ∀ i, i / 2 = idx → i ≤ heap.size →
            ∃ at_, expire (heap.slot i) = some at_ := by
          intro i hhalf hle
          have hne : i ≠ idx := by omega
          exact hlive _ (mem_contents.mpr ⟨i, by omega, Function.update_of_ne hne _ _⟩)
        obtain ⟨child, next, hchild, hhalf, hle, hslot, hsize, htouched, hleast⟩ :=
          lesserChild_spec hidx.1 hleft hliveBelow
        obtain ⟨expireChild, hexpire⟩ := hliveBelow child hhalf hle
        have hkeyChild := expireKey_eq hexpire
        have hin : 1 ≤ child ∧ child ≤ heap.size := by omega
        have hread : heap.Touched (next.read child).2 heap.size :=
          htouched.trans (touched_read next hin) le_rfl
        by_cases hlt : expireChild < expireTimer
        · have hne : child ≠ idx := by omega
          have hmove := @contents_move _ heap.slot _ _ _ hidx hin hne timer
          have hlive' := hmove.symm ▸ hlive
          let moved := ((next.read child).2.read child).2.write idx (heap.slot child)
          have hmovedSlot : moved.slot = Function.update heap.slot idx (heap.slot child) := by
            change Function.update next.slot idx (heap.slot child) = _
            rw [hslot]
          have hmovedSize : moved.size = heap.size := hsize
          obtain ⟨after, stop, hloop, hstop, hsize', htouched', hsame, horder⟩ := @ih moved child
            (by omega) (hmovedSize.symm ▸ hin) (by rw [hmovedSlot, hmovedSize]; exact hlive')
          rw [hmovedSlot, hmovedSize] at horder
          rw [hmovedSlot, hmovedSize] at hsame
          rw [hmovedSize] at hstop hsize' htouched'
          refine ⟨after, stop, ?_, hstop, hsize', ?_, hsame.trans hmove, ?_⟩
          · have hnode : next.slot child = heap.slot child := by rw [hslot]
            simp only [sinkLoop, hleft, if_true, hchild, read, hnode, hexpire, htimer,
              Option.bind_eq_bind, Option.bind_some, hlt]
            exact hloop
          · have hread' := hread.trans ((next.read child).2.touched_read hin) le_rfl
            have hwrite := hread'.trans (touched_write _ (heap.slot child) hidx) le_rfl
            exact hwrite.trans htouched' le_rfl
          · intro hhole
            have hkeyLt : expireKey expire (heap.slot child) ≤ expireKey expire timer := by
              rw [hkey, hkeyChild]
              exact hlt.le
            exact horder (hhole.move hidx.1 hhalf hle hkeyLt hleast)
        · refine ⟨(next.read child).2, idx, ?_, hidx, hsize, hread, ?_, ?_⟩
          · have hnode : next.slot child = heap.slot child := by rw [hslot]
            simp [sinkLoop, hleft, hchild, read, hnode, hexpire, htimer, hlt]
          · change contents (Function.update next.slot idx timer) heap.size = _
            rw [hslot]
          · intro hhole
            change Ordered _ (Function.update next.slot idx timer) heap.size
            rw [hslot]
            refine hhole.finish fun i hhalf' hle' => ?_
            rw [hkey]
            refine le_trans ?_ (hleast i hhalf' hle')
            rw [hkeyChild]
            exact not_lt.mp hlt
      · refine ⟨heap, idx, ?_, hidx, rfl, Touched.refl heap _, rfl, ?_⟩
        · simp [sinkLoop, hleft]
        · intro hhole
          refine hhole.finish fun i hhalf hle => ?_
          rw [leftChildIdx] at hleft
          omega

theorem timerSink_spec {heap : TimerHeap} {idx : Nat} (hidx : 1 ≤ idx ∧ idx ≤ heap.size)
    (hlive : Live expire heap.timers) :
    ∃ after, timerSink expire heap idx = some after ∧ after.size = heap.size ∧
      heap.Touched after heap.size ∧ after.timers = heap.timers ∧
      (DownHole (expireKey expire) heap.slot heap.size idx (heap.slot idx) →
        Ordered (expireKey expire) after.slot heap.size) := by
  have hsame : Function.update heap.slot idx (heap.slot idx) = heap.slot :=
    Function.update_eq_self idx heap.slot
  have hread := heap.touched_read hidx
  have hlive' : Live expire (contents (Function.update (heap.read idx).2.slot idx (heap.slot idx))
      (heap.read idx).2.size) := by
    change Live expire (contents (Function.update heap.slot idx (heap.slot idx)) heap.size)
    rwa [hsame]
  have hrounds : (heap.read idx).2.size < heap.size + 1 + idx := by
    change heap.size < _
    omega
  obtain ⟨after, stop, hloop, hstop, hsize, htouched, htimers, horder⟩ :=
    sinkLoop_spec hrounds hidx hlive'
  have hne : heap.size ≠ 0 := by omega
  refine ⟨after.write stop (heap.slot idx), ?_, hsize, ?_, ?_, ?_⟩
  · rw [timerSink, if_neg hne]
    change (sinkLoop expire (heap.slot idx) (heap.size + 1) (heap.read idx).2 idx).bind _ = _
    rw [hloop]
    rfl
  · exact (hread.trans htouched le_rfl).trans (touched_write after _ hstop) le_rfl
  · change contents (Function.update after.slot stop (heap.slot idx)) after.size = _
    rw [hsize]
    refine htimers.trans ?_
    change contents (Function.update heap.slot idx (heap.slot idx)) heap.size = _
    rw [hsame]
    rfl
  · exact horder

/-! ### Insertion and removal -/

@[simp] theorem grow_slot (heap : TimerHeap) : heap.grow.slot = heap.slot := by
  unfold grow
  split <;> rfl

@[simp] theorem grow_size (heap : TimerHeap) : heap.grow.size = heap.size := by
  unfold grow
  split <;> rfl

theorem oriTop_spec (heap : TimerHeap) :
    ∃ after, heap.oriTop = (if 0 < heap.size then some (heap.slot 1) else none, after) ∧
      after.slot = heap.slot ∧ after.size = heap.size ∧ heap.Touched after heap.size := by
  by_cases hpos : 0 < heap.size
  · refine ⟨(heap.read 1).2, ?_, rfl, rfl, heap.touched_read ⟨le_rfl, hpos⟩⟩
    simp only [oriTop, hpos, if_true]
    rfl
  · refine ⟨heap, ?_, rfl, rfl, Touched.refl heap _⟩
    simp only [oriTop, hpos, if_false]

/-- The new timer takes its place. When the first one is reported to be the
same as before, it is. -/
theorem timerHeapInsert_spec {heap : TimerHeap} {timer : Addr}
    (hlive : Live expire (timer ::ₘ heap.timers)) :
    ∃ after changed, timerHeapInsert expire heap timer = some (after, changed) ∧
      after.size = heap.size + 1 ∧ heap.grow.Touched after (heap.size + 1) ∧
      ⟨heap.size + 1, heap.grow.allocated⟩ ∈ after.accesses ∧
      after.timers = timer ::ₘ heap.timers ∧
      (changed = false → 0 < heap.size ∧ after.slot 1 = heap.slot 1) ∧
      (Ordered (expireKey expire) heap.slot heap.size →
        Ordered (expireKey expire) after.slot after.size) := by
  obtain ⟨next, htop, hslot, hsize, htouched⟩ := heap.grow.oriTop_spec
  rw [grow_slot, grow_size] at htop
  rw [grow_slot] at hslot
  rw [grow_size] at hsize htouched
  let placed := { next with size := next.size + 1 }.write (next.size + 1) timer
  have hplacedSlot : placed.slot = Function.update heap.slot (heap.size + 1) timer := by
    change Function.update next.slot (next.size + 1) timer = _
    rw [hslot, hsize]
  have hplacedSize : placed.size = heap.size + 1 := congrArg (· + 1) hsize
  have htimers : placed.timers = timer ::ₘ heap.timers := by
    rw [timers, hplacedSlot, hplacedSize, contents_update_succ]
    rfl
  have hidx : 1 ≤ placed.size ∧ placed.size ≤ placed.size := ⟨Nat.le_add_left 1 _, le_rfl⟩
  obtain ⟨swum, hswim, hswumSize, htouchedSwum, htimersSwum, horder⟩ :=
    timerSwim_spec hidx (htimers.symm ▸ hlive)
  have hplaced : heap.grow.Touched placed (heap.size + 1) := by
    have hin : 1 ≤ next.size + 1 ∧ next.size + 1 ≤ heap.size + 1 := by omega
    have hwrite : next.Touched placed (heap.size + 1) :=
      ⟨rfl, rfl, [⟨next.size + 1, next.allocated⟩], rfl, by simpa using hin⟩
    exact htouched.trans hwrite (Nat.le_succ _)
  rw [hplacedSize] at hswumSize htouchedSwum horder
  refine ⟨(swum.read 1).2,
    decide (some (swum.slot 1) ≠ if 0 < heap.size then some (heap.slot 1) else none), ?_,
    hswumSize, ?_, ?_, ?_, ?_, ?_⟩
  · simp only [timerHeapInsert, htop, Option.bind_eq_bind]
    change (timerSwim expire placed placed.size).bind _ = _
    rw [hswim]
    rfl
  · exact (hplaced.trans htouchedSwum le_rfl).trans
      (touched_read swum ⟨le_rfl, Nat.le_add_left 1 _⟩) le_rfl
  · obtain ⟨more, hmore, -⟩ := htouchedSwum.accesses
    change _ ∈ swum.accesses ++ _
    rw [hmore]
    apply List.mem_append_left
    apply List.mem_append_left
    change _ ∈ next.accesses ++ [_]
    rw [hsize, htouched.allocated]
    exact List.mem_concat_self
  · exact htimersSwum.trans htimers
  · intro hsame
    have htopSame := not_not.mp (of_decide_eq_false hsame)
    by_cases hpos : 0 < heap.size
    · rw [if_pos hpos] at htopSame
      exact ⟨hpos, Option.some.inj htopSame⟩
    · rw [if_neg hpos] at htopSame
      exact absurd htopSame (Option.some_ne_none _)
  · intro hordered
    have hfresh : placed.slot (heap.size + 1) = timer := by
      rw [hplacedSlot]
      exact Function.update_self _ _ _
    have hkept : Ordered (expireKey expire) placed.slot heap.size := by
      rw [hplacedSlot]
      intro i hlt hle
      have hne : i ≠ heap.size + 1 := by omega
      have hneParent : i / 2 ≠ heap.size + 1 := by omega
      rw [Function.update_of_ne hne, Function.update_of_ne hneParent]
      exact hordered i hlt hle
    have hdone := horder (hkept.upHole _)
    rw [← hswumSize] at hdone
    exact hdone

/-- The first timer is taken out. -/
theorem timerHeapPop_spec {heap : TimerHeap} (hpos : 0 < heap.size)
    (hlive : Live expire heap.timers) :
    ∃ after, timerHeapPop expire heap = some (after, some (heap.slot 1)) ∧
      after.size + 1 = heap.size ∧ heap.Touched after heap.size ∧
      heap.slot 1 ::ₘ after.timers = heap.timers ∧
      (Ordered (expireKey expire) heap.slot heap.size →
        Ordered (expireKey expire) after.slot after.size) := by
  have hone : ¬ heap.size < 1 := by omega
  let left := { ((heap.read 1).2.read heap.size).2.write 1 (heap.slot heap.size) with
    size := heap.size - 1 }
  have htouched : heap.Touched left heap.size := by
    have hread := (heap.touched_read ⟨le_rfl, hpos⟩).trans
      ((heap.read 1).2.touched_read ⟨hpos, le_rfl⟩) le_rfl
    have hwrite := hread.trans (touched_write _ (heap.slot heap.size) ⟨le_rfl, hpos⟩) le_rfl
    exact ⟨hwrite.cap, hwrite.allocated, hwrite.accesses⟩
  have hsize : left.size + 1 = heap.size := Nat.sub_add_cancel hpos
  have htimers : heap.slot 1 ::ₘ left.timers = heap.timers := by
    have hreplaced := contents_replace_first heap.slot left.size
    rwa [hsize] at hreplaced
  have hliveLeft : Live expire left.timers := by
    intro timer hmem
    exact hlive timer (htimers ▸ Multiset.mem_cons_of_mem hmem)
  by_cases hmany : 1 < left.size
  · obtain ⟨after, hsink, hsizeAfter, htouchedAfter, htimersAfter, horder⟩ :=
      @timerSink_spec _ left 1 ⟨le_rfl, hmany.le⟩ hliveLeft
    refine ⟨after, ?_, ?_, ?_, ?_, ?_⟩
    · simp only [timerHeapPop, hone, if_false]
      refine (if_pos hmany).trans ?_
      change (timerSink expire left 1).bind _ = _
      rw [hsink]
      rfl
    · rw [hsizeAfter, hsize]
    · exact htouched.trans (htouchedAfter.trans (Touched.refl after _) (by omega)) le_rfl
    · rw [htimersAfter, htimers]
    · intro hordered
      have hhole : DownHole (expireKey expire) left.slot left.size 1 (left.slot 1) :=
        hordered.downHole (Nat.sub_le _ _) _ _
      rw [hsizeAfter]
      exact horder hhole
  · refine ⟨left, ?_, hsize, htouched, htimers, fun _ => ordered_of_size_le_one (by omega)⟩
    simp only [timerHeapPop, hone, if_false]
    exact if_neg hmany

end TimerHeap

end TinyMqtt
