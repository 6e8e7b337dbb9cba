import Mathlib.Data.List.Nodup
import Mathlib.Logic.Function.Basic
import Mathlib.Tactic

/-!
Singly linked lists in a heap. A list is described segment by segment: which
cells are met when the `next` links are followed from one pointer until
another one is reached. Removal works on the link that leads to a cell, which
is either the list's own first pointer or the `next` field of the cell before.
-/

namespace LinkedList

abbrev Addr := Nat

structure Node (α : Type*) where
  next : Option Addr
  value : α

abbrev Heap (α : Type*) := Addr → Option (Node α)

/-- A place that holds a pointer to a cell. -/
inductive Link where
  | head
  | next (node : Addr)
  deriving DecidableEq, Repr

variable {α : Type*}

/-- Following `next` from `start` meets the given cells, with the given
values, and then stands at `stop`. -/
def Segment (heap : Heap α) : Option Addr → List (Addr × α) → Option Addr → Prop
  | start, [], stop => start = stop
  | start, (addr, value) :: cells, stop =>
      start = some addr ∧ ∃ next, heap addr = some ⟨next, value⟩ ∧ Segment heap next cells stop

/-- The link that leads to the cell after `cells`, when `link` leads to the
first of them. -/
def Link.after (link : Link) (cells : List (Addr × α)) : Link :=
  match cells.getLast? with
  | none => link
  | some cell => .next cell.1

@[simp] theorem Link.after_nil (link : Link) : link.after ([] : List (Addr × α)) = link := rfl

@[simp] theorem Link.after_concat (link : Link) (cells : List (Addr × α)) (cell : Addr × α) :
    link.after (cells ++ [cell]) = .next cell.1 := by
  simp [Link.after]

theorem segment_append {heap : Heap α} {start stop : Option Addr} {first second : List (Addr × α)} :
    Segment heap start (first ++ second) stop ↔
      ∃ middle, Segment heap start first middle ∧ Segment heap middle second stop := by
  induction first generalizing start with
  | nil => simp [Segment]
  | cons cell cells ih =>
      constructor
      · rintro ⟨hstart, next, hcell, hrest⟩
        obtain ⟨middle, hfirst, hsecond⟩ := ih.mp hrest
        exact ⟨middle, ⟨hstart, next, hcell, hfirst⟩, hsecond⟩
      · rintro ⟨middle, ⟨hstart, next, hcell, hfirst⟩, hsecond⟩
        exact ⟨hstart, next, hcell, ih.mpr ⟨middle, hfirst, hsecond⟩⟩

/-- The cells of a segment are allocated. -/
theorem segment_allocated {heap : Heap α} {start stop : Option Addr} {cells : List (Addr × α)}
    (hseg : Segment heap start cells stop) {addr : Addr} (hmem : addr ∈ cells.map Prod.fst) :
    heap addr ≠ none := by
  induction cells generalizing start with
  | nil => simp at hmem
  | cons cell cells ih =>
      obtain ⟨-, next, hcell, hrest⟩ := hseg
      rcases List.mem_cons.mp hmem with rfl | hmem
      · simp [hcell]
      · exact ih hrest hmem

/-- A segment is determined by its own cells. -/
theorem segment_congr {heap heap' : Heap α} {start stop : Option Addr} {cells : List (Addr × α)}
    (hseg : Segment heap start cells stop)
    (hsame : ∀ addr ∈ cells.map Prod.fst, heap' addr = heap addr) :
    Segment heap' start cells stop := by
  induction cells generalizing start with
  | nil => exact hseg
  | cons cell cells ih =>
      obtain ⟨hstart, next, hcell, hrest⟩ := hseg
      refine ⟨hstart, next, ?_, ih hrest fun addr haddr => hsame addr (by simp [haddr])⟩
      rw [hsame cell.1 (by simp), hcell]

/-- Frame rule: a segment does not notice a write outside its cells. -/
theorem segment_update {heap : Heap α} {start stop : Option Addr} {cells : List (Addr × α)}
    (hseg : Segment heap start cells stop) {addr : Addr} (hmem : addr ∉ cells.map Prod.fst)
    (node : Option (Node α)) :
    Segment (Function.update heap addr node) start cells stop := by
  refine segment_congr hseg ?_
  rintro other hother
  rw [Function.update_of_ne]
  rintro rfl
  exact hmem hother

/-- A write allocates no cell but its own. -/
theorem allocated_update {heap : Heap α} {addr other : Addr} {node : Option (Node α)}
    (h : Function.update heap addr node other ≠ none) : other = addr ∨ heap other ≠ none := by
  by_cases hsame : other = addr
  · exact Or.inl hsame
  · rw [Function.update_of_ne hsame] at h
    exact Or.inr h

/-- Overwriting the last cell of a segment replaces its value and moves where
the segment stops. -/
theorem segment_set_last {heap : Heap α} {start stop : Option Addr} {cells : List (Addr × α)}
    {last : Addr × α} (hseg : Segment heap start (cells ++ [last]) stop)
    (hnodup : ((cells ++ [last]).map Prod.fst).Nodup) (value : α) (stop' : Option Addr) :
    Segment (Function.update heap last.1 (some ⟨stop', value⟩)) start
      (cells ++ [(last.1, value)]) stop' := by
  obtain ⟨middle, hfirst, hmiddle, -⟩ := segment_append.mp hseg
  rw [List.map_append, List.nodup_append] at hnodup
  have hlast : last.1 ∉ cells.map Prod.fst := by
    intro hmem
    exact hnodup.2.2 last.1 hmem last.1 (by simp) rfl
  refine segment_append.mpr ⟨middle, segment_update hfirst hlast _, hmiddle, stop', ?_, rfl⟩
  exact Function.update_self last.1 _ heap

def freed (heap : Heap α) (addrs : List Addr) : Heap α :=
  fun addr => if addr ∈ addrs then none else heap addr

@[simp] theorem freed_nil (heap : Heap α) : freed heap [] = heap := by
  funext addr
  simp [freed]

theorem freed_update (heap : Heap α) (addr : Addr) (addrs : List Addr) :
    freed (Function.update heap addr none) addrs = freed heap (addr :: addrs) := by
  funext other
  by_cases hsame : other = addr
  · simp [freed, hsame]
  · simp [freed, hsame]

theorem freed_of_notMem {heap : Heap α} {addr : Addr} {addrs : List Addr} (h : addr ∉ addrs) :
    freed heap addrs addr = heap addr := if_neg h

/-- A cell that is left is not among those given back. -/
theorem allocated_freed {heap : Heap α} {addr : Addr} {addrs : List Addr}
    (h : freed heap addrs addr ≠ none) : addr ∉ addrs ∧ heap addr ≠ none := by
  by_cases hmem : addr ∈ addrs
  · exact absurd (if_pos hmem) h
  · rw [freed_of_notMem hmem] at h
    exact ⟨hmem, h⟩

/-- A segment that ends at no cell starts at none just when it is empty. -/
theorem segment_start_isSome {heap : Heap α} {start : Option Addr} {cells : List (Addr × α)}
    (hseg : Segment heap start cells none) : start.isSome = !cells.isEmpty := by
  cases cells with
  | nil =>
      obtain rfl : start = none := hseg
      rfl
  | cons cell cells =>
      obtain ⟨rfl, -⟩ := hseg
      rfl

theorem segment_start {heap : Heap α} {start : Option Addr} {cells : List (Addr × α)}
    (hseg : Segment heap start cells none) : start = cells[0]?.map Prod.fst := by
  cases cells with
  | nil => exact hseg
  | cons cell cells => exact hseg.1

/-- Each cell of a list links to the one after it. -/
theorem segment_getElem {heap : Heap α} {start : Option Addr} {cells : List (Addr × α)}
    (hseg : Segment heap start cells none) {i : Nat} {cell : Addr × α}
    (hcell : cells[i]? = some cell) :
    heap cell.1 = some ⟨cells[i + 1]?.map Prod.fst, cell.2⟩ := by
  induction cells generalizing start i with
  | nil => simp at hcell
  | cons first cells ih =>
      obtain ⟨-, next, hfirst, hrest⟩ := hseg
      cases i with
      | zero =>
          obtain rfl : first = cell := by simpa using hcell
          rw [hfirst, segment_start hrest]
          rfl
      | succ i => exact ih hrest hcell

def readLink (heap : Heap α) (head : Option Addr) : Link → Option (Option Addr)
  | .head => some head
  | .next node => (heap node).map Node.next

/-- Both fields a link may stand for, after an assignment through it. -/
def writeLink (heap : Heap α) (head : Option Addr) : Link → Option Addr →
    Option (Heap α × Option Addr)
  | .head, target => some (heap, target)
  | .next node, target => do
      let cell ← heap node
      some (Function.update heap node (some { cell with next := target }), head)

/-- The link after a segment points to where the segment stops. -/
theorem readLink_after {heap : Heap α} {head stop : Option Addr} {cells : List (Addr × α)}
    (hseg : Segment heap head cells stop) :
    readLink heap head (Link.head.after cells) = some stop := by
  cases cells using List.reverseRecOn with
  | nil => exact congrArg some hseg
  | append_singleton cells last =>
      obtain ⟨middle, -, -, next, hcell, rfl⟩ := segment_append.mp hseg
      simp [readLink, hcell]

/-- Writing the link after a segment moves where the segment stops, and
touches no other cell. -/
theorem writeLink_after {heap : Heap α} {head stop : Option Addr} {cells : List (Addr × α)}
    (hseg : Segment heap head cells stop) (hnodup : (cells.map Prod.fst).Nodup)
    (target : Option Addr) :
    ∃ heap' head', writeLink heap head (Link.head.after cells) target = some (heap', head') ∧
      Segment heap' head' cells target ∧
      ∀ addr, addr ∉ cells.map Prod.fst → heap' addr = heap addr := by
  cases cells using List.reverseRecOn with
  | nil => exact ⟨heap, target, rfl, rfl, fun _ _ => rfl⟩
  | append_singleton cells last =>
      obtain ⟨middle, -, -, next, hcell, -⟩ := segment_append.mp hseg
      refine ⟨Function.update heap last.1 (some ⟨target, last.2⟩), head, ?_,
        segment_set_last hseg hnodup last.2 target, ?_⟩
      · simp [writeLink, hcell]
      · intro addr haddr
        have hne : addr ≠ last.1 := by
          rintro rfl
          simp at haddr
        rw [Function.update_of_ne hne]

/-- The cells from a pointer on are determined by the heap. -/
theorem segment_unique {heap : Heap α} {start : Option Addr} {first second : List (Addr × α)}
    (hfirst : Segment heap start first none) (hsecond : Segment heap start second none) :
    first = second := by
  induction first generalizing start second with
  | nil =>
      cases second with
      | nil => rfl
      | cons cell cells =>
          simp only [Segment] at hfirst hsecond
          simp [hfirst] at hsecond
  | cons cell cells ih =>
      obtain ⟨hstart, next, hcell, hrest⟩ := hfirst
      cases second with
      | nil =>
          simp only [Segment] at hsecond
          simp [hsecond] at hstart
      | cons cell' cells' =>
          obtain ⟨hstart', next', hcell', hrest'⟩ := hsecond
          have haddr : cell.1 = cell'.1 := Option.some.inj (hstart.symm.trans hstart')
          rw [← haddr, hcell] at hcell'
          obtain ⟨rfl, hvalue⟩ : next = next' ∧ cell.2 = cell'.2 := by
            simpa using hcell'
          rw [ih hrest hrest', Prod.ext haddr hvalue]

end LinkedList
