import Mathlib.Data.List.Basic
import Mathlib.Tactic

/-!
A first-in first-out queue of which only the first `window` elements are in
flight. An element is released when it comes into the window: on insertion
when there is room, otherwise when an acknowledgement removes an element in
flight. The queue carries its history, so that what was released can be
compared with what was inserted.
-/

structure WindowedFifo (α : Type*) where
  window : Nat
  queue : List α
  inserted : List α
  released : List α

namespace WindowedFifo

variable {α : Type*}

def empty (window : Nat) : WindowedFifo α := ⟨window, [], [], []⟩

def inflight (fifo : WindowedFifo α) : List α := fifo.queue.take fifo.window

def waiting (fifo : WindowedFifo α) : List α := fifo.queue.drop fifo.window

def hasRoom (fifo : WindowedFifo α) : Bool := fifo.queue.length < fifo.window

def insert (fifo : WindowedFifo α) (element : α) : WindowedFifo α :=
  { fifo with
    queue := fifo.queue ++ [element]
    inserted := fifo.inserted ++ [element]
    released := if fifo.hasRoom then fifo.released ++ [element] else fifo.released }

/-- Removes the first element in flight that satisfies `acked`; the first
waiting element then comes into the window. -/
def acknowledge (fifo : WindowedFifo α) (acked : α → Bool) : WindowedFifo α :=
  if fifo.inflight.any acked then
    { fifo with
      queue := fifo.inflight.eraseP acked ++ fifo.waiting
      released := fifo.released ++ fifo.waiting.head?.toList }
  else fifo

/-- The released elements are the inserted ones in their order, up to the
ones that still wait: nothing is left out, repeated or reordered. -/
def Conserves (fifo : WindowedFifo α) : Prop := fifo.released ++ fifo.waiting = fifo.inserted

theorem conserves_empty (window : Nat) : (empty window : WindowedFifo α).Conserves := by
  simp [Conserves, empty, waiting]

theorem insert_conserves {fifo : WindowedFifo α} (hfifo : fifo.Conserves) (element : α) :
    (fifo.insert element).Conserves := by
  unfold Conserves waiting at *
  by_cases hroom : fifo.queue.length < fifo.window
  · have hqueue : fifo.queue.drop fifo.window = [] := List.drop_eq_nil_of_le hroom.le
    have hqueue' : (fifo.queue ++ [element]).drop fifo.window = [] := by
      apply List.drop_eq_nil_of_le
      simpa using hroom
    rw [hqueue, List.append_nil] at hfifo
    simp [insert, hasRoom, hroom, hqueue', hfifo]
  · have hle : fifo.window ≤ fifo.queue.length := by omega
    have hqueue : (fifo.queue ++ [element]).drop fifo.window
        = fifo.queue.drop fifo.window ++ [element] := List.drop_append_of_le_length hle
    simp [insert, hasRoom, hroom, hqueue, ← hfifo]

/-- The element that an acknowledgement removes. -/
theorem exists_acked {fifo : WindowedFifo α} {acked : α → Bool}
    (hacked : fifo.inflight.any acked = true) :
    ∃ before element after, fifo.queue = before ++ element :: after ∧
      before.length < fifo.window ∧ (∀ other ∈ before, acked other = false) ∧
      acked element = true ∧ fifo.inflight.eraseP acked ++ fifo.waiting = before ++ after := by
  obtain ⟨found, hfound, hsatisfies⟩ := List.any_eq_true.mp hacked
  obtain ⟨element, before, after, hbefore, helement, hsplit, herase⟩ :=
    List.exists_of_eraseP hfound hsatisfies
  have hlength : before.length < fifo.window := by
    have h : fifo.inflight.length ≤ fifo.window := by simp [inflight]
    rw [hsplit, List.length_append, List.length_cons] at h
    omega
  have hqueue : fifo.queue = fifo.inflight ++ fifo.waiting :=
    (List.take_append_drop fifo.window fifo.queue).symm
  refine ⟨before, element, after ++ fifo.waiting, ?_, hlength, ?_, helement, ?_⟩
  · rw [hqueue, hsplit, List.append_assoc, List.cons_append]
  · intro other hother
    simpa using hbefore other hother
  · rw [herase, List.append_assoc]

theorem acknowledge_of_acked {fifo : WindowedFifo α} {acked : α → Bool}
    {before : List α} {element : α} {after : List α}
    (hqueue : fifo.queue = before ++ element :: after) (hlength : before.length < fifo.window)
    (hbefore : ∀ other ∈ before, acked other = false) (helement : acked element = true) :
    fifo.acknowledge acked =
      { fifo with
        queue := before ++ after
        released := fifo.released ++ fifo.waiting.head?.toList } := by
  have hinflight : fifo.inflight
      = before ++ element :: after.take (fifo.window - before.length - 1) := by
    obtain ⟨room, hroom⟩ : ∃ room, fifo.window - before.length = room + 1 :=
      ⟨fifo.window - before.length - 1, by omega⟩
    rw [inflight, hqueue, List.take_append, List.take_of_length_le hlength.le, hroom]
    rfl
  have hwaiting : fifo.waiting = after.drop (fifo.window - before.length - 1) := by
    obtain ⟨room, hroom⟩ : ∃ room, fifo.window - before.length = room + 1 :=
      ⟨fifo.window - before.length - 1, by omega⟩
    rw [waiting, hqueue, List.drop_append, List.drop_eq_nil_of_le hlength.le, hroom]
    rfl
  have hany : fifo.inflight.any acked = true := by
    rw [hinflight]
    simp [helement]
  have herase : fifo.inflight.eraseP acked
      = before ++ after.take (fifo.window - before.length - 1) := by
    rw [hinflight, List.eraseP_append_right]
    · simp [helement]
    · simpa using hbefore
  have hrest : fifo.inflight.eraseP acked ++ fifo.waiting = before ++ after := by
    rw [herase, hwaiting, List.append_assoc, List.take_append_drop]
  simp [acknowledge, hany, hrest]

theorem acknowledge_of_none {fifo : WindowedFifo α} {acked : α → Bool}
    (hnone : fifo.inflight.any acked = false) : fifo.acknowledge acked = fifo := by
  simp [acknowledge, hnone]

/-- After a removal among the first `window` elements the window has taken
one more element of those that waited. -/
theorem drop_window_remove {window : Nat} {before : List α} (element : α) (after : List α)
    (hlength : before.length < window) :
    (before ++ after).drop window = ((before ++ element :: after).drop window).tail := by
  obtain ⟨room, rfl⟩ : ∃ room, window = before.length + (room + 1) :=
    ⟨window - before.length - 1, by omega⟩
  rw [List.drop_length_add_append, List.drop_length_add_append, List.drop_succ_cons,
    List.tail_drop]

theorem getElem?_window_remove {window : Nat} {before : List α} (element : α) (after : List α)
    (hlength : before.length < window) :
    (before ++ element :: after)[window]? = (before ++ after)[window - 1]? := by
  obtain ⟨room, rfl⟩ : ∃ room, window = before.length + (room + 1) :=
    ⟨window - before.length - 1, by omega⟩
  rw [List.getElem?_append_right (by omega), List.getElem?_append_right (by omega)]
  simp [show before.length + (room + 1) - before.length = room + 1 by omega]

theorem acknowledge_conserves {fifo : WindowedFifo α} (hfifo : fifo.Conserves)
    (acked : α → Bool) : (fifo.acknowledge acked).Conserves := by
  cases hany : fifo.inflight.any acked with
  | false =>
      rw [acknowledge_of_none hany]
      exact hfifo
  | true =>
      obtain ⟨before, element, after, hqueue, hlength, hbefore, helement, -⟩ := exists_acked hany
      rw [acknowledge_of_acked hqueue hlength hbefore helement]
      unfold Conserves waiting at *
      rw [drop_window_remove element after hlength, ← hqueue, List.append_assoc]
      cases hwaiting : fifo.queue.drop fifo.window with
      | nil => simpa [hwaiting] using hfifo
      | cons first rest => simpa [hwaiting] using hfifo

end WindowedFifo
