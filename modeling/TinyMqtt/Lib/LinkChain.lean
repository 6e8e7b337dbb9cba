import Mathlib.Data.List.Nodup
import Mathlib.Logic.Function.Basic
import Mathlib.Tactic

/-!
Singly linked lists whose pointers lead from link to link. A list starts at a
link that belongs to nobody, and every member has a link of its own. A new
member is stored at the last link, so a pointer to that link is all that is
needed to append.
-/

namespace LinkChain

variable {L M : Type*}

/-- What the links hold: the member whose link is next, or nothing. -/
abbrev Links (L M : Type*) := L → Option M

/-- Following the links from one on meets the given members and then ends. -/
def Chain (link : M → L) (links : Links L M) : L → List M → Prop
  | start, [] => links start = none
  | start, m :: ms => links start = some m ∧ Chain link links (link m) ms

def lastLink (link : M → L) (start : L) (ms : List M) : L := (ms.getLast?.map link).getD start

@[simp] theorem lastLink_nil (link : M → L) (start : L) : lastLink link start [] = start := rfl

@[simp] theorem lastLink_concat (link : M → L) (start : L) (ms : List M) (m : M) :
    lastLink link start (ms ++ [m]) = link m := by
  simp [lastLink]

theorem lastLink_cons (link : M → L) (start : L) (m : M) (ms : List M) :
    lastLink link start (m :: ms) = lastLink link (link m) ms := by
  rw [lastLink, lastLink, List.getLast?_cons]
  cases ms.getLast? <;> rfl

/-- The last link is the first one or a member's. -/
theorem lastLink_cases (link : M → L) (start : L) (ms : List M) :
    (ms = [] ∧ lastLink link start ms = start) ∨ ∃ m ∈ ms, lastLink link start ms = link m := by
  rcases List.eq_nil_or_concat ms with rfl | ⟨before, m, rfl⟩
  · exact .inl ⟨rfl, rfl⟩
  · refine .inr ⟨m, by simp, ?_⟩
    rw [List.concat_eq_append, lastLink_concat]

variable {link : M → L} {links links' : Links L M} {start : L} {ms : List M}

/-- A chain is determined by its own links. -/
theorem Chain.congr (h : Chain link links start ms) (hstart : links' start = links start)
    (hsame : ∀ m ∈ ms, links' (link m) = links (link m)) : Chain link links' start ms := by
  induction ms generalizing start with
  | nil => exact hstart.trans h
  | cons m ms ih =>
      obtain ⟨hfirst, hrest⟩ := h
      obtain ⟨hm, hms⟩ := List.forall_mem_cons.mp hsame
      exact ⟨hstart.trans hfirst, ih hrest hm hms⟩

/-- A chain whose start is empty has no members. -/
theorem Chain.eq_nil (h : Chain link links start ms) (hnone : links start = none) : ms = [] := by
  cases ms with
  | nil => rfl
  | cons m ms =>
      rw [h.1] at hnone
      cases hnone

/-- A chain whose start holds a member begins with it. -/
theorem Chain.eq_cons (h : Chain link links start ms) {m : M} (hsome : links start = some m) :
    ∃ rest, ms = m :: rest ∧ Chain link links (link m) rest := by
  cases ms with
  | nil =>
      rw [Chain] at h
      rw [h] at hsome
      cases hsome
  | cons first rest =>
      obtain ⟨hfirst, hrest⟩ := h
      obtain rfl : first = m := Option.some.inj (hfirst.symm.trans hsome)
      exact ⟨rest, rfl, hrest⟩

variable [DecidableEq L]

/-- A write to a link that is not of the chain. -/
theorem Chain.update (h : Chain link links start ms) {place : L} (hstart : place ≠ start)
    (hplace : ∀ m ∈ ms, place ≠ link m) (value : Option M) :
    Chain link (Function.update links place value) start ms := by
  refine h.congr (Function.update_of_ne hstart.symm _ _) ?_
  intro m hm
  exact Function.update_of_ne (hplace m hm).symm _ _

/-- Storing a member whose link is empty at the last link appends it. -/
theorem Chain.append (hlink : Function.Injective link) (h : Chain link links start ms)
    (hnodup : ms.Nodup) (hstart : ∀ m ∈ ms, link m ≠ start) {new : M} (hnew : new ∉ ms)
    (hnewStart : link new ≠ start) (hempty : links (link new) = none) :
    Chain link (Function.update links (lastLink link start ms) (some new)) start (ms ++ [new]) := by
  induction ms generalizing start with
  | nil =>
      refine ⟨Function.update_self _ _ _, ?_⟩
      rw [Chain, lastLink_nil, Function.update_of_ne hnewStart]
      exact hempty
  | cons m ms ih =>
      obtain ⟨hfirst, hrest⟩ := h
      obtain ⟨hm, hms⟩ := List.nodup_cons.mp hnodup
      obtain ⟨hmStart, hmsStart⟩ := List.forall_mem_cons.mp hstart
      rw [List.mem_cons, not_or] at hnew
      rw [lastLink_cons]
      constructor
      · have hne : start ≠ lastLink link (link m) ms := by
          rcases lastLink_cases link (link m) ms with ⟨-, hlast⟩ | ⟨n, hn, hlast⟩
          · rw [hlast]
            exact hmStart.symm
          · rw [hlast]
            exact (hmsStart n hn).symm
        rw [Function.update_of_ne hne]
        exact hfirst
      · refine ih hrest hms ?_ hnew.2 ?_
        · intro n hn hsame
          obtain rfl := hlink hsame
          exact hm hn
        · intro hsame
          exact hnew.1 (hlink hsame)

/-- Moving the start past the first member. -/
theorem Chain.tail {m : M} (h : Chain link links start (m :: ms))
    (hstart : ∀ n ∈ ms, link n ≠ start) :
    Chain link (Function.update links start (links (link m))) start ms := by
  obtain ⟨-, hrest⟩ := h
  cases ms with
  | nil =>
      rw [Chain] at hrest ⊢
      rw [Function.update_self]
      exact hrest
  | cons n rest =>
      obtain ⟨hn, hrest⟩ := hrest
      obtain ⟨hnStart, hrestStart⟩ := List.forall_mem_cons.mp hstart
      refine ⟨by rw [Function.update_self]; exact hn, ?_⟩
      exact hrest.update hnStart.symm (fun k hk => (hrestStart k hk).symm) _

end LinkChain
