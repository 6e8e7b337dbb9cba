import Mathlib.Data.List.Perm.Basic
import Mathlib.Tactic

/-!
Two lists with the same elements, of which some have to stand in the same order
and the others may stand anywhere.
-/

variable {α : Type*}

/-- The lists hold the same elements, each as often, and those that are
`ordered` in the same order. -/
structure SameElements (ordered : α → Bool) (first second : List α) : Prop where
  perm : first.Perm second
  order : first.filter ordered = second.filter ordered

namespace SameElements

variable {ordered : α → Bool} {first second before after : List α} {a : α}

theorem append (h : SameElements ordered first second) (a : α) :
    SameElements ordered (first ++ [a]) (second ++ [a]) := by
  refine ⟨h.perm.append_right [a], ?_⟩
  rw [List.filter_append, List.filter_append, h.order]

/-- An element whose order does not matter may be put anywhere. -/
theorem insert (h : SameElements ordered (before ++ after) second)
    (ha : ordered a = false) : SameElements ordered (before ++ a :: after) (second ++ [a]) := by
  refine ⟨?_, ?_⟩
  · have hfirst : (before ++ a :: after).Perm (a :: (before ++ after)) := List.perm_middle
    have hsecond : (a :: second).Perm (second ++ [a]) := (List.perm_append_singleton a second).symm
    exact hfirst.trans ((h.perm.cons a).trans hsecond)
  · have horder := h.order
    simp only [List.filter_append, List.filter_cons, ha, Bool.false_eq_true, if_false,
      List.filter_nil, List.append_nil] at horder ⊢
    exact horder

/-- The first occurrence of an element is taken out of both lists. -/
theorem erase [DecidableEq α] (h : SameElements ordered (before ++ a :: after) second)
    (ha : a ∉ before) : SameElements ordered (before ++ after) (second.erase a) := by
  have herase : (before ++ a :: after).erase a = before ++ after := by
    rw [List.erase_append_right _ ha, List.erase_cons_head]
  refine ⟨?_, ?_⟩
  · rw [← herase]
    exact h.perm.erase a
  · have hfilter : ∀ l : List α, (l.erase a).filter ordered = (l.filter ordered).erase a := by
      intro l
      exact List.erase_filter.symm
    rw [← herase, hfilter, hfilter, h.order]

end SameElements
