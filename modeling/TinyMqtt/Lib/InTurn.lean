import Mathlib.Data.List.Pairwise
import Mathlib.Order.Basic
import Mathlib.Tactic

/-!
Elements that come into a queue in ascending order, and the order in which they
are first handed out. Elements may leave the queue in any order, and may be
handed out again; what counts is that none is handed out before one that came in
earlier.
-/

variable {α : Type*} [Preorder α]

/-- The elements that came in, those still queued, and those handed out, in
order and with repetitions. -/
structure InTurn (entered queue sent : List α) : Prop where
  ascending : entered.Pairwise (· < ·)
  queued : queue.Sublist entered
  gone : ∀ a ∈ entered, a ∈ queue ∨ a ∈ sent
  known : ∀ a ∈ sent, a ∈ entered
  inOrder : ∀ first a rest, sent = first ++ a :: rest → ∀ b ∈ entered, b < a → b ∈ first

namespace InTurn

variable {entered queue sent : List α}

theorem nil : InTurn ([] : List α) [] [] :=
  ⟨.nil, .refl [], nofun, nofun, fun first a rest hsent => by simp at hsent⟩

theorem enter (h : InTurn entered queue sent) {fresh : List α}
    (hascending : (entered ++ fresh).Pairwise (· < ·)) :
    InTurn (entered ++ fresh) (queue ++ fresh) sent := by
  refine ⟨hascending, h.queued.append_right fresh, ?_, ?_, ?_⟩
  · intro a ha
    rcases List.mem_append.mp ha with hold | hnew
    · rcases h.gone a hold with hqueued | hsent
      · exact .inl (List.mem_append_left _ hqueued)
      · exact .inr hsent
    · exact .inl (List.mem_append_right _ hnew)
  · intro a ha
    exact List.mem_append_left _ (h.known a ha)
  · intro first a rest hsent b hb hlt
    rcases List.mem_append.mp hb with hold | hnew
    · exact h.inOrder first a rest hsent b hold hlt
    · -- what came in later is not below what was handed out before
      have ha : a ∈ entered := h.known a (by simp [hsent])
      have hgt := (List.pairwise_append.mp hascending).2.2 a ha b hnew
      exact (lt_asymm hlt hgt).elim

/-- What leaves the queue was handed out. -/
theorem remove (h : InTurn entered queue sent) {left : List α} (hleft : left.Sublist queue)
    (hsent : ∀ a ∈ queue, a ∈ left ∨ a ∈ sent) : InTurn entered left sent := by
  refine ⟨h.ascending, hleft.trans h.queued, ?_, h.known, h.inOrder⟩
  intro a ha
  rcases h.gone a ha with hqueued | hgone
  · exact hsent a hqueued
  · exact .inr hgone

/-- A part of the queue is handed out, and all that stands before it there was
handed out already. -/
theorem hand (h : InTurn entered queue sent) {base batch : List α} (hlead : base ++ batch <+: queue)
    (hbase : ∀ a ∈ base, a ∈ sent) : InTurn entered queue (sent ++ batch) := by
  obtain ⟨later, hqueue⟩ := hlead
  have hsorted : queue.Pairwise (· < ·) := h.ascending.sublist h.queued
  have hbatch : ∀ a ∈ batch, a ∈ queue := by
    intro a ha
    rw [← hqueue]
    simp [ha]
  refine ⟨h.ascending, h.queued, ?_, ?_, ?_⟩
  · intro a ha
    exact (h.gone a ha).imp_right (List.mem_append_left _)
  · intro a ha
    rcases List.mem_append.mp ha with hold | hnew
    · exact h.known a hold
    · exact h.queued.subset (hbatch a hnew)
  · intro first a rest hsplit b hb hlt
    have hnew : ∀ ahead, batch = ahead ++ a :: rest → b ∈ sent ++ ahead := by
      rintro ahead rfl
      rcases h.gone b hb with hqueued | hgone
      · rw [← hqueue] at hqueued hsorted
        simp only [List.append_assoc, List.cons_append, List.mem_append, List.mem_cons] at hqueued
        simp only [List.append_assoc, List.cons_append, List.pairwise_append,
          List.pairwise_cons] at hsorted
        have hafter := hsorted.2.1.2.1.1
        rcases hqueued with hfirst | hahead | rfl | hlater
        · exact List.mem_append_left _ (hbase b hfirst)
        · exact List.mem_append_right _ hahead
        · exact (lt_irrefl b hlt).elim
        · exact (lt_asymm hlt (hafter b (List.mem_append.mpr hlater))).elim
      · exact List.mem_append_left _ hgone
    rcases List.append_eq_append_iff.mp hsplit with ⟨ahead, rfl, hrest⟩ | ⟨ahead, hfirst, hrest⟩
    · exact hnew ahead hrest
    · cases ahead with
      | nil =>
          rw [List.append_nil] at hfirst
          subst hfirst
          simpa using hnew [] hrest.symm
      | cons next ahead =>
          obtain ⟨rfl, rfl⟩ := List.cons.inj hrest
          exact h.inOrder first a ahead hfirst b hb hlt

end InTurn
