import Mathlib.Data.List.Count
import Mathlib.Tactic

/-!
Shares and releases of counted resources. A sequence of them is matched when
every release has an earlier share of the same resource that nobody has
released yet. To show that a system keeps this, one says what is still due:
the releases that the state has yet to make.
-/

namespace Shares

inductive Move (α : Type*) where
  | share (a : α)
  | release (a : α)
  deriving BEq, ReflBEq, LawfulBEq

variable {α : Type*} [BEq α] [LawfulBEq α]

/-- Every release has its own earlier share. -/
def Matched (moves : List (Move α)) : Prop :=
  ∀ before, before <+: moves → ∀ a, before.count (.release a) ≤ before.count (.share a)

/-- The moves so far are matched, and their shares suffice for what is due. -/
structure Covers (moves : List (Move α)) (due : α → Nat) : Prop where
  matched : Matched moves
  enough : ∀ a, moves.count (.release a) + due a ≤ moves.count (.share a)

omit [LawfulBEq α] in
theorem covers_nil : Covers ([] : List (Move α)) fun _ => 0 := by
  constructor
  · intro before hbefore a
    rw [List.prefix_nil.mp hbefore]
    rfl
  · intro a
    rfl

theorem count_share_shares (shares : List α) (a : α) :
    (shares.map Move.share).count (.share a) = shares.count a :=
  List.count_map_of_injective shares Move.share (fun _ _ => Move.share.inj) a

theorem count_release_shares (shares : List α) (a : α) :
    (shares.map Move.share).count (.release a) = 0 := by
  rw [List.count_eq_zero]
  intro hmem
  obtain ⟨_, -, hsame⟩ := List.mem_map.mp hmem
  cases hsame

theorem count_release_releases (releases : List α) (a : α) :
    (releases.map Move.release).count (.release a) = releases.count a :=
  List.count_map_of_injective releases Move.release (fun _ _ => Move.release.inj) a

theorem count_share_releases (releases : List α) (a : α) :
    (releases.map Move.release).count (.share a) = 0 := by
  rw [List.count_eq_zero]
  intro hmem
  obtain ⟨_, -, hsame⟩ := List.mem_map.mp hmem
  cases hsame

namespace Covers

variable {moves : List (Move α)} {due due' : α → Nat}

omit [LawfulBEq α] in
theorem mono (h : Covers moves due) (hle : ∀ a, due' a ≤ due a) : Covers moves due' := by
  refine ⟨h.matched, ?_⟩
  intro a
  have henough := h.enough a
  have hless := hle a
  omega

omit [BEq α] [LawfulBEq α] in
theorem prefix_append_cases {before first second : List (Move α)}
    (hbefore : before <+: first ++ second) :
    before <+: first ∨ ∃ part, part <+: second ∧ before = first ++ part := by
  rcases List.prefix_or_prefix_of_prefix hbefore (List.prefix_append first second) with
    hshort | ⟨part, rfl⟩
  · exact .inl hshort
  · exact .inr ⟨part, (List.prefix_append_right_inj first).mp hbefore, rfl⟩

/-- What is shared may be due afterwards. -/
theorem share (h : Covers moves due) (shares : List α)
    (hdue : ∀ a, due' a ≤ due a + shares.count a) :
    Covers (moves ++ shares.map .share) due' := by
  constructor
  · intro before hbefore a
    rcases prefix_append_cases hbefore with hold | ⟨part, hpart, rfl⟩
    · exact h.matched before hold a
    · have hnone : part.count (.release a) = 0 := by
        have hle := hpart.sublist.count_le (.release a)
        rw [count_release_shares] at hle
        omega
      have henough := h.enough a
      rw [List.count_append, List.count_append, hnone]
      omega
  · intro a
    have henough := h.enough a
    have hnew := hdue a
    rw [List.count_append, List.count_append, count_share_shares, count_release_shares]
    omega

/-- What was due is released. -/
theorem release (h : Covers moves due) (releases : List α)
    (hdue : ∀ a, due' a + releases.count a ≤ due a) :
    Covers (moves ++ releases.map .release) due' := by
  constructor
  · intro before hbefore a
    rcases prefix_append_cases hbefore with hold | ⟨part, hpart, rfl⟩
    · exact h.matched before hold a
    · have hle := hpart.sublist.count_le (.release a)
      rw [count_release_releases] at hle
      have henough := h.enough a
      have hold := hdue a
      rw [List.count_append, List.count_append]
      omega
  · intro a
    have henough := h.enough a
    have hold := hdue a
    rw [List.count_append, List.count_append, count_release_releases, count_share_releases]
    omega

end Covers

end Shares
