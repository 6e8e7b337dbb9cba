import Mathlib.Tactic

/-!
Streams cut into frames. What is at the front of a stream is a frame or not yet
one; a frame that is whole stays the same when more of the stream arrives.
-/

namespace Framing

/-- How a frame is taken from the front of a stream. -/
structure Framer (β φ : Type*) where
  take : List β → Option (φ × List β)
  stable : ∀ {s rest : List β} {f : φ}, take s = some (f, rest) →
    ∀ more, take (s ++ more) = some (f, rest ++ more)
  shrinks : ∀ {s rest : List β} {f : φ}, take s = some (f, rest) → rest.length < s.length

namespace Framer

variable {β φ : Type*} (F : Framer β φ)

/-- The whole frames of a stream and what is left of it. -/
def split (s : List β) : List φ × List β :=
  match h : F.take s with
  | none => ([], s)
  | some (f, rest) =>
      have := F.shrinks h
      (f :: (split rest).1, (split rest).2)
termination_by s.length

variable {F}

theorem split_of_none {s : List β} (h : F.take s = none) : F.split s = ([], s) := by
  rw [split]
  split
  · rfl
  · rename_i hsome
    rw [h] at hsome
    cases hsome

theorem split_of_some {s rest : List β} {f : φ} (h : F.take s = some (f, rest)) :
    F.split s = (f :: (F.split rest).1, (F.split rest).2) := by
  rw [split]
  split
  · rename_i hnone
    rw [h] at hnone
    cases hnone
  · rename_i hsome
    rw [h] at hsome
    obtain ⟨rfl, rfl⟩ := Prod.mk.inj (Option.some.inj hsome)
    rfl

theorem length_split_le (s : List β) : (F.split s).1.length ≤ s.length := by
  induction hlength : s.length using Nat.strongRecOn generalizing s with
  | ind n ih =>
      cases htake : F.take s with
      | none =>
          rw [split_of_none htake]
          exact Nat.zero_le n
      | some taken =>
          obtain ⟨f, rest⟩ := taken
          have hshrinks := F.shrinks htake
          have hrest := ih rest.length (hlength ▸ hshrinks) rest rfl
          rw [split_of_some htake, List.length_cons]
          omega

/-- More of a stream is cut like its part after what was cut before. -/
theorem split_append (s more : List β) :
    F.split (s ++ more)
      = ((F.split s).1 ++ (F.split ((F.split s).2 ++ more)).1,
        (F.split ((F.split s).2 ++ more)).2) := by
  induction hlength : s.length using Nat.strongRecOn generalizing s with
  | ind n ih =>
      cases htake : F.take s with
      | none => rw [split_of_none htake, List.nil_append]
      | some taken =>
          obtain ⟨f, rest⟩ := taken
          rw [split_of_some htake, split_of_some (F.stable htake more),
            ih rest.length (hlength ▸ F.shrinks htake) rest rfl]
          rfl

end Framer

end Framing
