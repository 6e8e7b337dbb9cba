import Mathlib.Data.List.Basic
import Mathlib.Tactic

/-!
Mailboxes of several owners in one list. The mails of one owner are taken in
the order in which they were posted; the order between the mails of different
owners has no meaning.
-/

namespace Mailbox

variable {α : Type*}

/-- The first mail of an owner and the mails without it. -/
def take? (owner : α → Nat) (k : Nat) : List α → Option (α × List α)
  | [] => none
  | mail :: mails =>
      if owner mail = k then some (mail, mails)
      else (take? owner k mails).map fun taken => (taken.1, mail :: taken.2)

/-- What is taken was posted before all other mails of its owner. -/
theorem take?_eq_some {owner : α → Nat} {k : Nat} {mails : List α} {taken : α × List α}
    (htake : take? owner k mails = some taken) :
    ∃ before after, mails = before ++ taken.1 :: after ∧ taken.2 = before ++ after ∧
      owner taken.1 = k ∧ ∀ mail ∈ before, owner mail ≠ k := by
  induction mails generalizing taken with
  | nil => cases htake
  | cons mail mails ih =>
      rw [take?] at htake
      split at htake
      · rename_i howner
        obtain rfl := Option.some.inj htake
        exact ⟨[], mails, rfl, rfl, howner, by simp⟩
      · rename_i howner
        obtain ⟨found, hfound, rfl⟩ := Option.map_eq_some_iff.mp htake
        obtain ⟨before, after, hmails, hrest, hk, hbefore⟩ := ih hfound
        refine ⟨mail :: before, after, by rw [hmails]; rfl, by rw [hrest]; rfl, hk, ?_⟩
        intro other hother
        rcases List.mem_cons.mp hother with rfl | hlater
        · exact howner
        · exact hbefore other hlater

end Mailbox
