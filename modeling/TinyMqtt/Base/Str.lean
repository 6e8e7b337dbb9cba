import Mathlib.Data.List.TakeWhile
import Mathlib.Tactic

/-!
Byte strings of the broker. A `tmq_str_t` carries its length in a header, so
it may hold any byte, zero included; a `char*` ends at the first zero byte.
Most copies in the source go through `tmq_str_new`, which takes a `char*`,
and therefore see only the part before the first zero byte.
-/

namespace TinyMqtt

abbrev Bytes := List UInt8

/-- What a `char*` pointing at the first byte of `s` denotes. The byte after
the last one is the terminator that `tmq_str_new_len` writes. -/
def cstr (s : Bytes) : Bytes := s.takeWhile (· ≠ 0)

/-- The decimal digits of a number, as `inet_ntop` and `snprintf` write them. -/
def decimal (n : Nat) : Bytes := (Nat.toDigits 10 n).map fun c => UInt8.ofNat c.toNat

def isDigit (c : UInt8) : Bool := 48 ≤ c ∧ c ≤ 57

def digitsValue (digits : Bytes) : Nat :=
  digits.foldl (fun n c => 10 * n + (c.toNat - 48)) 0

def isSpace (c : UInt8) : Bool := c = 32 ∨ (9 ≤ c ∧ c ≤ 13)

/-- The string types that run through the broker's copy helpers. `tmqStrNew`
is `tmq_str_new`: a fresh string with the bytes up to the first zero. -/
class TmqString (σ : Type) where
  tmqStrNew : σ → σ

export TmqString (tmqStrNew)

instance : TmqString Bytes where
  tmqStrNew := cstr

/-- A string with a stamp that every copy carries along and no function
reads. It names the application message a payload belongs to. -/
structure Stamped where
  stamp : Nat
  bytes : Bytes
  deriving DecidableEq, Repr

instance : TmqString Stamped where
  tmqStrNew s := { s with bytes := cstr s.bytes }

@[simp] theorem tmqStrNew_bytes (s : Bytes) : tmqStrNew s = cstr s := rfl

@[simp] theorem tmqStrNew_stamped (s : Stamped) :
    tmqStrNew s = ⟨s.stamp, cstr s.bytes⟩ := rfl

/-- The C-string view keeps exactly the strings without a zero byte. -/
theorem cstr_eq_self_iff (s : Bytes) : cstr s = s ↔ 0 ∉ s := by
  unfold cstr
  rw [List.takeWhile_eq_self_iff]
  constructor
  · intro hall hmember
    simpa using hall 0 hmember
  · intro hzero x hx
    have hne : x ≠ 0 := by
      rintro rfl
      exact hzero hx
    simpa using hne

theorem zero_not_mem_cstr (s : Bytes) : 0 ∉ cstr s := by
  intro hmember
  simpa using List.mem_takeWhile_imp hmember

/-- Copying a copy changes nothing more. -/
@[simp] theorem cstr_cstr (s : Bytes) : cstr (cstr s) = cstr s :=
  (cstr_eq_self_iff _).mpr (zero_not_mem_cstr s)

end TinyMqtt
