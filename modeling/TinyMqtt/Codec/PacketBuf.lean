import TinyMqtt.Codec.Packet

/-!
The vector that an encoder fills (`packet_buf`, `base/mqtt_vec.c`). Strings
are copied behind the last byte with `strcpy` or `memcpy`, and only then is
the vector resized over them, so the memory must have been reserved before. A
step of an encoder either pushes one byte or makes such a copy. `realloc`
always has the memory here.
-/

namespace TinyMqtt

/-- `tmq_vec_base_t` of bytes, but for the bytes. -/
structure PacketBuf where
  size : Nat
  cap : Nat
  deriving DecidableEq, Repr

namespace PacketBuf

def grow (buf : PacketBuf) : PacketBuf :=
  { buf with cap := if buf.cap < 8 then 8 else buf.cap * 2 }

def pushBack (buf : PacketBuf) : PacketBuf :=
  let buf := if buf.size ≥ buf.cap then buf.grow else buf
  { buf with size := buf.size + 1 }

def reserve (buf : PacketBuf) (size : Nat) : PacketBuf :=
  if size > buf.cap then { buf with cap := 2 * size } else buf

def resize (buf : PacketBuf) (size : Nat) : PacketBuf :=
  { buf.reserve size with size := size }

def filled (n : Nat) : PacketBuf := pushBack^[n] ⟨0, 0⟩

@[simp] theorem resize_size (buf : PacketBuf) (size : Nat) : (buf.resize size).size = size := rfl

@[simp] theorem pushBack_size (buf : PacketBuf) : buf.pushBack.size = buf.size + 1 := by
  unfold pushBack
  dsimp only
  split <;> rfl

theorem resize_of_le {buf : PacketBuf} {size : Nat} (hle : size ≤ buf.cap) :
    buf.resize size = ⟨size, buf.cap⟩ := by
  simp [resize, reserve, Nat.not_lt.mpr hle]

theorem resize_cap_of_lt {buf : PacketBuf} {size : Nat} (hlt : buf.cap < size) :
    (buf.resize size).cap = 2 * size := by
  simp [resize, reserve, hlt]

theorem pushBack_of_lt {buf : PacketBuf} (hlt : buf.size < buf.cap) :
    buf.pushBack = ⟨buf.size + 1, buf.cap⟩ := by
  simp [pushBack, Nat.not_le.mpr hlt]

theorem pushBack_of_ge {buf : PacketBuf} (hcap : 8 ≤ buf.cap) (hge : buf.cap ≤ buf.size) :
    buf.pushBack = ⟨buf.size + 1, buf.cap * 2⟩ := by
  simp [pushBack, grow, hge, Nat.not_lt.mpr hcap]

end PacketBuf

/-! ### The steps of the encoders -/

/-- What an encoder does to the vector after the fixed header. A copy is
followed by a resize over the length of the string. -/
inductive PackStep where
  | pushBack (byte : UInt8)
  | strcpy (s : Option Bytes)
  | memcpy (s : Bytes)
  deriving DecidableEq, Repr

/-- Every raw copy stays within the capacity it finds. `strcpy` writes up to
the first zero byte and a terminator; from a null pointer it does not return. -/
def CopiesFit : PacketBuf → List PackStep → Prop
  | _, [] => True
  | buf, .pushBack _ :: rest => CopiesFit buf.pushBack rest
  | _, .strcpy none :: _ => True
  | buf, .strcpy (some s) :: rest =>
      (cstr s).length + 1 ≤ buf.cap - buf.size ∧
        CopiesFit (buf.resize (buf.size + s.length)) rest
  | buf, .memcpy s :: rest =>
      s.length ≤ buf.cap - buf.size ∧ CopiesFit (buf.resize (buf.size + s.length)) rest

instance CopiesFit.decidable : (buf : PacketBuf) → (steps : List PackStep) →
    Decidable (CopiesFit buf steps)
  | _, [] => isTrue trivial
  | buf, .pushBack _ :: rest => CopiesFit.decidable buf.pushBack rest
  | _, .strcpy none :: _ => isTrue trivial
  | buf, .strcpy (some s) :: rest =>
      @instDecidableAnd _ _ _ (CopiesFit.decidable (buf.resize (buf.size + s.length)) rest)
  | buf, .memcpy s :: rest =>
      @instDecidableAnd _ _ _ (CopiesFit.decidable (buf.resize (buf.size + s.length)) rest)

/-! ### The bytes of the steps -/

/-- Why no definite byte string reaches the connection. -/
inductive SendError where
  /-- `make_fixed_header` returned -1: nothing is written -/
  | remainLengthTooLarge
  /-- a string whose flag is set is a null pointer -/
  | nullString
  /-- `strcpy` stopped at a zero byte inside the string, so the bytes up to
  its length are whatever the vector held before -/
  | indeterminate
  /-- a raw copy went past the end of the vector's block -/
  | overrun
  deriving DecidableEq, Repr

/-- `strcpy` to the end of the vector followed by a resize to the string's
length. -/
def packStrcpy : Option Bytes → Except SendError Bytes
  | none => .error .nullString
  | some s => if 0 ∈ s then .error .indeterminate else .ok s

def PackStep.bytes : PackStep → Except SendError Bytes
  | .pushBack byte => .ok [byte]
  | .strcpy s => packStrcpy s
  | .memcpy s => .ok s

def stepsBytes : List PackStep → Except SendError Bytes
  | [] => .ok []
  | step :: rest => do
      let bytes ← step.bytes
      let tail ← stepsBytes rest
      return bytes ++ tail

/-- What the steps append to this vector. -/
def packSteps (buf : PacketBuf) (steps : List PackStep) : Except SendError Bytes :=
  if CopiesFit buf steps then stepsBytes steps else .error .overrun

theorem stepsBytes_append (first rest : List PackStep) :
    stepsBytes (first ++ rest) = do
      let bytes ← stepsBytes first
      let tail ← stepsBytes rest
      return bytes ++ tail := by
  induction first with
  | nil =>
      rw [List.nil_append]
      cases stepsBytes rest with
      | error e => rfl
      | ok tail => rfl
  | cons step first ih =>
      rw [List.cons_append, stepsBytes, stepsBytes, ih]
      cases step.bytes with
      | error e => rfl
      | ok bytes =>
          cases stepsBytes first with
          | error e => rfl
          | ok middle =>
              cases stepsBytes rest with
              | error e => rfl
              | ok tail => exact congrArg Except.ok (List.append_assoc _ _ _).symm

theorem stepsBytes_pushBack (bytes : Bytes) :
    stepsBytes (bytes.map .pushBack) = .ok bytes := by
  induction bytes with
  | nil => rfl
  | cons byte bytes ih =>
      rw [List.map_cons, stepsBytes, ih]
      rfl

/-- Steps whose bytes are known one piece after the other. -/
theorem stepsBytes_append_ok {first rest : List PackStep} {bytes tail : Bytes}
    (hfirst : stepsBytes first = .ok bytes) (hrest : stepsBytes rest = .ok tail) :
    stepsBytes (first ++ rest) = .ok (bytes ++ tail) := by
  rw [stepsBytes_append, hfirst, hrest]
  rfl

end TinyMqtt
