import TinyMqtt.Codec.LenBased

/-!
The codec of the console (`codec/mqtt_console_codec.c`). Its one parser copies
the payload into an array of 128 zero bytes and takes two strings from there, of
which it only knows that the first starts at the front.
-/

namespace TinyMqtt

inductive ConsoleMessageType where
  | addUser | delUser | changePwd | addAcl | listAcl
  deriving DecidableEq, Repr

def ConsoleMessageType.code : ConsoleMessageType → UInt8
  | .addUser => 0
  | .delUser => 1
  | .changePwd => 2
  | .addAcl => 3
  | .listAcl => 4

/-- The array `payload` after the copy. -/
def addUserArray (data : Bytes) : Bytes := data ++ List.replicate (128 - data.length) 0

/-- Where `strlen` finds the end of the username. -/
def usernameEnd (data : Bytes) : Nat := (cstr (addUserArray data)).length

/-- What `pwd` points at. -/
def addUserPassword (data : Bytes) : Bytes := (addUserArray data).drop (usernameEnd data + 1)

def passwordEnd (data : Bytes) : Nat := usernameEnd data + 1 + (cstr (addUserPassword data)).length

/-- `parse_add_user_message`, with the calls of `on_add_user` as the context. It
is undefined when the copy or a string runs over the end of the array. -/
def parseAddUserMessage : PayloadParser (List (Bytes × Bytes)) := fun added buffer len =>
  let (data, rest) := tmqBufferRead buffer len
  if 128 < data.length ∨ 0 ∉ addUserArray data ∨ 0 ∉ addUserPassword data then none
  else some (added ++ [(cstr (addUserArray data), cstr (addUserPassword data))], rest)

/-- `tmq_console_codec_init`. -/
def consoleParsers : PayloadParsers (List (Bytes × Bytes)) :=
  tmqLenBasedCodecRegisterParser tmqLenBasedCodecInit ConsoleMessageType.addUser.code
    parseAddUserMessage

/-- A dispatch that does no harm: the type has a parser, the copy of the payload
fits its array and both strings end in what was received. -/
structure ConsoleSafe (f : LenBasedFrame) : Prop where
  registered : (parserAt consoleParsers f.messageType).isSome
  fits : f.payload.length ≤ 128
  username : usernameEnd f.payload < f.payload.length
  password : passwordEnd f.payload < f.payload.length

/-- A message to add a user with two zero bytes in at most 128. -/
def AddsUser (f : LenBasedFrame) : Prop :=
  f.messageType = ConsoleMessageType.addUser.code ∧ f.payload.length ≤ 128 ∧
    2 ≤ f.payload.count 0

/-! ### The two strings -/

theorem length_cstr_append_lt (data tail : Bytes) :
    (cstr (data ++ tail)).length < data.length ↔ 0 ∈ data := by
  have happend : cstr (data ++ tail)
      = if (cstr data).length = data.length then data ++ cstr tail else cstr data :=
    List.takeWhile_append
  have hle : (cstr data).length ≤ data.length := (List.takeWhile_sublist _).length_le
  have hself : (cstr data).length = data.length ↔ cstr data = data := by
    constructor
    · exact fun h => (List.takeWhile_sublist _).eq_of_length h
    · exact congrArg List.length
  rw [happend]
  by_cases h : (cstr data).length = data.length
  · have hzero : 0 ∉ data := (cstr_eq_self_iff data).mp (hself.mp h)
    rw [if_pos h, List.length_append]
    exact iff_of_false (by omega) hzero
  · have hzero : 0 ∈ data := by
      by_contra hnot
      exact h (hself.mpr ((cstr_eq_self_iff data).mpr hnot))
    rw [if_neg h]
    exact iff_of_true (by omega) hzero

theorem cstr_append_zero {s : Bytes} (h : 0 ∉ s) (tail : Bytes) : cstr (s ++ 0 :: tail) = s := by
  have hne : ∀ c ∈ s, decide (c ≠ 0) = true := by
    intro c hc
    have : c ≠ 0 := by
      rintro rfl
      exact h hc
    simpa using this
  rw [cstr, List.takeWhile_append_of_pos hne]
  simp

/-- A string with a zero byte is what a `char*` sees, the zero byte and the rest. -/
theorem eq_cstr_append {s : Bytes} (h : 0 ∈ s) : ∃ rest, s = cstr s ++ 0 :: rest := by
  obtain ⟨before, rest, rfl, hbefore⟩ := List.eq_append_cons_of_mem h
  exact ⟨rest, by rw [cstr_append_zero hbefore]⟩

/-- Both strings end in the payload exactly when it has two zero bytes. -/
theorem strings_end_iff (data : Bytes) :
    (usernameEnd data < data.length ∧ passwordEnd data < data.length) ↔ 2 ≤ data.count 0 := by
  by_cases hzero : 0 ∈ data
  · obtain ⟨rest, hdata⟩ := eq_cstr_append hzero
    generalize hfill : List.replicate (128 - data.length) (0 : UInt8) = fill
    have hnone := zero_not_mem_cstr data
    have harray : addUserArray data = cstr data ++ 0 :: (rest ++ fill) := by
      rw [addUserArray, hfill]
      nth_rewrite 1 [hdata]
      simp
    have hend : usernameEnd data = (cstr data).length := by
      rw [usernameEnd, harray, cstr_append_zero hnone]
    have hpassword : addUserPassword data = rest ++ fill := by
      rw [addUserPassword, hend, harray]
      simp [List.drop_append]
    have hlength : data.length = (cstr data).length + 1 + rest.length := by
      nth_rewrite 1 [hdata]
      simp only [List.length_append, List.length_cons]
      omega
    have hcount : data.count 0 = 1 + rest.count 0 := by
      nth_rewrite 1 [hdata]
      rw [List.count_append, List.count_cons_self, List.count_eq_zero_of_not_mem hnone]
      omega
    have hinside := length_cstr_append_lt rest fill
    have hpositive := List.count_pos_iff (a := (0 : UInt8)) (l := rest)
    rw [passwordEnd, hend, hpassword, hlength, hcount]
    constructor
    · rintro ⟨-, hlt⟩
      have hmem := hpositive.mpr (hinside.mp (by omega))
      omega
    · intro htwo
      have hlt := hinside.mpr (hpositive.mp (by omega))
      omega
  · have hcount := List.count_eq_zero_of_not_mem hzero
    have hnot : ¬usernameEnd data < data.length := by
      rw [usernameEnd, addUserArray, length_cstr_append_lt]
      exact hzero
    apply iff_of_false
    · exact fun h => hnot h.1
    · omega

theorem parserAt_consoleParsers (messageType : UInt8) :
    parserAt consoleParsers messageType
      = if messageType = ConsoleMessageType.addUser.code then some parseAddUserMessage
        else none := by
  rw [consoleParsers, parserAt_register (by decide), parserAt_init]

/-- Safe dispatches are those of messages that add a user. -/
theorem consoleSafe_iff (f : LenBasedFrame) : ConsoleSafe f ↔ AddsUser f := by
  have hregistered : (parserAt consoleParsers f.messageType).isSome ↔
      f.messageType = ConsoleMessageType.addUser.code := by
    rw [parserAt_consoleParsers]
    split <;> simp_all
  constructor
  · intro h
    exact ⟨hregistered.mp h.registered, h.fits,
      (strings_end_iff f.payload).mp ⟨h.username, h.password⟩⟩
  · rintro ⟨htype, hfits, hzeros⟩
    obtain ⟨husername, hpassword⟩ := (strings_end_iff f.payload).mpr hzeros
    exact ⟨hregistered.mpr htype, hfits, husername, hpassword⟩

/-! ### Streams -/

theorem parseAddUserMessage_payload (added : List (Bytes × Bytes)) (payload rest : Bytes) :
    parseAddUserMessage added (payload ++ rest) payload.length
      = if 128 < payload.length ∨ 0 ∉ addUserArray payload ∨ 0 ∉ addUserPassword payload then none
        else
          some (added ++ [(cstr (addUserArray payload), cstr (addUserPassword payload))], rest) := by
  simp only [parseAddUserMessage, tmqBufferRead, List.take_left, List.drop_left]

/-- Whether the parser is defined depends on the payload alone. -/
theorem console_kinds (f : LenBasedFrame) :
    f.Consumed consoleParsers ∨ f.Fatal consoleParsers := by
  by_cases htype : f.messageType = ConsoleMessageType.addUser.code
  · have hparser : parserAt consoleParsers f.messageType = some parseAddUserMessage := by
      rw [parserAt_consoleParsers, if_pos htype]
    by_cases hundefined : 128 < f.payload.length ∨ 0 ∉ addUserArray f.payload ∨
        0 ∉ addUserPassword f.payload
    · right
      intro added rest
      rw [hparser, Option.bind_some, parseAddUserMessage_payload, if_pos hundefined]
    · left
      refine ⟨parseAddUserMessage, hparser, ?_⟩
      intro added rest
      rw [parseAddUserMessage_payload, if_neg hundefined]
      exact ⟨_, rfl⟩
  · right
    intro added rest
    rw [parserAt_consoleParsers, if_neg htype]
    rfl

/-- The array has a zero byte in every part of the received bytes that has one. -/
theorem ConsoleSafe.consumed {f : LenBasedFrame} (h : ConsoleSafe f) :
    f.Consumed consoleParsers := by
  obtain ⟨htype, -, -⟩ := (consoleSafe_iff f).mp h
  have husername : 0 ∈ f.payload := (length_cstr_append_lt _ _).mp h.username
  have harray : 0 ∈ addUserArray f.payload := List.mem_append_left _ husername
  have hpassword : 0 ∈ addUserPassword f.payload := by
    by_contra hnone
    have hend := h.password
    have hself : cstr (addUserPassword f.payload) = addUserPassword f.payload :=
      (cstr_eq_self_iff _).mpr hnone
    have hlength : f.payload.length ≤ (addUserArray f.payload).length := by
      rw [addUserArray, List.length_append]
      omega
    rw [passwordEnd, hself, addUserPassword, List.length_drop] at hend
    omega
  refine ⟨parseAddUserMessage, ?_, ?_⟩
  · rw [parserAt_consoleParsers, if_pos htype]
  · intro added rest
    rw [parseAddUserMessage_payload, if_neg]
    · exact ⟨_, rfl⟩
    · rintro (hlong | hnone | hnone)
      · exact Nat.not_lt.mpr h.fits hlong
      · exact hnone harray
      · exact hnone hpassword

/-- The console's dispatches are safe exactly on the streams whose whole frames
all add a user. -/
theorem console_safe_iff (chunks : List Bytes) :
    ∃ conn, LenBasedConn.feedChunks consoleParsers (.new []) chunks = some conn ∧
      ((∀ f ∈ conn.calls, ConsoleSafe f) ↔
        ∀ f ∈ (lenBasedFramer.split chunks.flatten).1, AddsUser f) := by
  obtain ⟨conn, hconn, hreceived⟩ := (LenBasedConn.received_new []).feedChunks chunks
    (fun f _ => console_kinds f)
  refine ⟨conn, hconn, ?_⟩
  have hhandled := hreceived.handled
  rw [List.nil_append] at hhandled
  generalize (lenBasedFramer.split chunks.flatten).1 = frames at hhandled
  generalize conn.calls = calls at hhandled
  generalize conn.lost = lost at hhandled
  cases hhandled with
  | all _ => simp only [consoleSafe_iff]
  | @upTo good later bad _ hbad =>
      have hunsafe : ¬ConsoleSafe bad := fun hsafe => hsafe.consumed.not_fatal [] hbad
      apply iff_of_false
      · intro hall
        exact hunsafe (hall bad (by simp))
      · intro hall
        exact hunsafe ((consoleSafe_iff bad).mpr (hall bad (by simp)))

end TinyMqtt
