import TinyMqtt.Codec.Decode

/-!
Authentication against the password file: `mqtt_connect` with neither
anonymous login nor MySQL. The file is a map from usernames to encoded
passwords. The fields of a CONNECT are pointers, null where the packet lacks
the field, and they go into the look-up and into `password_encode` as they
are.
-/

namespace TinyMqtt

/-! ### The content map of a configuration file -/

def murmurMultiplier : UInt64 := 0xc6a4a7935bd1e995

def littleEndian (bytes : Bytes) : UInt64 :=
  bytes.foldr (fun byte k => byte.toUInt64 ||| (k <<< 8)) 0

/-- The loop of `hash_str` over eight bytes at a time, and the bytes that are
left for its switch. -/
def hashWords (h : UInt64) : Bytes → UInt64 × Bytes
  | b₀ :: b₁ :: b₂ :: b₃ :: b₄ :: b₅ :: b₆ :: b₇ :: rest =>
      let k := littleEndian [b₀, b₁, b₂, b₃, b₄, b₅, b₆, b₇] * murmurMultiplier
      let k := (k ^^^ (k >>> 47)) * murmurMultiplier
      hashWords ((h ^^^ k) * murmurMultiplier) rest
  | rest => (h, rest)

def hashStr (key : Bytes) : UInt32 :=
  let (h, rest) := hashWords (UInt64.ofNat key.length * murmurMultiplier) key
  let h := if rest = [] then h else (h ^^^ littleEndian rest) * murmurMultiplier
  let h := (h ^^^ (h >>> 47)) * murmurMultiplier
  (h ^^^ (h >>> 47)).toUInt32

structure ConfigValue where
  value : Bytes
  deleted : Bool
  deriving DecidableEq, Repr

/-- `tmq_config_t::cfg`: keys are copied from `char*` strings, and no two
entries have the same one. -/
structure TmqConfig where
  cfg : List (Bytes × ConfigValue)
  distinct : (cfg.map Prod.fst).Nodup
  plain : ∀ entry ∈ cfg, 0 ∉ entry.1

/-- `tmq_map_get_` of a `char*`. A null pointer hashes to 0; `strcmp` then
compares it with every key of that hash, which has no result. -/
def TmqConfig.tmqMapGet (conf : TmqConfig) : Option Bytes → Option (Option ConfigValue)
  | some key => some ((conf.cfg.find? fun entry => entry.1 = cstr key).map Prod.snd)
  | none => if conf.cfg.any fun entry => hashStr entry.1 = 0 then none else some none

def TmqConfig.tmqConfigExist (conf : TmqConfig) (key : Option Bytes) : Option Bool := do
  let it ← conf.tmqMapGet key
  some (it.any fun cfgValue => !cfgValue.deleted)

/-- `tmq_config_get`: null when there is no such entry. -/
def TmqConfig.tmqConfigGet (conf : TmqConfig) (key : Option Bytes) :
    Option (Option Bytes) := do
  let it ← conf.tmqMapGet key
  some ((it.filter fun cfgValue => !cfgValue.deleted).map fun cfgValue =>
    tmqStrNew cfgValue.value)

/-- Among entries with distinct keys the look-up gives a value just when it
stands with that key. -/
theorem find?_fst_eq_some_iff {entries : List (Bytes × ConfigValue)}
    (hdistinct : (entries.map Prod.fst).Nodup) (key : Bytes) (value : ConfigValue) :
    (entries.find? fun entry => entry.1 = key).map Prod.snd = some value ↔
      (key, value) ∈ entries := by
  induction entries with
  | nil => simp
  | cons entry rest ih =>
      obtain ⟨hfresh, hrest⟩ := List.nodup_cons.mp hdistinct
      rw [List.find?_cons, List.mem_cons]
      by_cases hkey : entry.1 = key
      · have hother : (key, value) ∉ rest := by
          intro hmem
          exact hfresh (hkey ▸ List.mem_map_of_mem hmem)
        simp [hkey, hother, Prod.ext_iff, eq_comm]
      · have hne : (key, value) ≠ entry := by
          rintro rfl
          exact hkey rfl
        simpa [hkey, hne] using ih hrest

theorem TmqConfig.tmqMapGet_eq_iff (conf : TmqConfig) (key : Bytes) (value : ConfigValue) :
    conf.tmqMapGet (some key) = some (some value) ↔ (cstr key, value) ∈ conf.cfg := by
  rw [tmqMapGet, Option.some_inj]
  exact find?_fst_eq_some_iff conf.distinct (cstr key) value

/-! ### `mqtt_connect` -/

/-- `password_encode` of a `char*`, whose length it takes first. -/
def passwordEncodePtr (passwordEncode : Bytes → Bytes) : Option Bytes → Option Bytes :=
  Option.map fun password => passwordEncode (cstr password)

/-- What the branch of the password file does: the pointers it hands to the
look-up and to `password_encode`, and `validate_success`, if there is one. -/
structure PasswordCheck where
  handed : List (Option Bytes)
  validateSuccess : Option Bool
  deriving DecidableEq, Repr

/-- The branch of `mqtt_connect` that reads the password file. -/
def checkPasswordFile (pwdConf : TmqConfig) (passwordEncode : Bytes → Bytes)
    (pkt : ConnectPkt) : PasswordCheck :=
  match pwdConf.tmqConfigExist pkt.username with
  | none => ⟨[pkt.username], none⟩
  | some false => ⟨[pkt.username], some false⟩
  | some true =>
      ⟨[pkt.username, pkt.username, pkt.password], do
        let pwdStored ← (← pwdConf.tmqConfigGet pkt.username)
        let pwdEncoded ← passwordEncodePtr passwordEncode pkt.password
        some (cstr pwdEncoded = cstr pwdStored)⟩

/-- `mqtt_connect` of a broker without anonymous login and without MySQL. -/
def mqttConnectByFile (pwdConf : TmqConfig) (passwordEncode : Bytes → Bytes) (conn : TcpConn)
    (pkt : ConnectPkt) : Option TcpConn := do
  let validateSuccess ← (checkPasswordFile pwdConf passwordEncode pkt).validateSuccess
  some (mqttConnect ⟨false, false, fun _ => validateSuccess⟩ conn pkt)

/-- A username that the file has an encoded password for. -/
def TmqConfig.Knows (pwdConf : TmqConfig) (username : Bytes) : Prop :=
  ∃ value, (cstr username, ⟨value, false⟩) ∈ pwdConf.cfg

/-- The packet has a username and a password, and the file maps the one to the
encoding of the other. -/
def FileGrants (pwdConf : TmqConfig) (passwordEncode : Bytes → Bytes) (pkt : ConnectPkt) : Prop :=
  ∃ username password value, pkt.username = some username ∧ pkt.password = some password ∧
    (cstr username, ⟨value, false⟩) ∈ pwdConf.cfg ∧
    cstr (passwordEncode (cstr password)) = cstr value

/-- A connection request goes to the broker just when the file grants it, and
otherwise the client is told that it is not authorised; no absent field is
looked up or encoded. -/
structure AuthenticatesByFile (pwdConf : TmqConfig) (passwordEncode : Bytes → Bytes)
    (conn : TcpConn) (pkt : ConnectPkt) : Prop where
  present : none ∉ (checkPasswordFile pwdConf passwordEncode pkt).handed
  connects : mqttConnectByFile pwdConf passwordEncode conn pkt =
    some (conn.record (.sessionConnect pkt)) ↔ FileGrants pwdConf passwordEncode pkt
  refuses : ¬ FileGrants pwdConf passwordEncode pkt →
    mqttConnectByFile pwdConf passwordEncode conn pkt =
      some (conn.send (.connack ⟨0, notAuthorized⟩))

theorem onClose_log (conn : TcpConn) : conn.log <+: conn.onClose.log := by
  unfold TcpConn.onClose
  cases conn.codecType with
  | client => exact List.prefix_rfl
  | server =>
      dsimp only
      split
      · exact List.prefix_append _ _
      · exact List.prefix_rfl

theorem close_log (conn : TcpConn) : conn.log <+: conn.close.log := by
  unfold TcpConn.close
  split
  · exact List.prefix_rfl
  · exact onClose_log conn

theorem tick_log (conn : TcpConn) : conn.log <+: conn.tick.log := by
  unfold TcpConn.tick
  split
  · exact List.prefix_rfl
  · exact close_log { conn with writeErrorIn := none }
  · exact List.prefix_rfl

/-- Refusing a connection is not taking it up. -/
theorem send_ne_sessionConnect (conn : TcpConn) (ack : Packet Bytes) (pkt : ConnectPkt) :
    conn.send ack ≠ conn.record (.sessionConnect pkt) := by
  intro hsame
  have hlog := congrArg TcpConn.log hsame
  unfold TcpConn.send at hlog
  split at hlog
  · simp at hlog
  · have htick := tick_log (conn.record (.send ack))
    rw [hlog] at htick
    simpa using htick.eq_of_length (by simp)

section Check

variable {pwdConf : TmqConfig} {passwordEncode : Bytes → Bytes} {pkt : ConnectPkt}
  {username : Bytes}

theorem checkPasswordFile_known (husername : pkt.username = some username) {value : Bytes}
    (hmem : (cstr username, ⟨value, false⟩) ∈ pwdConf.cfg) :
    checkPasswordFile pwdConf passwordEncode pkt =
      ⟨[pkt.username, pkt.username, pkt.password],
        pkt.password.map fun password =>
          decide (cstr (passwordEncode (cstr password)) = cstr value)⟩ := by
  have hget := (pwdConf.tmqMapGet_eq_iff username ⟨value, false⟩).mpr hmem
  have hexist : pwdConf.tmqConfigExist pkt.username = some true := by
    rw [husername, TmqConfig.tmqConfigExist, hget]
    rfl
  have hstored : pwdConf.tmqConfigGet pkt.username = some (some (cstr value)) := by
    rw [husername, TmqConfig.tmqConfigGet, hget]
    rfl
  rw [checkPasswordFile, hexist]
  simp only [hstored]
  cases pkt.password with
  | none => rfl
  | some password => simp [passwordEncodePtr]

theorem checkPasswordFile_unknown (husername : pkt.username = some username)
    (hunknown : ¬ pwdConf.Knows username) :
    checkPasswordFile pwdConf passwordEncode pkt = ⟨[some username], some false⟩ := by
  have hexist : pwdConf.tmqConfigExist pkt.username = some false := by
    rw [husername]
    rcases hget : pwdConf.tmqMapGet (some username) with _ | _ | ⟨value, deleted⟩
    · simp [TmqConfig.tmqMapGet] at hget
    · rw [TmqConfig.tmqConfigExist, hget]
      rfl
    · have hmem := (pwdConf.tmqMapGet_eq_iff username ⟨value, deleted⟩).mp hget
      cases deleted with
      | false => exact absurd ⟨value, hmem⟩ hunknown
      | true =>
          rw [TmqConfig.tmqConfigExist, hget]
          rfl
  rw [checkPasswordFile, hexist, husername]

/-- A null username is looked up. -/
theorem none_mem_handed_of_username (hnull : pkt.username = none) :
    none ∈ (checkPasswordFile pwdConf passwordEncode pkt).handed := by
  unfold checkPasswordFile
  split <;> simp [hnull]

theorem mqttConnectByFile_of_check {success : Bool} (conn : TcpConn)
    (hcheck : (checkPasswordFile pwdConf passwordEncode pkt).validateSuccess = some success) :
    mqttConnectByFile pwdConf passwordEncode conn pkt =
      some (if success then conn.record (.sessionConnect pkt)
        else conn.send (.connack ⟨0, notAuthorized⟩)) := by
  rw [mqttConnectByFile, hcheck]
  cases success <;> rfl

/-- The file decides when both fields are there, or when the username is and
the file does not have it. -/
theorem AuthenticatesByFile.of_check {conn : TcpConn} {success : Bool}
    (hpresent : none ∉ (checkPasswordFile pwdConf passwordEncode pkt).handed)
    (hcheck : (checkPasswordFile pwdConf passwordEncode pkt).validateSuccess = some success)
    (hgrants : success = true ↔ FileGrants pwdConf passwordEncode pkt) :
    AuthenticatesByFile pwdConf passwordEncode conn pkt := by
  have hresult := mqttConnectByFile_of_check conn hcheck
  cases success with
  | true =>
      refine ⟨hpresent, ?_, ?_⟩
      · exact iff_of_true hresult (hgrants.mp rfl)
      · exact fun hnot => absurd (hgrants.mp rfl) hnot
  | false =>
      have hnot : ¬ FileGrants pwdConf passwordEncode pkt := by
        rw [← hgrants]
        simp
      refine ⟨hpresent, ?_, fun _ => hresult⟩
      rw [hresult]
      refine iff_of_false ?_ hnot
      intro hsame
      exact send_ne_sessionConnect _ _ _ (Option.some.inj hsame)

end Check

/-- The password file decides over a CONNECT just when the packet has a
username, and a password if the file has that username. -/
theorem authenticatesByFile_iff (pwdConf : TmqConfig) (passwordEncode : Bytes → Bytes)
    (conn : TcpConn) (pkt : ConnectPkt) :
    AuthenticatesByFile pwdConf passwordEncode conn pkt ↔
      ∃ username, pkt.username = some username ∧
        (pkt.password = none → ¬ pwdConf.Knows username) := by
  constructor
  · intro h
    cases husername : pkt.username with
    | none => exact absurd (none_mem_handed_of_username husername) h.present
    | some username =>
        refine ⟨username, rfl, ?_⟩
        rintro hpassword ⟨value, hmem⟩
        have hcheck := @checkPasswordFile_known pwdConf passwordEncode _ _ husername _ hmem
        have hpresent := h.present
        rw [hcheck, hpassword] at hpresent
        simp at hpresent
  · rintro ⟨username, husername, hpassword⟩
    by_cases hknown : pwdConf.Knows username
    · obtain ⟨value, hmem⟩ := hknown
      obtain ⟨password, hsome⟩ : ∃ password, pkt.password = some password := by
        rw [← Option.ne_none_iff_exists']
        exact fun hnone => hpassword hnone ⟨value, hmem⟩
      have hcheck := @checkPasswordFile_known pwdConf passwordEncode _ _ husername _ hmem
      rw [hsome, husername] at hcheck
      apply AuthenticatesByFile.of_check
      · simp [hcheck]
      · rw [hcheck]
        rfl
      · rw [decide_eq_true_iff]
        constructor
        · intro hsame
          exact ⟨username, password, value, husername, hsome, hmem, hsame⟩
        · rintro ⟨username', password', value', husername', hsome', hmem', hsame⟩
          obtain rfl := Option.some.inj (husername.symm.trans husername')
          obtain rfl := Option.some.inj (hsome.symm.trans hsome')
          have hget := (pwdConf.tmqMapGet_eq_iff username ⟨value, false⟩).mpr hmem
          have hget' := (pwdConf.tmqMapGet_eq_iff username ⟨value', false⟩).mpr hmem'
          rw [hget] at hget'
          obtain rfl : value = value' := by simpa using hget'
          exact hsame
    · have hcheck := @checkPasswordFile_unknown pwdConf passwordEncode _ _ husername hknown
      apply AuthenticatesByFile.of_check
      · simp [hcheck]
      · rw [hcheck]
      · refine iff_of_false (by simp) ?_
        rintro ⟨username', password, value, husername', -, hmem, -⟩
        obtain rfl := Option.some.inj (husername.symm.trans husername')
        exact hknown ⟨value, hmem⟩

theorem readLengthPrefixedIf_isSome {flag : Bool} {buffer rest : Bytes} {field : Option Bytes}
    (hread : readLengthPrefixedIf flag buffer = some (field, rest)) : field.isSome = flag := by
  unfold readLengthPrefixedIf at hread
  cases flag with
  | false =>
      obtain ⟨rfl, rfl⟩ : none = field ∧ buffer = rest := by simpa using hread
      rfl
  | true =>
      rw [if_pos rfl] at hread
      obtain ⟨⟨string, after⟩, -, hfield⟩ := Option.bind_eq_some_iff.mp hread
      obtain ⟨rfl, rfl⟩ : some string = field ∧ after = rest := by simpa using hfield
      rfl

/-- The decoder leaves a field null just when its flag is off, each on its
own. -/
theorem parseConnectFields_present {flags : UInt8} {keepAlive : Option UInt16}
    {clientIdLen : UInt16} {buffer rest : Bytes} {pkt : ConnectPkt}
    (hparse : parseConnectFields flags keepAlive clientIdLen buffer = some (pkt, rest)) :
    pkt.username.isSome = connectUsernameFlag flags ∧
      pkt.password.isSome = connectPasswordFlag flags := by
  unfold parseConnectFields at hparse
  obtain ⟨⟨⟨willTopic, willMessage⟩, afterWill⟩, -, hparse⟩ := Option.bind_eq_some_iff.mp hparse
  obtain ⟨⟨username, afterUsername⟩, husername, hparse⟩ := Option.bind_eq_some_iff.mp hparse
  obtain ⟨⟨password, afterPassword⟩, hpassword, hparse⟩ := Option.bind_eq_some_iff.mp hparse
  obtain ⟨seconds, -, hparse⟩ := Option.bind_eq_some_iff.mp hparse
  obtain ⟨rfl, rfl⟩ := Prod.mk.inj (Option.some.inj hparse)
  exact ⟨readLengthPrefixedIf_isSome husername, readLengthPrefixedIf_isSome hpassword⟩

def oneUserFile : TmqConfig where
  cfg := [([117], ⟨[112], false⟩)]
  distinct := by decide
  plain := by decide

/-- A CONNECT of the user `u` whose password flag is off. -/
theorem not_authenticatesByFile_passwordless :
    ¬ ∀ (pwdConf : TmqConfig) (passwordEncode : Bytes → Bytes) (conn : TcpConn) (flags : UInt8)
        (keepAlive : Option UInt16) (clientIdLen : UInt16) (buffer rest : Bytes)
        (pkt : ConnectPkt), connectFlagsValid flags = true →
        parseConnectFields flags keepAlive clientIdLen buffer = some (pkt, rest) →
        AuthenticatesByFile pwdConf passwordEncode conn pkt := by
  intro hall
  have hpresent := (hall oneUserFile id newConn 0x82 (some 60) 1 [97, 0, 1, 117] []
    ⟨0x82, 60, some [97], none, none, some [117], none⟩ (by decide) (by decide)).present
  exact hpresent (by decide)

end TinyMqtt
