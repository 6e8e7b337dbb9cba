import TinyMqtt.Codec.RoundTrip

/-!
The capacity of the vector that an encoder fills. Every function that makes
raw copies reserves before them; whether that is enough depends on the bytes
already there, on the growth of the vector and on the lengths of the strings.
-/

namespace TinyMqtt

def stringStepsIf (flag : Bool) (s : Option Bytes) : List PackStep :=
  if flag then stringSteps s else []

def clientIdSteps (clientId : Option Bytes) : List PackStep :=
  if tmqStrLen clientId = 0 then lengthSteps 0 else stringSteps clientId

def connectSteps (pkt : ConnectPkt) : List PackStep :=
  uint16Steps 4 ++ [.strcpy (some protocolName), .pushBack 4, .pushBack pkt.flags] ++
    uint16Steps pkt.keepAlive ++ clientIdSteps pkt.clientId ++
    stringStepsIf (connectWillFlag pkt.flags) pkt.willTopic ++
    stringStepsIf (connectWillFlag pkt.flags) pkt.willMessage ++
    stringStepsIf (connectUsernameFlag pkt.flags) pkt.username ++
    stringStepsIf (connectPasswordFlag pkt.flags) pkt.password

def publishSteps (pkt : PublishPkt Bytes) : List PackStep :=
  lengthSteps pkt.topic.length ++ [.memcpy pkt.topic] ++
    (if publishQos pkt.flags > 0 then uint16Steps pkt.packetId else []) ++ [.memcpy pkt.payload]

theorem packPublishPacket_steps (pkt : PublishPkt Bytes) :
    packPublishPacket pkt = do
      let header ← makeFixedHeader .publish pkt.flags.toNat (publishRemainLength pkt % 2 ^ 32)
      let bytes ← stepsBytes (publishSteps pkt)
      return header ++ bytes := by
  have hsteps : stepsBytes (publishSteps pkt) = .ok (packLength pkt.topic.length ++ pkt.topic ++
      (if publishQos pkt.flags > 0 then packUint16 pkt.packetId else []) ++ pkt.payload) := by
    rw [publishSteps, stepsBytes_append, stepsBytes_append, stepsBytes_append, lengthSteps,
      stepsBytes_uint16Steps]
    split
    · rw [stepsBytes_uint16Steps]
      simp [stepsBytes, PackStep.bytes, packLength, bind, Except.bind, pure, Except.pure]
    · simp [stepsBytes, PackStep.bytes, packLength, bind, Except.bind, pure, Except.pure]
  rw [hsteps]
  rfl

@[simp] theorem stepsBytes_stringStepsIf (flag : Bool) (s : Option Bytes) :
    stepsBytes (stringStepsIf flag s) = packStringIf flag s := by
  cases flag with
  | false => rfl
  | true => exact stepsBytes_stringSteps s

@[simp] theorem stepsBytes_clientIdSteps (clientId : Option Bytes) :
    stepsBytes (clientIdSteps clientId) = packClientId clientId := by
  unfold clientIdSteps packClientId
  split
  · exact stepsBytes_uint16Steps 0
  · exact stepsBytes_stringSteps clientId

theorem sendConnectPacket_steps (pkt : ConnectPkt) :
    sendConnectPacket pkt = do
      let header ← makeFixedHeader .connect 0 (connectRemainLength pkt % 2 ^ 32)
      let bytes ← stepsBytes (connectSteps pkt)
      return header ++ bytes := by
  have hname : stepsBytes [.strcpy (some protocolName), .pushBack 4, .pushBack pkt.flags] =
      .ok (protocolName ++ [4, pkt.flags]) := rfl
  unfold sendConnectPacket connectSteps
  simp only [stepsBytes_append, stepsBytes_uint16Steps, hname, stepsBytes_clientIdSteps,
    stepsBytes_stringStepsIf]
  cases packClientId pkt.clientId with
  | error e => rfl
  | ok clientId =>
      cases packStringIf (connectWillFlag pkt.flags) pkt.willTopic with
      | error e => rfl
      | ok willTopic =>
          cases packStringIf (connectWillFlag pkt.flags) pkt.willMessage with
          | error e => rfl
          | ok willMessage =>
              cases packStringIf (connectUsernameFlag pkt.flags) pkt.username with
              | error e => rfl
              | ok username =>
                  cases packStringIf (connectPasswordFlag pkt.flags) pkt.password with
                  | error e => rfl
                  | ok password => rfl

/-! ### Where the copies begin -/

/-- The functions that make raw copies. A tunnelled PUBLISH goes behind the
three bytes of the cluster's own header. -/
inductive CopyingSend where
  | sendConnectPacket (pkt : ConnectPkt)
  | sendPublishPacket (pkt : PublishPkt Bytes)
  | sendPublishTunMessage (pkt : PublishPkt Bytes)
  | sendSubscribePacket (pkt : SubscribePkt)
  | sendUnsubscribePacket (pkt : UnsubscribePkt)

theorem makeFixedHeader_length {type : PacketType} {flags remainLength : Nat} {header : Bytes}
    (h : makeFixedHeader type flags remainLength = .ok header) :
    header.length = 1 + (remainLengthBytes 5 remainLength).length := by
  unfold makeFixedHeader at h
  extract_lets bytes at h
  split at h
  · cases h
  · obtain rfl := Except.ok.inj h
    exact Nat.add_comm _ _

namespace CopyingSend

def prior : CopyingSend → Nat
  | sendPublishTunMessage _ => 3
  | _ => 0

/-- The remaining length before it is cut to 32 bits. -/
def fullLength : CopyingSend → Nat
  | sendConnectPacket pkt => connectRemainLength pkt
  | sendPublishPacket pkt => publishRemainLength pkt
  | sendPublishTunMessage pkt => publishRemainLength pkt
  | sendSubscribePacket pkt => subscribeRemainLength pkt
  | sendUnsubscribePacket pkt => unsubscribeRemainLength pkt

def remainLength (send : CopyingSend) : Nat := send.fullLength % 2 ^ 32

def steps : CopyingSend → List PackStep
  | sendConnectPacket pkt => connectSteps pkt
  | sendPublishPacket pkt => publishSteps pkt
  | sendPublishTunMessage pkt => publishSteps pkt
  | sendSubscribePacket pkt => subscribeSteps pkt
  | sendUnsubscribePacket pkt => unsubscribeSteps pkt

def reservation (send : CopyingSend) (size : Nat) : Nat :=
  match send with
  | sendSubscribePacket _ | sendUnsubscribePacket _ => send.remainLength
  | _ => size + send.remainLength

/-- The bytes before the copies: those before the fixed header, its first one
and those of the remaining length. -/
def headerSize (send : CopyingSend) : Nat :=
  send.prior + 1 + (remainLengthBytes 5 send.remainLength).length

/-- `make_fixed_header` returns 0. -/
def HeaderSucceeds (send : CopyingSend) : Prop :=
  (remainLengthBytes 5 send.remainLength).length ≤ 4

instance (send : CopyingSend) : Decidable send.HeaderSucceeds :=
  inferInstanceAs (Decidable (_ ≤ _))

/-- The vector after the fixed header and `tmq_vec_reserve`. -/
def start (send : CopyingSend) : PacketBuf :=
  let buf := PacketBuf.filled send.headerSize
  buf.reserve (send.reservation buf.size)

/-- Every raw copy of a packet whose fixed header succeeds finds the room it
needs. -/
def CapacitySuffices (send : CopyingSend) : Prop :=
  send.HeaderSucceeds → CopiesFit send.start send.steps

def firstCapacity (send : CopyingSend) : Nat :=
  if send.reservation send.headerSize > 8 then 2 * send.reservation send.headerSize else 8

theorem filled_succ (n : Nat) (hn : n < 8) : PacketBuf.filled (n + 1) = ⟨n + 1, 8⟩ := by
  induction n with
  | zero => rfl
  | succ n ih =>
      rw [PacketBuf.filled, Function.iterate_succ_apply', ← PacketBuf.filled, ih (by omega)]
      exact PacketBuf.pushBack_of_lt (by dsimp only; omega)

theorem prior_le (send : CopyingSend) : send.prior ≤ 3 := by
  cases send <;> simp [prior]

theorem start_eq {send : CopyingSend} (hheader : send.HeaderSucceeds) :
    send.start = ⟨send.headerSize, send.firstCapacity⟩ := by
  have hprior := send.prior_le
  have hpushed := filled_succ (send.prior + (remainLengthBytes 5 send.remainLength).length)
    (by rw [HeaderSucceeds] at hheader; omega)
  have hsize : send.headerSize =
      send.prior + (remainLengthBytes 5 send.remainLength).length + 1 := by
    rw [headerSize]
    omega
  rw [start, firstCapacity, hsize, hpushed]
  unfold PacketBuf.reserve
  split <;> rfl

theorem headerSize_le {send : CopyingSend} (hheader : send.HeaderSucceeds) :
    send.headerSize ≤ send.prior + 5 := by
  rw [HeaderSucceeds] at hheader
  rw [headerSize]
  omega

theorem two_le_headerSize (send : CopyingSend) : 2 ≤ send.headerSize := by
  have hbytes := List.length_pos_of_ne_nil (remainLengthBytes_ne_nil send.remainLength)
  rw [headerSize]
  omega

end CopyingSend

/-! ### Enough room for everything -/

def PackStep.length : PackStep → Nat
  | .pushBack _ => 1
  | .strcpy s => tmqStrLen s
  | .memcpy s => s.length

def stepsLength (steps : List PackStep) : Nat := (steps.map PackStep.length).sum

@[simp] theorem stepsLength_nil : stepsLength [] = 0 := rfl

@[simp] theorem stepsLength_cons (step : PackStep) (steps : List PackStep) :
    stepsLength (step :: steps) = step.length + stepsLength steps := rfl

@[simp] theorem stepsLength_append (first rest : List PackStep) :
    stepsLength (first ++ rest) = stepsLength first + stepsLength rest := by
  simp [stepsLength]

@[simp] theorem stepsLength_uint16Steps (value : UInt16) :
    stepsLength (uint16Steps value) = 2 := rfl

@[simp] theorem stepsLength_stringSteps (s : Option Bytes) :
    stepsLength (stringSteps s) = tmqStrLen s + 2 := by
  simp [stringSteps, lengthSteps, PackStep.length, Nat.add_comm]

@[simp] theorem stepsLength_stringStepsIf (flag : Bool) (s : Option Bytes) :
    stepsLength (stringStepsIf flag s) = if flag then tmqStrLen s + 2 else 0 := by
  cases flag with
  | false => rfl
  | true => exact stepsLength_stringSteps s

@[simp] theorem stepsLength_clientIdSteps (clientId : Option Bytes) :
    stepsLength (clientIdSteps clientId) = tmqStrLen clientId + 2 := by
  unfold clientIdSteps
  split
  · simp_all [lengthSteps]
  · exact stepsLength_stringSteps clientId

theorem stepsLength_connectSteps (pkt : ConnectPkt) :
    stepsLength (connectSteps pkt) = connectRemainLength pkt := by
  have hname : tmqStrLen (some protocolName) = 4 := rfl
  simp only [connectSteps, connectRemainLength, stepsLength_append, stepsLength_uint16Steps,
    stepsLength_cons, stepsLength_nil, PackStep.length, hname, stepsLength_clientIdSteps,
    stepsLength_stringStepsIf]
  cases connectWillFlag pkt.flags <;> cases connectUsernameFlag pkt.flags <;>
    cases connectPasswordFlag pkt.flags <;>
    simp only [↓reduceIte, Bool.false_eq_true] <;> omega

theorem stepsLength_publishSteps (pkt : PublishPkt Bytes) :
    stepsLength (publishSteps pkt) = publishRemainLength pkt := by
  by_cases hqos : publishQos pkt.flags = 0
  · simp [publishSteps, publishRemainLength, lengthSteps, hqos, PackStep.length]
    omega
  · simp [publishSteps, publishRemainLength, lengthSteps, hqos, Nat.pos_of_ne_zero hqos,
      PackStep.length]
    omega

theorem stepsLength_subscribeSteps (pkt : SubscribePkt) :
    stepsLength (subscribeSteps pkt) = subscribeRemainLength pkt := by
  have htopics : ∀ topics : List TopicFilterQos,
      stepsLength (topics.flatMap fun t => stringSteps (some t.topicFilter) ++ [.pushBack t.qos]) =
        (topics.map fun t => t.topicFilter.length + 3).sum := by
    intro topics
    induction topics with
    | nil => rfl
    | cons t rest ih =>
        have hlen : tmqStrLen (some t.topicFilter) = t.topicFilter.length := rfl
        rw [List.flatMap_cons, stepsLength_append, ih, stepsLength_append,
          stepsLength_stringSteps, stepsLength_cons, stepsLength_nil, List.map_cons, List.sum_cons,
          PackStep.length, hlen]
  rw [subscribeSteps, stepsLength_append, htopics, stepsLength_uint16Steps, subscribeRemainLength]

theorem stepsLength_unsubscribeSteps (pkt : UnsubscribePkt) :
    stepsLength (unsubscribeSteps pkt) = unsubscribeRemainLength pkt := by
  have hfilters : ∀ filters : List Bytes,
      stepsLength (filters.flatMap fun t => stringSteps (some t)) =
        (filters.map fun t => t.length + 2).sum := by
    intro filters
    induction filters with
    | nil => rfl
    | cons t rest ih =>
        have hlen : tmqStrLen (some t) = t.length := rfl
        rw [List.flatMap_cons, stepsLength_append, ih, stepsLength_stringSteps, List.map_cons,
          List.sum_cons, hlen]
  rw [unsubscribeSteps, stepsLength_append, hfilters, stepsLength_uint16Steps,
    unsubscribeRemainLength]

theorem length_cstr_le (s : Bytes) : (cstr s).length ≤ s.length :=
  (List.takeWhile_prefix _).length_le

/-- Nothing has to grow when all the bytes fit, and the terminator of a
`strcpy` behind them. -/
theorem copiesFit_of_room {buf : PacketBuf} {steps : List PackStep}
    (hroom : buf.size + stepsLength steps ≤ buf.cap)
    (hnul : buf.size + stepsLength steps < buf.cap ∨ ∀ s, .strcpy s ∉ steps) :
    CopiesFit buf steps := by
  induction steps generalizing buf with
  | nil => exact trivial
  | cons step rest ih =>
      rw [stepsLength_cons] at hroom hnul
      have hrest : ∀ n, n = step.length → buf.size + n + stepsLength rest < buf.cap ∨
          ∀ s, .strcpy s ∉ rest := by
        rintro n rfl
        rw [Nat.add_assoc]
        exact hnul.imp_right fun hnone s hmem => hnone s (List.mem_cons_of_mem _ hmem)
      cases step with
      | pushBack byte =>
          rw [PackStep.length] at hroom
          have hlt : buf.size < buf.cap := by omega
          rw [CopiesFit, PacketBuf.pushBack_of_lt hlt]
          exact ih (by dsimp only; omega) (hrest 1 rfl)
      | strcpy s =>
          cases s with
          | none => exact trivial
          | some s =>
              rw [PackStep.length, tmqStrLen] at hroom hnul
              have hcopied := length_cstr_le s
              have hlt := hnul.resolve_right fun hnone => hnone _ List.mem_cons_self
              refine ⟨by omega, ?_⟩
              rw [PacketBuf.resize_of_le (by omega)]
              exact ih (by dsimp only; omega) (hrest s.length rfl)
      | memcpy s =>
          rw [PackStep.length] at hroom
          refine ⟨by omega, ?_⟩
          rw [PacketBuf.resize_of_le (by omega)]
          exact ih (by dsimp only; omega) (hrest s.length rfl)

/-! ### Capacities that double -/

/-- One of the capacities `base * 2 ^ j` lies among `n` places from `pos` on. -/
def Crosses (base pos n : Nat) : Prop := ∃ j, pos ≤ base * 2 ^ j ∧ base * 2 ^ j < pos + n

/-- From a position on, no copy runs over one of the capacities that doubling
gives. A string that is longer than what `strcpy` took of it may do so, and
then the resize sets the capacity anew. -/
def ClearFrom : Nat → Nat → List PackStep → Prop
  | _, _, [] => True
  | base, pos, .pushBack _ :: rest => ClearFrom base (pos + 1) rest
  | _, _, .strcpy none :: _ => True
  | base, pos, .strcpy (some s) :: rest =>
      ¬ Crosses base pos ((cstr s).length + 1) ∧
        (Crosses base pos s.length → ClearFrom (2 * (pos + s.length)) (pos + s.length) rest) ∧
        (¬ Crosses base pos s.length → ClearFrom base (pos + s.length) rest)
  | base, pos, .memcpy s :: rest =>
      ¬ Crosses base pos s.length ∧ ClearFrom base (pos + s.length) rest

/-- The capacity is the first one of `base * 2 ^ j` that holds the size. -/
structure SizedBy (base : Nat) (buf : PacketBuf) : Prop where
  large : 8 ≤ buf.cap
  fits : buf.size ≤ buf.cap
  doubled : ∃ j, buf.cap = base * 2 ^ j
  least : ∀ j, base * 2 ^ j < buf.cap → base * 2 ^ j < buf.size

namespace SizedBy

variable {base : Nat} {buf : PacketBuf}

theorem of_cap (hlarge : 8 ≤ buf.cap) (hfits : buf.size ≤ buf.cap) : SizedBy buf.cap buf := by
  refine ⟨hlarge, hfits, ⟨0, by simp⟩, ?_⟩
  intro j hlt
  have hpow := Nat.le_mul_of_pos_right buf.cap (Nat.two_pow_pos j)
  omega

theorem pushBack (h : SizedBy base buf) : SizedBy base buf.pushBack := by
  obtain ⟨hlarge, hfits, ⟨j, hj⟩, hleast⟩ := h
  rcases Nat.lt_or_eq_of_le hfits with hlt | hfull
  · rw [PacketBuf.pushBack_of_lt hlt]
    exact ⟨hlarge, hlt, ⟨j, hj⟩, fun i hi => Nat.lt_succ_of_lt (hleast i hi)⟩
  · rw [PacketBuf.pushBack_of_ge hlarge hfull.ge]
    refine ⟨by dsimp only; omega, by dsimp only; omega, ⟨j + 1, ?_⟩, ?_⟩
    · dsimp only
      rw [hj, pow_succ, Nat.mul_assoc]
    · -- a smaller doubling is at most the old capacity
      intro i hi
      dsimp only at hi ⊢
      have hbase : 0 < base := by
        by_contra hzero
        obtain rfl : base = 0 := by omega
        omega
      rw [hj, Nat.mul_assoc, ← pow_succ] at hi
      have hexp : i < j + 1 :=
        (Nat.pow_lt_pow_iff_right (by decide)).mp (Nat.lt_of_mul_lt_mul_left hi)
      have hle : base * 2 ^ i ≤ base * 2 ^ j :=
        Nat.mul_le_mul_left base (Nat.pow_le_pow_right (by decide) (by omega))
      omega

/-- A copy fits just when no capacity lies in its way. -/
theorem fits_iff (h : SizedBy base buf) (n : Nat) :
    n ≤ buf.cap - buf.size ↔ ¬ Crosses base buf.size n := by
  have hfits := h.fits
  constructor
  · rintro hroom ⟨j, hle, hlt⟩
    have hsmaller := h.least j (by omega)
    omega
  · intro hclear
    obtain ⟨j, hj⟩ := h.doubled
    by_contra hroom
    exact hclear ⟨j, by omega, by omega⟩

theorem resize_of_not_crosses (h : SizedBy base buf) {n : Nat}
    (hclear : ¬ Crosses base buf.size n) : SizedBy base (buf.resize (buf.size + n)) := by
  have hroom := (h.fits_iff n).mpr hclear
  have hfits := h.fits
  rw [PacketBuf.resize_of_le (by omega)]
  exact ⟨h.large, by dsimp only; omega, h.doubled, fun i hi => Nat.lt_add_right n (h.least i hi)⟩

theorem resize_of_crosses (h : SizedBy base buf) {n : Nat} (hover : Crosses base buf.size n) :
    SizedBy (2 * (buf.size + n)) (buf.resize (buf.size + n)) := by
  have hroom := mt (h.fits_iff n).mp (not_not_intro hover)
  have hfits := h.fits
  have hlarge := h.large
  have hcap : (buf.resize (buf.size + n)).cap = 2 * (buf.size + n) :=
    PacketBuf.resize_cap_of_lt (by omega)
  rw [← hcap]
  apply of_cap
  · omega
  · rw [hcap, PacketBuf.resize_size]
    omega

end SizedBy

/-- The copies fit just when none runs over a capacity. -/
theorem copiesFit_iff_clearFrom {base : Nat} {buf : PacketBuf} {steps : List PackStep}
    (h : SizedBy base buf) : CopiesFit buf steps ↔ ClearFrom base buf.size steps := by
  induction steps generalizing base buf with
  | nil => exact Iff.rfl
  | cons step rest ih =>
      cases step with
      | pushBack byte =>
          rw [CopiesFit, ClearFrom, ih h.pushBack, PacketBuf.pushBack_size]
      | strcpy s =>
          cases s with
          | none => exact Iff.rfl
          | some s =>
              rw [CopiesFit, ClearFrom, h.fits_iff]
              apply and_congr_right'
              by_cases hover : Crosses base buf.size s.length
              · rw [ih (h.resize_of_crosses hover), PacketBuf.resize_size]
                simp [hover]
              · rw [ih (h.resize_of_not_crosses hover), PacketBuf.resize_size]
                simp [hover]
      | memcpy s =>
          rw [CopiesFit, ClearFrom, h.fits_iff]
          apply and_congr_right
          intro hclear
          rw [ih (h.resize_of_not_crosses hclear), PacketBuf.resize_size]

/-! ### When the capacity suffices -/

/-- A SUBSCRIBE so short that the capacity is still the 8 bytes of the fixed
header, with two bytes or more to copy first. -/
def SubscribePkt.Tight (pkt : SubscribePkt) : Prop :=
  subscribeRemainLength pkt ≤ 8 ∧
    ∃ t rest, pkt.topics = t :: rest ∧ 2 ≤ (cstr t.topicFilter).length

/-- The same of an UNSUBSCRIBE. With nothing to copy first, its second filter
begins at the end of the 8 bytes. -/
def UnsubscribePkt.Tight (pkt : UnsubscribePkt) : Prop :=
  unsubscribeRemainLength pkt ≤ 8 ∧
    ∃ t rest, pkt.topics = t :: rest ∧ (2 ≤ (cstr t).length ∨ (t = [] ∧ rest ≠ []))

namespace CopyingSend

/-- When the capacity suffices: below 2 ^ 32 bytes unless the packet is a
short one, and beyond, where the remaining length wraps, for no PUBLISH and
for any other packet with every copy clear of the capacities. -/
def EnoughRoom (send : CopyingSend) : Prop :=
  match send with
  | sendConnectPacket _ => send.fullLength < 2 ^ 32 ∨
      ClearFrom send.firstCapacity send.headerSize send.steps
  | sendPublishPacket _ | sendPublishTunMessage _ => send.fullLength < 2 ^ 32
  | sendSubscribePacket pkt => (send.fullLength < 2 ^ 32 ∧ ¬ pkt.Tight) ∨
      (2 ^ 32 ≤ send.fullLength ∧ ClearFrom send.firstCapacity send.headerSize send.steps)
  | sendUnsubscribePacket pkt => (send.fullLength < 2 ^ 32 ∧ ¬ pkt.Tight) ∨
      (2 ^ 32 ≤ send.fullLength ∧ ClearFrom send.firstCapacity send.headerSize send.steps)

variable {send : CopyingSend}

theorem stepsLength_steps (send : CopyingSend) : stepsLength send.steps = send.fullLength := by
  cases send with
  | sendConnectPacket pkt => exact stepsLength_connectSteps pkt
  | sendPublishPacket pkt => exact stepsLength_publishSteps pkt
  | sendPublishTunMessage pkt => exact stepsLength_publishSteps pkt
  | sendSubscribePacket pkt => exact stepsLength_subscribeSteps pkt
  | sendUnsubscribePacket pkt => exact stepsLength_unsubscribeSteps pkt

theorem remainLength_eq (hwrap : send.fullLength < 2 ^ 32) :
    send.remainLength = send.fullLength := Nat.mod_eq_of_lt hwrap

theorem headerSize_of_small (hsmall : send.remainLength < 128) :
    send.headerSize = send.prior + 2 := by
  have hbytes := length_remainLengthBytes 5 0 (n := send.remainLength) (by omega)
  have hpos := List.length_pos_of_ne_nil (remainLengthBytes_ne_nil send.remainLength)
  rw [headerSize]
  omega

theorem headerSize_le_firstCapacity (hheader : send.HeaderSucceeds) :
    send.headerSize ≤ send.firstCapacity := by
  have hprior := send.prior_le
  have hsize := headerSize_le hheader
  have hcap : 8 ≤ send.firstCapacity := by
    unfold firstCapacity
    split <;> omega
  omega

theorem sizedBy_start (hheader : send.HeaderSucceeds) :
    SizedBy send.firstCapacity ⟨send.headerSize, send.firstCapacity⟩ := by
  have hcap : 8 ≤ (⟨send.headerSize, send.firstCapacity⟩ : PacketBuf).cap := by
    dsimp only
    unfold firstCapacity
    split <;> omega
  exact SizedBy.of_cap hcap (headerSize_le_firstCapacity hheader)

/-- Reserving the bytes behind the header is enough, if no `strcpy` has to
find room in the 8 bytes of the fixed header. -/
theorem copiesFit_of_reserved (hheader : send.HeaderSucceeds)
    (hreserved : send.headerSize + send.fullLength < 2 * send.reservation send.headerSize)
    (hnul : 8 < send.reservation send.headerSize ∨
      (send.headerSize + send.fullLength ≤ 8 ∧ ∀ s, .strcpy s ∉ send.steps)) :
    CopiesFit send.start send.steps := by
  rw [start_eq hheader]
  have hcap : send.firstCapacity = 2 * send.reservation send.headerSize ∧
      8 < send.reservation send.headerSize ∨
      send.firstCapacity = 8 ∧ send.reservation send.headerSize ≤ 8 := by
    unfold firstCapacity
    split
    · exact Or.inl ⟨rfl, by omega⟩
    · exact Or.inr ⟨rfl, by omega⟩
  apply copiesFit_of_room
  · rw [stepsLength_steps]
    dsimp only
    omega
  · rw [stepsLength_steps]
    dsimp only
    rcases hnul with hlarge | ⟨-, hnone⟩
    · exact Or.inl (by omega)
    · exact Or.inr hnone

end CopyingSend

/-- A remaining length of `k` bytes is below `128 ^ k`. -/
theorem lt_of_length_remainLengthBytes {fuel k n : Nat} (hfuel : k < fuel)
    (hlen : (remainLengthBytes fuel n).length ≤ k) : n < 128 ^ k := by
  induction fuel generalizing k n with
  | zero => omega
  | succ fuel ih =>
      rw [remainLengthBytes] at hlen
      split at hlen
      · next hnext =>
        rw [List.length_cons] at hlen
        obtain ⟨k, rfl⟩ : ∃ m, k = m + 1 := ⟨k - 1, by omega⟩
        have hdiv := ih (by omega) (Nat.le_of_succ_le_succ hlen)
        rw [pow_succ]
        omega
      · next hlast =>
        rw [List.length_singleton] at hlen
        have hpow : 128 ^ 1 ≤ 128 ^ k := Nat.pow_le_pow_right (by decide) hlen
        omega

/-- Two bytes double the capacity once at most. -/
theorem copiesFit_uint16Steps {buf : PacketBuf} {value : UInt16} {rest : List PackStep}
    (hlarge : 8 ≤ buf.cap) (hfits : buf.size ≤ buf.cap)
    (h : CopiesFit buf (uint16Steps value ++ rest)) :
    ∃ cap, buf.cap ≤ cap ∧ cap ≤ 2 * buf.cap ∧ buf.size + 2 ≤ cap ∧
      CopiesFit ⟨buf.size + 2, cap⟩ rest := by
  change CopiesFit buf.pushBack.pushBack rest at h
  rcases Nat.lt_or_eq_of_le hfits with hlt | hfull
  · rw [PacketBuf.pushBack_of_lt hlt] at h
    rcases Nat.lt_or_eq_of_le (Nat.succ_le_of_lt hlt) with hlt' | hfull'
    · rw [PacketBuf.pushBack_of_lt hlt'] at h
      exact ⟨buf.cap, le_rfl, by omega, hlt', h⟩
    · rw [@PacketBuf.pushBack_of_ge ⟨buf.size + 1, buf.cap⟩ hlarge hfull'.ge] at h
      exact ⟨buf.cap * 2, by omega, by omega, by omega, h⟩
  · have hroom : buf.size + 1 < buf.cap * 2 := by omega
    rw [PacketBuf.pushBack_of_ge hlarge hfull.ge, PacketBuf.pushBack_of_lt hroom] at h
    exact ⟨buf.cap * 2, by omega, by omega, by omega, h⟩

/-- A PUBLISH is no longer than the capacity doubled. -/
theorem publishRemainLength_le_of_copiesFit {buf : PacketBuf} {pkt : PublishPkt Bytes}
    (hlarge : 8 ≤ buf.cap) (hfits : buf.size ≤ buf.cap) (h : CopiesFit buf (publishSteps pkt)) :
    buf.size + publishRemainLength pkt ≤ 4 * buf.cap := by
  rw [publishSteps, List.append_assoc, List.append_assoc, lengthSteps] at h
  obtain ⟨cap, hle, htwice, hsize, htopic, h⟩ := copiesFit_uint16Steps hlarge hfits h
  dsimp only at htopic h
  rw [PacketBuf.resize_of_le (by dsimp only; omega)] at h
  unfold publishRemainLength
  by_cases hqos : publishQos pkt.flags = 0
  · rw [if_neg (by omega)] at h
    obtain ⟨hpayload, -⟩ := h
    dsimp only at hpayload
    rw [if_pos hqos]
    omega
  · rw [if_pos (by omega)] at h
    obtain ⟨cap', hle', htwice', hsize', hpayload, -⟩ :=
      copiesFit_uint16Steps (by dsimp only; omega) (by dsimp only; omega) h
    dsimp only at hpayload htwice' hsize'
    rw [if_neg hqos]
    omega

/-- The first string of a short packet starts with two bytes left. -/
theorem copiesFit_first (packetId : UInt16) (s : Bytes) (rest : List PackStep) :
    CopiesFit ⟨2, 8⟩ (uint16Steps packetId ++ (stringSteps (some s) ++ rest)) ↔
      (cstr s).length + 1 ≤ 2 ∧ CopiesFit (PacketBuf.resize ⟨6, 8⟩ (6 + s.length)) rest :=
  Iff.rfl

/-- Only the first filter of a short SUBSCRIBE can be too long. -/
theorem copiesFit_subscribeSteps_iff {pkt : SubscribePkt} (hshort : subscribeRemainLength pkt ≤ 8) :
    CopiesFit ⟨2, 8⟩ (subscribeSteps pkt) ↔ ¬ pkt.Tight := by
  rw [SubscribePkt.Tight, and_iff_right hshort]
  obtain ⟨packetId, topics⟩ := pkt
  unfold subscribeSteps
  unfold subscribeRemainLength at hshort
  dsimp only at hshort ⊢
  match topics with
  | [] => exact iff_of_true trivial (by simp)
  | [t] =>
      rw [List.flatMap_cons, List.flatMap_nil, List.append_nil, copiesFit_first]
      have hqos : CopiesFit (PacketBuf.resize ⟨6, 8⟩ (6 + t.topicFilter.length))
          [.pushBack t.qos] := trivial
      simp [hqos]
  | t :: t' :: rest =>
      simp only [List.map_cons, List.sum_cons] at hshort
      have hfirst : t.topicFilter = [] := List.length_eq_zero_iff.mp (by omega)
      have hsecond : t'.topicFilter = [] := List.length_eq_zero_iff.mp (by omega)
      obtain rfl : rest = [] := by
        cases rest with
        | nil => rfl
        | cons t'' rest =>
            simp only [List.map_cons, List.sum_cons] at hshort
            omega
      rw [List.flatMap_cons, List.append_assoc, copiesFit_first, hfirst]
      refine iff_of_true ⟨by decide, ?_⟩ (by simp [hfirst, cstr])
      rw [List.flatMap_cons, hsecond]
      simp [stringSteps, lengthSteps, uint16Steps, packUint16, CopiesFit, PacketBuf.pushBack,
        PacketBuf.grow, PacketBuf.resize, PacketBuf.reserve, tmqStrLen, cstr]

/-- The second filter of a short UNSUBSCRIBE has no room when the first one is
empty; otherwise only the first one can be too long. -/
theorem copiesFit_unsubscribeSteps_iff {pkt : UnsubscribePkt}
    (hshort : unsubscribeRemainLength pkt ≤ 8) :
    CopiesFit ⟨2, 8⟩ (unsubscribeSteps pkt) ↔ ¬ pkt.Tight := by
  rw [UnsubscribePkt.Tight, and_iff_right hshort]
  obtain ⟨packetId, topics⟩ := pkt
  unfold unsubscribeSteps
  unfold unsubscribeRemainLength at hshort
  dsimp only at hshort ⊢
  match topics with
  | [] => exact iff_of_true trivial (by simp)
  | [t] =>
      rw [List.flatMap_cons, List.flatMap_nil, copiesFit_first]
      have hend : CopiesFit (PacketBuf.resize ⟨6, 8⟩ (6 + t.length)) [] := trivial
      simp [hend]
  | [] :: t' :: rest =>
      refine iff_of_false ?_ (by simp)
      rw [List.flatMap_cons, List.flatMap_cons, copiesFit_first]
      simp [stringSteps, lengthSteps, uint16Steps, packUint16, CopiesFit, PacketBuf.pushBack,
        PacketBuf.resize, PacketBuf.reserve, tmqStrLen, cstr]
  | (b :: t) :: t' :: rest =>
      simp only [List.map_cons, List.sum_cons, List.length_cons] at hshort
      obtain rfl : rest = [] := by
        cases rest with
        | nil => rfl
        | cons t'' rest =>
            simp only [List.map_cons, List.sum_cons] at hshort
            omega
      have hsecond : ∀ n, 1 ≤ n → n ≤ 2 →
          CopiesFit (PacketBuf.resize ⟨6, 8⟩ (6 + n)) (stringSteps (some t') ++ []) := by
        intro n hone htwo
        have hcopied := length_cstr_le t'
        have hgrown : (PacketBuf.resize ⟨6, 8⟩ (6 + n)).pushBack.pushBack = ⟨8 + n, 16⟩ := by
          interval_cases n <;> rfl
        change CopiesFit (PacketBuf.resize ⟨6, 8⟩ (6 + n)).pushBack.pushBack [.strcpy (some t')]
        rw [hgrown]
        refine ⟨?_, trivial⟩
        dsimp only
        omega
      rw [List.flatMap_cons, List.flatMap_cons, List.flatMap_nil, copiesFit_first,
        and_iff_left (hsecond (b :: t).length (by simp) (by rw [List.length_cons]; omega))]
      simp

namespace CopyingSend

variable {send : CopyingSend}

/-- A SUBSCRIBE and an UNSUBSCRIBE reserve too little, but twice too little is
enough from 9 bytes on. -/
theorem copiesFit_of_long (hheader : send.HeaderSucceeds) (hprior : send.prior = 0)
    (hreserved : send.reservation send.headerSize = send.remainLength)
    (hwrap : send.fullLength < 2 ^ 32) (hlong : 8 < send.fullLength) :
    CopiesFit send.start send.steps := by
  have hsize := headerSize_le hheader
  have hlen := remainLength_eq hwrap
  apply copiesFit_of_reserved hheader
  · omega
  · exact Or.inl (by omega)

/-- A packet that a function reserves all of. -/
theorem copiesFit_of_whole (hheader : send.HeaderSucceeds)
    (hreserved : send.reservation send.headerSize = send.headerSize + send.remainLength)
    (hwrap : send.fullLength < 2 ^ 32)
    (hnul : 8 < send.fullLength ∨ ∀ s, .strcpy s ∉ send.steps) :
    CopiesFit send.start send.steps := by
  have hlen := remainLength_eq hwrap
  have htwo := send.two_le_headerSize
  apply copiesFit_of_reserved hheader
  · omega
  · rcases hnul with hlong | hnone
    · exact Or.inl (by omega)
    · by_cases hlarge : 8 < send.reservation send.headerSize
      · exact Or.inl hlarge
      · exact Or.inr ⟨by omega, hnone⟩

theorem start_of_short (hprior : send.prior = 0)
    (hreserved : send.reservation send.headerSize = send.remainLength)
    (hwrap : send.fullLength < 2 ^ 32) (hshort : send.fullLength ≤ 8) : send.start = ⟨2, 8⟩ := by
  have hlen := remainLength_eq hwrap
  have hsize := @headerSize_of_small send (by omega)
  have hheader : send.HeaderSucceeds := by
    rw [headerSize] at hsize
    rw [HeaderSucceeds]
    omega
  rw [start_eq hheader, firstCapacity, if_neg (by omega), hsize, hprior]

theorem copiesFit_iff_clear (hheader : send.HeaderSucceeds) :
    CopiesFit send.start send.steps ↔
      ClearFrom send.firstCapacity send.headerSize send.steps := by
  rw [start_eq hheader]
  exact copiesFit_iff_clearFrom (sizedBy_start hheader)

theorem strcpy_not_mem_publishSteps (pkt : PublishPkt Bytes) (s : Option Bytes) :
    .strcpy s ∉ publishSteps pkt := by
  unfold publishSteps
  split <;> simp [lengthSteps, uint16Steps, packUint16]

/-- Beyond 2 ^ 32 bytes a PUBLISH cannot fit: the capacity stays below 2 ^ 31. -/
theorem not_copiesFit_of_wrapped (hheader : send.HeaderSucceeds) {pkt : PublishPkt Bytes}
    (hsteps : send.steps = publishSteps pkt) (hfull : send.fullLength = publishRemainLength pkt)
    (hreserved : send.reservation send.headerSize = send.headerSize + send.remainLength)
    (hwrap : ¬ send.fullLength < 2 ^ 32) : ¬ CopiesFit send.start send.steps := by
  intro hfit
  have hlt : send.remainLength < 128 ^ 4 := lt_of_length_remainLengthBytes (by decide) hheader
  have hsize := headerSize_le hheader
  have hprior := send.prior_le
  have hle := headerSize_le_firstCapacity hheader
  have hsized := sizedBy_start hheader
  rw [start_eq hheader, hsteps] at hfit
  have htotal := publishRemainLength_le_of_copiesFit hsized.large hle hfit
  dsimp only at htotal
  have hcap : send.firstCapacity ≤ 2 * (8 + send.remainLength) := by
    unfold firstCapacity
    split <;> omega
  omega

/-- Exactly when every raw copy has room. -/
theorem capacitySuffices_iff (send : CopyingSend) :
    send.CapacitySuffices ↔ (send.HeaderSucceeds → send.EnoughRoom) := by
  apply forall_congr'
  intro hheader
  by_cases hwrap : send.fullLength < 2 ^ 32
  · cases send with
    | sendConnectPacket pkt =>
        have hlong : 8 < connectRemainLength pkt := by
          unfold connectRemainLength
          omega
        exact iff_of_true (copiesFit_of_whole hheader rfl hwrap (Or.inl hlong)) (Or.inl hwrap)
    | sendPublishPacket pkt =>
        exact iff_of_true (copiesFit_of_whole hheader rfl hwrap
          (Or.inr (strcpy_not_mem_publishSteps pkt))) hwrap
    | sendPublishTunMessage pkt =>
        exact iff_of_true (copiesFit_of_whole hheader rfl hwrap
          (Or.inr (strcpy_not_mem_publishSteps pkt))) hwrap
    | sendSubscribePacket pkt =>
        have hroom : EnoughRoom (sendSubscribePacket pkt) ↔ ¬ pkt.Tight := by
          simp only [EnoughRoom, hwrap, Nat.not_le.mpr hwrap, true_and, false_and, or_false]
        rw [hroom]
        rcases Nat.lt_or_ge 8 (subscribeRemainLength pkt) with hlong | hshort
        · refine iff_of_true (copiesFit_of_long hheader rfl rfl hwrap hlong) ?_
          exact fun htight => Nat.not_le.mpr hlong htight.1
        · rw [start_of_short rfl rfl hwrap hshort]
          exact copiesFit_subscribeSteps_iff hshort
    | sendUnsubscribePacket pkt =>
        have hroom : EnoughRoom (sendUnsubscribePacket pkt) ↔ ¬ pkt.Tight := by
          simp only [EnoughRoom, hwrap, Nat.not_le.mpr hwrap, true_and, false_and, or_false]
        rw [hroom]
        rcases Nat.lt_or_ge 8 (unsubscribeRemainLength pkt) with hlong | hshort
        · refine iff_of_true (copiesFit_of_long hheader rfl rfl hwrap hlong) ?_
          exact fun htight => Nat.not_le.mpr hlong htight.1
        · rw [start_of_short rfl rfl hwrap hshort]
          exact copiesFit_unsubscribeSteps_iff hshort
  · have hge := Nat.not_lt.mp hwrap
    cases send with
    | sendConnectPacket pkt =>
        simp only [EnoughRoom, hwrap, false_or]
        exact copiesFit_iff_clear hheader
    | sendPublishPacket pkt =>
        exact iff_of_false (not_copiesFit_of_wrapped hheader rfl rfl rfl hwrap) hwrap
    | sendPublishTunMessage pkt =>
        exact iff_of_false (not_copiesFit_of_wrapped hheader rfl rfl rfl hwrap) hwrap
    | sendSubscribePacket pkt =>
        simp only [EnoughRoom, hwrap, hge, false_and, true_and, false_or]
        exact copiesFit_iff_clear hheader
    | sendUnsubscribePacket pkt =>
        simp only [EnoughRoom, hwrap, hge, false_and, true_and, false_or]
        exact copiesFit_iff_clear hheader

/-- `send_subscribe_packet` makes its copies from the vector at which they
start. -/
theorem sendSubscribePacket_steps (pkt : SubscribePkt) :
    TinyMqtt.sendSubscribePacket pkt = do
      let header ← makeFixedHeader .subscribe 2 (sendSubscribePacket pkt).remainLength
      let bytes ← packSteps (sendSubscribePacket pkt).start (subscribeSteps pkt)
      return header ++ bytes := by
  rw [TinyMqtt.sendSubscribePacket]
  change (makeFixedHeader .subscribe 2 (sendSubscribePacket pkt).remainLength >>= _) = _
  cases hheader : makeFixedHeader .subscribe 2 (sendSubscribePacket pkt).remainLength with
  | error e => rfl
  | ok header =>
      have hsize : header.length = (sendSubscribePacket pkt).headerSize := by
        rw [makeFixedHeader_length hheader, headerSize]
        exact congrArg (· + _) (Nat.zero_add 1).symm
      dsimp only [bind, Except.bind]
      rw [hsize]
      rfl

theorem sendUnsubscribePacket_steps (pkt : UnsubscribePkt) :
    TinyMqtt.sendUnsubscribePacket pkt = do
      let header ← makeFixedHeader .unsubscribe 2 (sendUnsubscribePacket pkt).remainLength
      let bytes ← packSteps (sendUnsubscribePacket pkt).start (unsubscribeSteps pkt)
      return header ++ bytes := by
  rw [TinyMqtt.sendUnsubscribePacket]
  change (makeFixedHeader .unsubscribe 2 (sendUnsubscribePacket pkt).remainLength >>= _) = _
  cases hheader : makeFixedHeader .unsubscribe 2 (sendUnsubscribePacket pkt).remainLength with
  | error e => rfl
  | ok header =>
      have hsize : header.length = (sendUnsubscribePacket pkt).headerSize := by
        rw [makeFixedHeader_length hheader, headerSize]
        exact congrArg (· + _) (Nat.zero_add 1).symm
      dsimp only [bind, Except.bind]
      rw [hsize]
      rfl

theorem headerSucceeds_of_le (hremain : send.fullLength ≤ 268435455) : send.HeaderSucceeds := by
  have hlen := length_remainLengthBytes 5 3 (show send.remainLength < 128 ^ 4 by
    rw [remainLength_eq (by omega)]
    omega)
  rw [HeaderSucceeds]
  omega

/-- Where a SUBSCRIBE or an UNSUBSCRIBE makes its copies. -/
theorem start_eq_filled (hprior : send.prior = 0)
    (hreserved : ∀ size, send.reservation size = send.remainLength)
    (hsmall : send.fullLength < 2 ^ 32) :
    send.start = (PacketBuf.filled (1 + (remainLengthBytes 5 send.fullLength).length)).reserve
      send.fullLength := by
  rw [start, headerSize, hprior, Nat.zero_add, remainLength_eq hsmall]
  exact congrArg _ ((hreserved _).trans (remainLength_eq hsmall))

theorem copiesFit_filled_iff (hprior : send.prior = 0)
    (hreserved : ∀ size, send.reservation size = send.remainLength)
    (hremain : send.fullLength ≤ 268435455) :
    CopiesFit ((PacketBuf.filled (1 + (remainLengthBytes 5 send.fullLength).length)).reserve
      send.fullLength) send.steps ↔ send.EnoughRoom := by
  have hheader := headerSucceeds_of_le hremain
  have hroom := capacitySuffices_iff send
  rw [CapacitySuffices, forall_prop_of_true hheader, forall_prop_of_true hheader,
    start_eq_filled hprior hreserved (by omega)] at hroom
  exact hroom

theorem subscribe_hasRoom_iff {pkt : SubscribePkt}
    (hremain : subscribeRemainLength pkt ≤ 268435455) : pkt.HasRoom ↔ ¬ pkt.Tight := by
  have hsmall : (sendSubscribePacket pkt).fullLength < 2 ^ 32 :=
    Nat.lt_of_le_of_lt hremain (by decide)
  refine (@copiesFit_filled_iff (sendSubscribePacket pkt) rfl (fun _ => rfl) hremain).trans ?_
  simp only [EnoughRoom, hsmall, Nat.not_le.mpr hsmall, true_and, false_and, or_false]

theorem unsubscribe_hasRoom_iff {pkt : UnsubscribePkt}
    (hremain : unsubscribeRemainLength pkt ≤ 268435455) : pkt.HasRoom ↔ ¬ pkt.Tight := by
  have hsmall : (sendUnsubscribePacket pkt).fullLength < 2 ^ 32 :=
    Nat.lt_of_le_of_lt hremain (by decide)
  refine (@copiesFit_filled_iff (sendUnsubscribePacket pkt) rfl (fun _ => rfl) hremain).trans ?_
  simp only [EnoughRoom, hsmall, Nat.not_le.mpr hsmall, true_and, false_and, or_false]

/-- A SUBSCRIBE of the one filter `a/b`: three bytes and a terminator are
copied where two are left. -/
theorem not_capacitySuffices_short :
    ¬ ∀ send : CopyingSend, send.CapacitySuffices := by
  intro hall
  have hfit := hall (sendSubscribePacket ⟨1, [⟨[97, 47, 98], 0⟩]⟩) (by decide)
  have hroom : [97, 47, 98].length + 1 ≤ 8 - 6 := hfit.1
  exact absurd hroom (by decide)

end CopyingSend

end TinyMqtt
