import TinyMqtt.Codec.Dispatch
import TinyMqtt.Codec.Framing

/-!
Decoding and TCP segmentation. The decoder keeps its place in the parsing
context between two reads, so the way a byte string is cut into chunks should
not matter. Two things make it matter: the status of `validate_flags` survives
only when the header byte is the last one in the buffer, and a parser may read
past the body. Where neither happens, every segmentation has one outcome.
-/

namespace TinyMqtt

/-! ### Bodies that are not read past their end -/

def PacketType.ignoresLength : PacketType → Bool
  | .publish | .subscribe | .suback | .unsubscribe => false
  | _ => true

/-- The parser stays inside the body: the body fits, or the parser does not
look at the declared length and a front part of the body fits. -/
def BodyWithin (codecType : CodecType) (type : PacketType) (body : Bytes) : Prop :=
  BodyFits codecType type body ∨
    type.ignoresLength ∧ ∃ n, BodyFits codecType type (body.take n)

theorem packetParsers_ignoresLength {type : PacketType} (htype : type.ignoresLength)
    (auth : BrokerAuth) (conn : TcpConn) (len len' : Nat) :
    packetParsers type auth conn len = packetParsers type auth conn len' := by
  cases type <;> first | exact absurd htype (by decide) | rfl

/-- Such a body determines status and connection, and of an accepted packet a
part of the body may be left. -/
theorem packetParsers_within (auth : BrokerAuth) (conn : TcpConn) {type : PacketType}
    {body : Bytes} (hlen : body.length < 2 ^ 32) (hwithin : BodyWithin conn.codecType type body) :
    ∃ (status : DecodeStatus) (next : TcpConn) (extra : Bytes), extra.length ≤ body.length ∧
      ∀ rest, ∃ left,
      packetParsers type auth (conn.withInput (body ++ rest)) body.length =
        some (status, next.withInput left) ∧ (status = .decodeOk → left = extra ++ rest) := by
  rcases hwithin with hfits | ⟨htype, n, hfits⟩
  · obtain ⟨status, next, hframed⟩ := packetParsers_framedAs auth conn type hlen hfits
    exact ⟨status, next, [], Nat.zero_le _, hframed⟩
  · have hshort : (body.take n).length < 2 ^ 32 :=
      lt_of_le_of_lt (List.length_take_le' n body) hlen
    obtain ⟨status, next, hframed⟩ := packetParsers_framedAs auth conn type hshort hfits
    refine ⟨status, next, body.drop n, by simp, fun rest => ?_⟩
    obtain ⟨left, hparse, hleft⟩ := hframed (body.drop n ++ rest)
    refine ⟨left, ?_, hleft⟩
    rw [packetParsers_ignoresLength htype auth _ _ (body.take n).length]
    simpa only [← List.append_assoc, List.take_append_drop] using hparse

/-! ### Connections nothing else happens to -/

/-- Inside a packet the header has a packet type, and the remaining length is
an unsigned 32-bit value. -/
structure ParsingCtx.Valid (parsing : ParsingCtx) : Prop where
  typed : parsing.state ≠ .parsingFixedHeader → ∃ type, packetTypeOf parsing.typeFlags = some type
  bounded : parsing.remainLength < 2 ^ 32

/-- An open connection that is no tunnel and whose socket stays healthy. -/
structure TcpConn.Steady (conn : TcpConn) : Prop where
  connected : conn.state = .connected
  notTunneled : conn.connState ≠ .tunneled
  healthy : conn.writeErrorIn = none
  valid : conn.parsing.Valid

theorem TcpConn.Steady.withInput {conn : TcpConn} (hsteady : conn.Steady) (buffer : Bytes) :
    (conn.withInput buffer).Steady :=
  ⟨hsteady.connected, hsteady.notTunneled, hsteady.healthy, hsteady.valid⟩

theorem TcpConn.Steady.of_withInput {conn : TcpConn} {buffer : Bytes}
    (hsteady : (conn.withInput buffer).Steady) : conn.Steady :=
  ⟨hsteady.connected, hsteady.notTunneled, hsteady.healthy, hsteady.valid⟩

theorem TcpConn.Steady.call_eq {conn : TcpConn} (hsteady : conn.Steady) (e : Event Bytes) :
    conn.call e = conn.record e := by
  have hhealthy : (conn.record e).writeErrorIn = none := hsteady.healthy
  simp [call, tick, hhealthy]

theorem TcpConn.Steady.send_eq {conn : TcpConn} (hsteady : conn.Steady) (pkt : Packet Bytes) :
    conn.send pkt = conn.record (.send pkt) := by
  have hhealthy : (conn.record (.send pkt)).writeErrorIn = none := hsteady.healthy
  simp [send, tick, hhealthy, hsteady.connected]

theorem TcpConn.Steady.record {conn : TcpConn} (hsteady : conn.Steady) (e : Event Bytes) :
    (conn.record e).Steady :=
  ⟨hsteady.connected, hsteady.notTunneled, hsteady.healthy, hsteady.valid⟩

theorem TcpConn.Steady.parse {conn : TcpConn} (hsteady : conn.Steady) {parsing : ParsingCtx}
    (hvalid : parsing.Valid) : { conn with parsing := parsing }.Steady :=
  ⟨hsteady.connected, hsteady.notTunneled, hsteady.healthy, hvalid⟩

theorem TcpConn.Steady.enter {conn : TcpConn} (hsteady : conn.Steady) (connState : ConnState)
    (upstream : Upstream) (hstate : connState ≠ .tunneled) :
    { conn with connState := connState, upstream := upstream }.Steady :=
  ⟨hsteady.connected, hstate, hsteady.healthy, hsteady.valid⟩

/-- The parts of a connection that handling a packet leaves alone. -/
structure TcpConn.Follows (next conn : TcpConn) : Prop where
  steady : next.Steady
  codecType : next.codecType = conn.codecType
  parsing : next.parsing = conn.parsing

theorem mqttConnect_follows (auth : BrokerAuth) {conn : TcpConn} (hsteady : conn.Steady)
    (pkt : ConnectPkt) : (mqttConnect auth conn pkt).Follows conn := by
  unfold mqttConnect
  cases auth.validate pkt with
  | inProgress => exact ⟨hsteady.record _, rfl, rfl⟩
  | failure =>
      simp only [hsteady.send_eq]
      exact ⟨hsteady.record _, rfl, rfl⟩
  | success => exact ⟨hsteady.record _, rfl, rfl⟩

theorem deliverPublish_follows {conn : TcpConn} (hsteady : conn.Steady) (pkt : PublishPkt Bytes) :
    (deliverPublish conn pkt).Follows conn := by
  unfold deliverPublish
  simp only [hsteady.notTunneled, ↓reduceIte]
  cases publishAck pkt with
  | none =>
      simp only [hsteady.call_eq]
      exact ⟨hsteady.record _, rfl, rfl⟩
  | some ack =>
      simp only [hsteady.send_eq, (hsteady.record _).call_eq]
      exact ⟨(hsteady.record _).record _, rfl, rfl⟩

/-- Handling a packet keeps a steady connection steady, with its side and its
place in the stream. -/
theorem Handles.follows {auth : BrokerAuth} {conn next : TcpConn} {type : PacketType}
    (hhandles : Handles auth conn type next) (hsteady : conn.Steady) : next.Follows conn := by
  have hcall : ∀ e, (conn.call e).Follows conn := fun e => by
    rw [hsteady.call_eq]
    exact ⟨hsteady.record e, rfl, rfl⟩
  cases hhandles with
  | connect pkt hserver =>
      have hstarting := hsteady.enter .startingSession conn.upstream (by decide)
      rw [hstarting.call_eq]
      have hnext := mqttConnect_follows auth (hstarting.record (.onConnect conn.upstream pkt)) pkt
      exact ⟨hnext.steady, hnext.codecType, hnext.parsing⟩
  | connack pkt hclient =>
      rw [hsteady.call_eq]
      exact ⟨(hsteady.record _).enter .inSession (.session 0) (by decide), rfl, rfl⟩
  | publish pkt => exact deliverPublish_follows hsteady pkt
  | puback packetId => exact hcall _
  | pubrec packetId => exact hcall _
  | pubrel packetId =>
      simp only [handlePubRel, handlePacketId, hsteady.send_eq, (hsteady.record _).call_eq]
      exact ⟨(hsteady.record _).record _, rfl, rfl⟩
  | pubcomp packetId => exact hcall _
  | subscribe pkt hserver => exact hcall _
  | suback pkt hclient => exact hcall _
  | unsubscribe pkt hserver => exact hcall _
  | unsuback packetId hclient => exact hcall _
  | pingreq hserver =>
      simp only [handlePingReq, hsteady.send_eq, (hsteady.record _).call_eq]
      exact ⟨(hsteady.record _).record _, rfl, rfl⟩
  | pingresp hclient => exact hcall _
  | disconnect hserver =>
      have hleft := hsteady.enter .noSession .broker (by decide)
      simp only [handleDisconnect]
      split
      · rw [hleft.call_eq]
        exact ⟨(hleft.record _).record _, rfl, rfl⟩
      · exact ⟨hleft, rfl, rfl⟩

/-- Whatever a parser makes of a packet. -/
theorem Outcome.follows {auth : BrokerAuth} {conn next : TcpConn} {type : PacketType}
    {status : DecodeStatus} (houtcome : Outcome auth conn type status next)
    (hsteady : conn.Steady) : next.Follows conn := by
  cases houtcome with
  | handled buffer next hhandles =>
      have hnext := hhandles.follows (hsteady.withInput buffer)
      exact ⟨hnext.steady, hnext.codecType, hnext.parsing⟩
  | refused buffer status hrefuses => exact ⟨hsteady.withInput buffer, rfl, rfl⟩
  | answered buffer code htype hserver =>
      rw [(hsteady.withInput buffer).send_eq]
      exact ⟨(hsteady.withInput buffer).record _, rfl, rfl⟩

/-- A refusing parser does not ask for more data. -/
theorem Outcome.refuses {auth : BrokerAuth} {conn next : TcpConn} {type : PacketType}
    {status : DecodeStatus} (houtcome : Outcome auth conn type status next)
    (hstatus : status ≠ .decodeOk) : status.refuses := by
  cases houtcome with
  | handled buffer next hhandles => exact (hstatus rfl).elim
  | refused buffer status hrefuses => exact hrefuses
  | answered buffer code htype hserver => decide

/-! ### What a round must meet -/

/-- A complete body at the front of the buffer is not read past its end. -/
def BodySafe (conn : TcpConn) : Prop :=
  ∀ type, packetTypeOf conn.parsing.typeFlags = some type →
    conn.parsing.remainLength ≤ conn.inBuffer.length →
      BodyWithin conn.codecType type (conn.inBuffer.take conn.parsing.remainLength)

/-- The same for a packet whose remaining length is still to be read. -/
def LengthSafe (conn : TcpConn) : Prop :=
  ∀ parsing buffer, parseRemainLength conn.parsing conn.inBuffer = (.decodeOk, parsing, buffer) →
    BodySafe ({ conn with parsing := parsing }.withInput buffer)

/-- The header byte is refused whatever follows it: its flags are malformed,
or it comes before the connection has a session. -/
def HeaderRefused (connState : ConnState) (type : PacketType) (byte : UInt8) : Prop :=
  validateFlags type (flagsOf byte) = .badPacketFormat ∨
    connState = .noSession ∧ type ≠ .connect ∧ type ≠ .connack

/-- The same for a packet whose header byte is still to be read. A byte whose
flags are a protocol error is the last one of the input. -/
def HeaderSafe (conn : TcpConn) : Prop :=
  ∀ byte rest type, conn.inBuffer = byte :: rest → packetTypeOf byte = some type →
    ¬ HeaderRefused conn.connState type byte →
      (validateFlags type (flagsOf byte) = .protocolError → rest = []) ∧
        LengthSafe ({ conn with parsing := ⟨.parsingRemainLength, byte, 0, 1⟩ }.withInput rest)

/-- What the round that starts on `conn` must meet, where the buffer of `conn`
holds all the bytes still to come. -/
def RoundSafe (conn : TcpConn) : Prop :=
  match conn.parsing.state with
  | .parsingFixedHeader => HeaderSafe conn
  | .parsingRemainLength => LengthSafe conn
  | .parsingBody => BodySafe conn

/-- The rounds of one decoder call, each of which accepted a packet. -/
inductive Rounds (auth : BrokerAuth) : TcpConn → TcpConn → Prop where
  | refl (conn : TcpConn) : Rounds auth conn conn
  | step {conn next final : TcpConn} (hround : decodeRound auth conn = some (.decodeOk, next))
      (hagain : next.decodeAgain) (hrest : Rounds auth next final) : Rounds auth conn final

/-- Every round of decoding the whole buffer meets the condition. -/
def RunSafe (auth : BrokerAuth) (conn : TcpConn) : Prop :=
  ∀ reached, Rounds auth conn reached → RoundSafe reached

theorem RunSafe.round {auth : BrokerAuth} {conn : TcpConn} (hsafe : RunSafe auth conn) :
    RoundSafe conn :=
  hsafe conn (.refl conn)

theorem RunSafe.step {auth : BrokerAuth} {conn next : TcpConn} (hsafe : RunSafe auth conn)
    (hround : decodeRound auth conn = some (.decodeOk, next)) (hagain : next.decodeAgain) :
    RunSafe auth next :=
  fun reached hrounds => hsafe reached (.step hround hagain hrounds)

/-- Two states whose first rounds agree have the same later rounds. -/
theorem RunSafe.congr {auth : BrokerAuth} {conn conn' : TcpConn} (hsafe : RunSafe auth conn)
    (hround : decodeRound auth conn' = decodeRound auth conn) (hfirst : RoundSafe conn') :
    RunSafe auth conn' := by
  intro reached hrounds
  cases hrounds with
  | refl => exact hfirst
  | step hstep hagain hrest =>
      rw [hround] at hstep
      exact hsafe reached (.step hstep hagain hrest)

/-! ### The loop without its fuel -/

/-- The decoder's loop, started on `conn`, ends in `final`. -/
def Decodes (auth : BrokerAuth) (conn final : TcpConn) : Prop :=
  ∃ fuel, decodeLoop auth fuel conn = some final

theorem decodeLoop_mono {auth : BrokerAuth} {fuel more : Nat} {conn final : TcpConn}
    (hloop : decodeLoop auth fuel conn = some final) (hle : fuel ≤ more) :
    decodeLoop auth more conn = some final := by
  induction fuel generalizing more conn with
  | zero => simp [decodeLoop] at hloop
  | succ fuel ih =>
      obtain ⟨more, rfl⟩ := Nat.exists_eq_add_one_of_ne_zero (Nat.ne_zero_of_lt hle)
      simp only [decodeLoop, Option.bind_eq_bind, Option.bind_eq_some_iff] at hloop ⊢
      obtain ⟨⟨status, next⟩, hround, hrest⟩ := hloop
      refine ⟨(status, next), hround, ?_⟩
      dsimp only at hrest ⊢
      split at hrest
      · next hrefused => rw [if_pos hrefused]; exact hrest
      · next hrefused =>
        rw [if_neg hrefused]
        split at hrest
        · next hagain => rw [if_pos hagain]; exact ih hrest (by omega)
        · next hagain => rw [if_neg hagain]; exact hrest

theorem Decodes.unique {auth : BrokerAuth} {conn final final' : TcpConn}
    (hfirst : Decodes auth conn final) (hsecond : Decodes auth conn final') : final = final' := by
  obtain ⟨fuel, hfirst⟩ := hfirst
  obtain ⟨fuel', hsecond⟩ := hsecond
  have hleft := decodeLoop_mono hfirst (Nat.le_max_left fuel fuel')
  have hright := decodeLoop_mono hsecond (Nat.le_max_right fuel fuel')
  rw [hleft] at hright
  exact Option.some.inj hright

theorem Decodes.congr {auth : BrokerAuth} {conn conn' final : TcpConn}
    (hround : decodeRound auth conn' = decodeRound auth conn) (hdecodes : Decodes auth conn final) :
    Decodes auth conn' final := by
  obtain ⟨fuel, hloop⟩ := hdecodes
  refine ⟨fuel, ?_⟩
  cases fuel with
  | zero => exact hloop
  | succ fuel =>
      simp only [decodeLoop] at hloop ⊢
      rw [hround]
      exact hloop

theorem decodeLoop_refused {auth : BrokerAuth} {conn next : TcpConn} {status : DecodeStatus}
    (hround : decodeRound auth conn = some (status, next)) (hrefuses : status.refuses)
    (fuel : Nat) : decodeLoop auth (fuel + 1) conn = some next.close := by
  have hif : status ≠ .decodeOk ∧ status ≠ .needMoreData := hrefuses
  simp [decodeLoop, hround, hif]

theorem decodeLoop_waits {auth : BrokerAuth} {conn next : TcpConn} {status : DecodeStatus}
    (hround : decodeRound auth conn = some (status, next)) (haccepts : ¬ status.refuses)
    (hagain : ¬ next.decodeAgain) (fuel : Nat) :
    decodeLoop auth (fuel + 1) conn = some next := by
  have hif : ¬ (status ≠ .decodeOk ∧ status ≠ .needMoreData) := haccepts
  simp only [decodeLoop, hround, Option.bind_eq_bind, Option.bind_some, if_neg hif, if_neg hagain]
  rfl

theorem decodeLoop_again {auth : BrokerAuth} {conn next : TcpConn}
    (hround : decodeRound auth conn = some (.decodeOk, next)) (hagain : next.decodeAgain)
    (fuel : Nat) : decodeLoop auth (fuel + 1) conn = decodeLoop auth fuel next := by
  simp [decodeLoop, hround, hagain]

/-! ### One round on a part of the input -/

/-- How a round on the front of the input relates to the round on all of it,
where `round` is the round as a function of the buffer. The front is refused
with the whole, or it ends inside the packet and the round can be taken up
with the rest, or both take the same packet. -/
inductive Split (auth : BrokerAuth) (round : Bytes → Option (DecodeStatus × TcpConn))
    (front more : Bytes) (taken : Nat) : Prop where
  | refused (status : DecodeStatus) (next : TcpConn) (left left' : Bytes)
      (hrefuses : status.refuses) (hsteady : next.Steady)
      (hfront : round front = some (status, next.withInput left))
      (hwhole : round (front ++ more) = some (status, next.withInput left'))
  | waits (status : DecodeStatus) (next : TcpConn)
      (haccepts : ¬ status.refuses) (hsteady : next.Steady) (hagain : ¬ next.decodeAgain)
      (hfront : round front = some (status, next))
      (hresume : more ≠ [] →
        decodeRound auth (next.withInput (next.inBuffer ++ more)) = round (front ++ more) ∧
          RoundSafe (next.withInput (next.inBuffer ++ more)))
  | accepted (next : TcpConn) (left : Bytes)
      (hsteady : next.Steady) (hstate : next.parsing.state = .parsingFixedHeader)
      (hleft : left.length + taken ≤ front.length)
      (hfront : round front = some (.decodeOk, next.withInput left))
      (hwhole : round (front ++ more) = some (.decodeOk, next.withInput (left ++ more)))

/-- A round that goes on as another one after it has taken some bytes. -/
theorem Split.transfer {auth : BrokerAuth} {round round' : Bytes → Option (DecodeStatus × TcpConn)}
    {front left more : Bytes} {taken taken' : Nat} (hsplit : Split auth round' left more taken')
    (hfront : round front = round' left) (hwhole : round (front ++ more) = round' (left ++ more))
    (htaken : left.length + taken ≤ front.length + taken') :
    Split auth round front more taken := by
  cases hsplit with
  | refused status next rest rest' hrefuses hsteady hround hround' =>
      exact .refused status next rest rest' hrefuses hsteady (hfront.trans hround)
        (hwhole.trans hround')
  | waits status next haccepts hsteady hagain hround hresume =>
      refine .waits status next haccepts hsteady hagain (hfront.trans hround) fun hmore => ?_
      exact ⟨(hresume hmore).1.trans hwhole.symm, (hresume hmore).2⟩
  | accepted next rest hsteady hstate hrest hround hround' =>
      exact .accepted next rest hsteady hstate (by omega) (hfront.trans hround)
        (hwhole.trans hround')

theorem onParsingBody_split (auth : BrokerAuth) {conn : TcpConn} {front more : Bytes}
    (hsteady : conn.Steady) (hstate : conn.parsing.state = .parsingBody)
    (hsafe : BodySafe (conn.withInput (front ++ more))) :
    Split auth (fun buffer => onParsingBody auth (conn.withInput buffer)) front more 0 := by
  obtain ⟨type, htype⟩ := hsteady.valid.typed (by simp [hstate])
  by_cases hlen : front.length < conn.parsing.remainLength
  · refine .waits .needMoreData (conn.withInput front) (by simp [DecodeStatus.refuses])
      (hsteady.withInput front) (by simp [TcpConn.decodeAgain, hstate]) ?_ ?_
    · simp [onParsingBody, hlen]
    · intro hmore
      constructor
      · simp [decodeRound, hstate]
      · simpa [RoundSafe, hstate] using hsafe
  · have hcomplete : conn.parsing.remainLength ≤ front.length := by omega
    set len := conn.parsing.remainLength with hlenDef
    set entered := conn.record (.parse type conn.state conn.connState)
    have hentered : entered.Steady := hsteady.record _
    have hbodyLen : (front.take len).length = len := by simp [hcomplete]
    have hwithin : BodyWithin entered.codecType type (front.take len) := by
      have htake : (front ++ more).take len = front.take len :=
        List.take_append_of_le_length hcomplete
      rw [← htake]
      exact hsafe type htype (by simp; omega)
    obtain ⟨status, next, extra, hextra, hparse⟩ := packetParsers_within auth entered
      (by rw [hbodyLen]; exact hsteady.valid.bounded) hwithin
    rw [hbodyLen] at hextra hparse
    have hround : ∀ rest, ∃ left, (status = .decodeOk → left = extra ++ (front.drop len ++ rest)) ∧
        onParsingBody auth (conn.withInput (front ++ rest)) =
          some (if status = .decodeOk then (status, next.finishBody.withInput left)
            else (status, next.withInput left)) ∧
        Outcome auth (entered.withInput (front ++ rest)) type status (next.withInput left) := by
      intro rest
      obtain ⟨left, hparse, hleft⟩ := hparse (front.drop len ++ rest)
      rw [← List.append_assoc, List.take_append_drop] at hparse
      refine ⟨left, hleft, ?_, packetParsers_outcome hparse⟩
      rw [onParsingBody_complete auth htype (by simp; omega), ← hlenDef, hparse]
      by_cases hok : status = .decodeOk <;> simp [hok, finishBody_withInput]
    obtain ⟨left, hleft, hfront, houtcome⟩ := hround []
    obtain ⟨left', hleft', hwhole, -⟩ := hround more
    rw [List.append_nil] at hfront
    have hnext := (houtcome.follows (hentered.withInput _)).steady.of_withInput
    by_cases hok : status = .decodeOk
    · subst hok
      obtain rfl := hleft rfl
      obtain rfl := hleft' rfl
      refine .accepted next.finishBody (extra ++ front.drop len) ?_ rfl ?_ ?_ ?_
      · exact hnext.parse ⟨fun h => (h rfl).elim, hnext.valid.bounded⟩
      · simp only [List.length_append, List.length_drop]
        omega
      · simpa using hfront
      · simpa using hwhole
    · refine .refused status next left left' (houtcome.refuses hok) hnext ?_ ?_
      · simpa [hok] using hfront
      · simpa [hok] using hwhole

/-- Reading the remaining length in two parts. -/
theorem parseRemainLength_append (parsing : ParsingCtx) (front more : Bytes) :
    parseRemainLength parsing (front ++ more) =
      match parseRemainLength parsing front with
      | (.needMoreData, parsing', _) => parseRemainLength parsing' more
      | (status, parsing', left) => (status, parsing', left ++ more) := by
  induction front generalizing parsing with
  | nil => rfl
  | cons byte front ih =>
      simp only [List.cons_append, parseRemainLength]
      split
      · rfl
      · split
        · exact ih _
        · rfl

/-- What the loop over the remaining length gives: it may be malformed, or
end with the bytes, or be complete. -/
structure LengthRead (parsing : ParsingCtx) (buffer : Bytes) (status : DecodeStatus)
    (parsing' : ParsingCtx) (left : Bytes) : Prop where
  status : status = .decodeOk ∨ status = .badPacketFormat ∨ status = .needMoreData ∧ left = []
  typeFlags : parsing'.typeFlags = parsing.typeFlags
  state : parsing'.state = parsing.state
  bounded : parsing.remainLength < 2 ^ 32 → parsing'.remainLength < 2 ^ 32
  taken : buffer ≠ [] → left.length < buffer.length

theorem parseRemainLength_read (parsing : ParsingCtx) (buffer : Bytes) :
    LengthRead parsing buffer (parseRemainLength parsing buffer).1
      (parseRemainLength parsing buffer).2.1 (parseRemainLength parsing buffer).2.2 := by
  induction buffer generalizing parsing with
  | nil => exact ⟨Or.inr (Or.inr ⟨rfl, rfl⟩), rfl, rfl, id, fun h => (h rfl).elim⟩
  | cons byte buffer ih =>
      have hmod : ∀ n : Nat, n % 2 ^ 32 < 2 ^ 32 := fun n => Nat.mod_lt n (by decide)
      simp only [parseRemainLength]
      split
      · exact ⟨Or.inr (Or.inl rfl), rfl, rfl, fun _ => hmod _, fun _ => Nat.lt_succ_self _⟩
      · split
        · next hmore =>
          have hrest := ih { parsing with
            remainLength := (parsing.remainLength + byte.toNat % 128 * parsing.multiplier) % 2 ^ 32
            multiplier := parsing.multiplier * 128 % 2 ^ 32 }
          refine ⟨hrest.status, hrest.typeFlags, hrest.state, fun _ => hrest.bounded (hmod _), ?_⟩
          intro _
          by_cases hbuffer : buffer = []
          · subst hbuffer
            simp [parseRemainLength]
          · have htaken := hrest.taken hbuffer
            simp only [List.length_cons]
            omega
        · exact ⟨Or.inl rfl, rfl, rfl, fun _ => hmod _, fun _ => Nat.lt_succ_self _⟩

theorem onParsingRemainLength_ok (auth : BrokerAuth) (status : Option DecodeStatus)
    {conn : TcpConn} {buffer left : Bytes} {parsing : ParsingCtx} (hbuffer : buffer ≠ [])
    (hparse : parseRemainLength conn.parsing buffer = (.decodeOk, parsing, left)) :
    onParsingRemainLength auth status (conn.withInput buffer) =
      onParsingBody auth
        ({ conn with parsing := { parsing with state := .parsingBody } }.withInput left) := by
  simp only [onParsingRemainLength, TcpConn.withInput_inBuffer, TcpConn.withInput_parsing,
    hbuffer, ↓reduceIte, hparse]
  rfl

theorem onParsingRemainLength_stop (auth : BrokerAuth) (status : Option DecodeStatus)
    {conn : TcpConn} {buffer left : Bytes} {parsing : ParsingCtx} {status' : DecodeStatus}
    (hbuffer : buffer ≠ []) (hstatus : status' ≠ .decodeOk)
    (hparse : parseRemainLength conn.parsing buffer = (status', parsing, left)) :
    onParsingRemainLength auth status (conn.withInput buffer) =
      some (status', { conn with parsing := parsing }.withInput left) := by
  simp only [onParsingRemainLength, TcpConn.withInput_inBuffer, TcpConn.withInput_parsing,
    hbuffer, ↓reduceIte, hparse, hstatus]
  rfl

/-- The status a round is entered with counts only when nothing is buffered. -/
theorem onParsingRemainLength_status (auth : BrokerAuth) (status status' : Option DecodeStatus)
    (conn : TcpConn) {buffer : Bytes} (hbuffer : buffer ≠ []) :
    onParsingRemainLength auth status (conn.withInput buffer) =
      onParsingRemainLength auth status' (conn.withInput buffer) := by
  simp only [onParsingRemainLength, TcpConn.withInput_inBuffer, hbuffer, ↓reduceIte]

theorem onParsingRemainLength_split (auth : BrokerAuth) (status : Option DecodeStatus)
    {conn : TcpConn} {front more : Bytes} (hsteady : conn.Steady)
    (hstate : conn.parsing.state = .parsingRemainLength) (hfront : front ≠ [])
    (hsafe : LengthSafe (conn.withInput (front ++ more))) :
    Split auth (fun buffer => onParsingRemainLength auth status (conn.withInput buffer))
      front more 0 := by
  have hread := parseRemainLength_read conn.parsing front
  have hwhole := parseRemainLength_append conn.parsing front more
  have hwholeNe : front ++ more ≠ [] := by simp [hfront]
  obtain ⟨type, htype⟩ := hsteady.valid.typed (by simp [hstate])
  rcases hparse : parseRemainLength conn.parsing front with ⟨status', parsing, left⟩
  rw [hparse] at hread hwhole
  have htyped : packetTypeOf parsing.typeFlags = some type := by rw [hread.typeFlags, htype]
  have hbounded := hread.bounded hsteady.valid.bounded
  rcases hread.status with hok | hbad | ⟨hneed, hleft⟩
  · dsimp only at hok
    subst hok
    have hnext : { conn with parsing := { parsing with state := .parsingBody } }.Steady :=
      hsteady.parse ⟨fun _ => ⟨type, htyped⟩, hbounded⟩
    have hbody := onParsingBody_split auth hnext rfl (hsafe parsing (left ++ more) hwhole)
    exact hbody.transfer (onParsingRemainLength_ok auth status hfront hparse)
      (onParsingRemainLength_ok auth status hwholeNe hwhole) (hread.taken hfront).le
  · dsimp only at hbad
    subst hbad
    exact .refused .badPacketFormat { conn with parsing := parsing } left (left ++ more)
      (by decide) (hsteady.parse ⟨fun _ => ⟨type, htyped⟩, hbounded⟩)
      (onParsingRemainLength_stop auth status hfront (by decide) hparse)
      (onParsingRemainLength_stop auth status hwholeNe (by decide) hwhole)
  · dsimp only at hneed hleft
    subst hneed hleft
    have hnext : { conn with parsing := parsing }.Steady :=
      hsteady.parse ⟨fun _ => ⟨type, htyped⟩, hbounded⟩
    have hnextState : parsing.state = .parsingRemainLength := hread.state.trans hstate
    refine .waits .needMoreData ({ conn with parsing := parsing }.withInput []) (by decide)
      (hnext.withInput []) (by simp [TcpConn.decodeAgain])
      (onParsingRemainLength_stop auth status hfront (by decide) hparse) fun hmore => ⟨?_, ?_⟩
    · simp only [decodeRound, TcpConn.withInput_parsing, hnextState, onParsingRemainLength,
        TcpConn.withInput_inBuffer, TcpConn.withInput_withInput, List.nil_append, hmore,
        hwholeNe, ↓reduceIte, hwhole]
      rfl
    · simp only [RoundSafe, TcpConn.withInput_parsing, hnextState]
      intro parsing' buffer hrest
      exact hsafe parsing' buffer (hwhole.trans hrest)

def TcpConn.afterHeader (conn : TcpConn) (byte : UInt8) : TcpConn :=
  { conn with parsing := ⟨.parsingRemainLength, byte, 0, 1⟩ }

theorem onParsingFixedHeader_unknown (auth : BrokerAuth) (conn : TcpConn) {byte : UInt8}
    (htype : packetTypeOf byte = none) (rest : Bytes) :
    onParsingFixedHeader auth (conn.withInput (byte :: rest)) =
      some (.unknownPacket, conn.withInput rest) := by
  simp [onParsingFixedHeader, htype]

theorem onParsingFixedHeader_refused (auth : BrokerAuth) {conn : TcpConn} {byte : UInt8}
    {type : PacketType} (htype : packetTypeOf byte = some type)
    (hrefused : HeaderRefused conn.connState type byte) :
    ∃ status : DecodeStatus, status.refuses ∧ ∀ rest,
      onParsingFixedHeader auth (conn.withInput (byte :: rest)) =
        some (status, (conn.afterHeader byte).withInput rest) := by
  by_cases hbad : validateFlags type (flagsOf byte) = .badPacketFormat
  · refine ⟨.badPacketFormat, by decide, fun rest => ?_⟩
    simp [onParsingFixedHeader, htype, hbad]
    rfl
  · refine ⟨.protocolError, by decide, fun rest => ?_⟩
    have hnoSession := hrefused.resolve_left hbad
    simp only [onParsingFixedHeader, TcpConn.withInput_inBuffer, tmqBufferRead8_cons,
      Option.bind_eq_bind, Option.bind_some, TcpConn.withInput_withInput, htype, hbad,
      TcpConn.withInput_connState, ↓reduceIte]
    exact if_pos hnoSession

theorem onParsingFixedHeader_passed (auth : BrokerAuth) {conn : TcpConn} {byte : UInt8}
    {type : PacketType} (htype : packetTypeOf byte = some type)
    (hpassed : ¬ HeaderRefused conn.connState type byte) (rest : Bytes) :
    onParsingFixedHeader auth (conn.withInput (byte :: rest)) =
      onParsingRemainLength auth (some (validateFlags type (flagsOf byte)))
        ((conn.afterHeader byte).withInput rest) := by
  obtain ⟨hflags, hsession⟩ := not_or.mp hpassed
  simp only [onParsingFixedHeader, TcpConn.withInput_inBuffer, tmqBufferRead8_cons,
    Option.bind_eq_bind, Option.bind_some, TcpConn.withInput_withInput, htype, hflags,
    TcpConn.withInput_connState, hsession, ↓reduceIte]
  rfl

theorem validateFlags_cases (type : PacketType) (flags : UInt8) :
    validateFlags type flags = .decodeOk ∨ validateFlags type flags = .badPacketFormat ∨
      validateFlags type flags = .protocolError := by
  unfold validateFlags
  split
  · exact Or.inl rfl
  all_goals split <;> simp

theorem onParsingFixedHeader_split (auth : BrokerAuth) {conn : TcpConn} {front more : Bytes}
    (hsteady : conn.Steady) (hfront : front ≠ [])
    (hsafe : HeaderSafe (conn.withInput (front ++ more))) :
    Split auth (fun buffer => onParsingFixedHeader auth (conn.withInput buffer)) front more 1 := by
  obtain ⟨byte, rest, rfl⟩ := List.exists_cons_of_ne_nil hfront
  cases htype : packetTypeOf byte with
  | none =>
      exact .refused .unknownPacket conn rest (rest ++ more) (by decide) hsteady
        (onParsingFixedHeader_unknown auth conn htype rest)
        (onParsingFixedHeader_unknown auth conn htype (rest ++ more))
  | some type =>
      have hafter : (conn.afterHeader byte).Steady :=
        hsteady.parse ⟨fun _ => ⟨type, htype⟩, Nat.two_pow_pos 32⟩
      by_cases hrefused : HeaderRefused conn.connState type byte
      · obtain ⟨status, hstatus, hround⟩ := onParsingFixedHeader_refused auth htype hrefused
        exact .refused status (conn.afterHeader byte) rest (rest ++ more) hstatus hafter
          (hround rest) (hround (rest ++ more))
      · obtain ⟨hlast, hlength⟩ := hsafe byte (rest ++ more) type rfl htype hrefused
        have hround := onParsingFixedHeader_passed auth htype hrefused
        by_cases hrest : rest = []
        · subst hrest
          rcases validateFlags_cases type (flagsOf byte) with hflags | hflags | hflags
          · refine .waits .decodeOk ((conn.afterHeader byte).withInput []) (by decide)
              (hafter.withInput []) (by simp [TcpConn.decodeAgain]) ?_ fun hmore => ⟨?_, hlength⟩
            · rw [hround]
              simp [onParsingRemainLength, hflags]
            · rw [List.cons_append, hround]
              exact onParsingRemainLength_status auth none _ (conn.afterHeader byte) hmore
          · exact (hrefused (Or.inl hflags)).elim
          · obtain rfl : more = [] := by simpa using hlast hflags
            have hstop : onParsingFixedHeader auth (conn.withInput [byte]) =
                some (.protocolError, (conn.afterHeader byte).withInput []) := by
              rw [hround]
              simp [onParsingRemainLength, hflags]
            exact .refused .protocolError (conn.afterHeader byte) [] [] (by decide) hafter
              hstop hstop
        · exact (onParsingRemainLength_split auth _ hafter rfl hrest hlength).transfer
            (hround rest) (hround (rest ++ more)) (by simp)

theorem decodeRound_split (auth : BrokerAuth) {conn : TcpConn} {front more : Bytes}
    (hsteady : conn.Steady) (hfront : front ≠ [])
    (hsafe : RoundSafe (conn.withInput (front ++ more))) :
    Split auth (fun buffer => decodeRound auth (conn.withInput buffer)) front more
      (if conn.parsing.state = .parsingFixedHeader then 1 else 0) := by
  cases hstate : conn.parsing.state with
  | parsingFixedHeader =>
      simp only [RoundSafe, TcpConn.withInput_parsing, hstate] at hsafe
      simpa [decodeRound, hstate] using onParsingFixedHeader_split auth hsteady hfront hsafe
  | parsingRemainLength =>
      simp only [RoundSafe, TcpConn.withInput_parsing, hstate] at hsafe
      simpa [decodeRound, hstate] using
        onParsingRemainLength_split auth none hsteady hstate hfront hsafe
  | parsingBody =>
      simp only [RoundSafe, TcpConn.withInput_parsing, hstate] at hsafe
      simpa [decodeRound, hstate] using onParsingBody_split auth hsteady hstate hsafe

/-! ### The whole decoder on a part of the input -/

/-- How the decoder's call on the front of the input relates to the call on
all of it. -/
inductive CallSplit (auth : BrokerAuth) (whole final : TcpConn) (more : Bytes) : Prop where
  | closed (left : Bytes) (hclosed : final.state = .disconnected)
      (hwhole : Decodes auth whole (final.withInput left))
  | waits (hsteady : final.Steady)
      (hresume : more ≠ [] → RunSafe auth (final.withInput (final.inBuffer ++ more)) ∧
        ∀ result, Decodes auth (final.withInput (final.inBuffer ++ more)) result →
          Decodes auth whole result)

theorem TcpConn.Steady.close_state {conn : TcpConn} (hsteady : conn.Steady) :
    conn.close.state = .disconnected := by
  simp [close, hsteady.connected]

theorem TcpConn.Steady.decodeAgain_iff {conn : TcpConn} (hsteady : conn.Steady)
    (hstate : conn.parsing.state = .parsingFixedHeader) :
    conn.decodeAgain ↔ conn.inBuffer ≠ [] := by
  simp [decodeAgain, hsteady.notTunneled, hstate]

theorem decodeLoop_split (auth : BrokerAuth) {fuel : Nat} {conn : TcpConn} {front more : Bytes}
    (hsteady : conn.Steady) (hfront : front ≠ [])
    (hfuel : front.length + (if conn.parsing.state = .parsingFixedHeader then 0 else 1) < fuel)
    (hsafe : RunSafe auth (conn.withInput (front ++ more))) :
    ∃ final, decodeLoop auth fuel (conn.withInput front) = some final ∧
      CallSplit auth (conn.withInput (front ++ more)) final more := by
  induction fuel generalizing conn front with
  | zero => omega
  | succ fuel ih =>
      cases decodeRound_split auth hsteady hfront hsafe.round with
      | refused status next left left' hrefuses hnext hround hwhole =>
          refine ⟨_, decodeLoop_refused hround hrefuses fuel, ?_⟩
          refine .closed left' (hnext.withInput left).close_state ⟨1, ?_⟩
          rw [decodeLoop_refused hwhole hrefuses 0, TcpConn.close_withInput,
            TcpConn.close_withInput, TcpConn.withInput_withInput]
      | waits status next haccepts hnext hagain hround hresume =>
          refine ⟨next, decodeLoop_waits hround haccepts hagain fuel, .waits hnext ?_⟩
          intro hmore
          obtain ⟨hsame, hfirst⟩ := hresume hmore
          exact ⟨hsafe.congr hsame hfirst, fun result => Decodes.congr hsame.symm⟩
      | accepted next left hnext hstate hleft hround hwhole =>
          have hagainIff := fun buffer => (hnext.withInput buffer).decodeAgain_iff hstate
          by_cases hempty : left = []
          · subst hempty
            have hstop : ¬ (next.withInput []).decodeAgain := by simp [hagainIff]
            refine ⟨_, decodeLoop_waits hround (by decide) hstop fuel,
              .waits (hnext.withInput []) ?_⟩
            intro hmore
            have hgo : (next.withInput ([] ++ more)).decodeAgain := by simp [hagainIff, hmore]
            refine ⟨hsafe.step hwhole hgo, ?_⟩
            rintro result ⟨fuel', hloop⟩
            exact ⟨fuel' + 1, (decodeLoop_again hwhole hgo fuel').trans hloop⟩
          · have hgo : (next.withInput left).decodeAgain := by simp [hagainIff, hempty]
            have hgo' : (next.withInput (left ++ more)).decodeAgain := by
              simp [hagainIff, hempty]
            have hfuel' : left.length +
                (if next.parsing.state = .parsingFixedHeader then 0 else 1) < fuel := by
              rw [if_pos hstate]
              split at hfuel <;> split at hleft <;> omega
            obtain ⟨final, hloop, hcall⟩ := ih hnext hempty hfuel' (hsafe.step hwhole hgo')
            refine ⟨final, (decodeLoop_again hround hgo fuel).trans hloop, ?_⟩
            have hprepend : ∀ result, Decodes auth (next.withInput (left ++ more)) result →
                Decodes auth (conn.withInput (front ++ more)) result := by
              rintro result ⟨fuel', hrest⟩
              exact ⟨fuel' + 1, (decodeLoop_again hwhole hgo' fuel').trans hrest⟩
            cases hcall with
            | closed left' hclosed hdecodes => exact .closed left' hclosed (hprepend _ hdecodes)
            | waits hfinal hresume =>
                refine .waits hfinal fun hmore => ⟨(hresume hmore).1, fun result hresult => ?_⟩
                exact hprepend result ((hresume hmore).2 result hresult)

/-- The decoder's call on the front of the input. -/
theorem decodeTcpMessage_split (auth : BrokerAuth) {conn : TcpConn} {front more : Bytes}
    (hsteady : conn.Steady) (hfront : front ≠ [])
    (hsafe : RunSafe auth (conn.withInput (front ++ more))) :
    ∃ final, decodeTcpMessage auth (conn.withInput front) = some final ∧
      CallSplit auth (conn.withInput (front ++ more)) final more := by
  refine decodeLoop_split auth hsteady hfront ?_ hsafe
  simp only [TcpConn.withInput_inBuffer]
  split <;> omega

/-! ### Feeding chunks -/

def feedChunks (auth : BrokerAuth) : TcpConn → List Bytes → Option TcpConn
  | conn, [] => some conn
  | conn, chunk :: chunks => do
      let conn ← readCb auth conn chunk
      feedChunks auth conn chunks

theorem feedChunks_of_not_connected (auth : BrokerAuth) {conn : TcpConn}
    (hstate : conn.state ≠ .connected) (chunks : List Bytes) :
    feedChunks auth conn chunks = some conn := by
  induction chunks with
  | nil => rfl
  | cons chunk chunks ih => simp [feedChunks, readCb, hstate, ih]

/-- Feeding chunks ends as one call on all the bytes would. -/
theorem feedChunks_whole (auth : BrokerAuth) {conn : TcpConn} {chunk : Bytes}
    {chunks : List Bytes} (hsteady : conn.Steady) (hchunk : chunk ≠ [])
    (hchunks : ∀ c ∈ chunks, c ≠ [])
    (hsafe : RunSafe auth (conn.withInput (conn.inBuffer ++ (chunk ++ chunks.flatten)))) :
    ∃ final whole, feedChunks auth conn (chunk :: chunks) = some final ∧
      Decodes auth (conn.withInput (conn.inBuffer ++ (chunk ++ chunks.flatten))) whole ∧
      final.log = whole.log ∧ final.state = whole.state := by
  induction chunks generalizing conn chunk with
  | nil =>
      have hfront : conn.inBuffer ++ chunk ≠ [] := by simp [hchunk]
      simp only [List.flatten_nil, List.append_nil] at hsafe ⊢
      obtain ⟨final, hcall, -⟩ := decodeTcpMessage_split auth hsteady hfront
        (show RunSafe auth (conn.withInput (conn.inBuffer ++ chunk ++ [])) by simpa using hsafe)
      exact ⟨final, final, by simp [feedChunks, readCb, hsteady.connected, hcall],
        ⟨_, hcall⟩, rfl, rfl⟩
  | cons second chunks ih =>
      have hfront : conn.inBuffer ++ chunk ≠ [] := by simp [hchunk]
      have hmore : (second :: chunks).flatten ≠ [] := by
        simp [hchunks second List.mem_cons_self]
      rw [← List.append_assoc] at hsafe ⊢
      obtain ⟨next, hcall, hsplit⟩ := decodeTcpMessage_split auth hsteady hfront hsafe
      have hfeed : feedChunks auth conn (chunk :: second :: chunks) =
          feedChunks auth next (second :: chunks) := by
        simp [feedChunks, readCb, hsteady.connected, hcall]
      rw [hfeed]
      cases hsplit with
      | closed left hclosed hdecodes =>
          refine ⟨next, next.withInput left, ?_, hdecodes, rfl, rfl⟩
          exact feedChunks_of_not_connected auth (by simp [hclosed]) _
      | waits hnext hresume =>
          obtain ⟨hrest, hwhole⟩ := hresume hmore
          obtain ⟨final, whole, hfinal, hdecodes, hlog, hstate⟩ := ih hnext
            (hchunks second List.mem_cons_self)
            (fun c hc => hchunks c (List.mem_cons_of_mem _ hc)) hrest
          exact ⟨final, whole, hfinal, hwhole whole hdecodes, hlog, hstate⟩

/-- Two ways of cutting a byte string lead to the same callbacks with the same
packets, the same answers and the same verdict, when every round of decoding
the string meets its condition. -/
theorem feedChunks_segmentation (auth : BrokerAuth) (conn : TcpConn) (bytes : Bytes)
    (hsteady : conn.Steady) (hsafe : RunSafe auth (conn.withInput (conn.inBuffer ++ bytes)))
    (chunks chunks' : List Bytes) (hchunks : ∀ c ∈ chunks, c ≠ []) (hchunks' : ∀ c ∈ chunks', c ≠ [])
    (hflatten : chunks.flatten = bytes) (hflatten' : chunks'.flatten = bytes) :
    ∃ final final', feedChunks auth conn chunks = some final ∧
      feedChunks auth conn chunks' = some final' ∧ final.log = final'.log ∧
      (final.state = .disconnected ↔ final'.state = .disconnected) := by
  subst hflatten
  rcases chunks with _ | ⟨chunk, chunks⟩
  · rcases chunks' with _ | ⟨chunk', chunks'⟩
    · exact ⟨conn, conn, rfl, rfl, rfl, Iff.rfl⟩
    · simp [hchunks' chunk' List.mem_cons_self] at hflatten'
  · rcases chunks' with _ | ⟨chunk', chunks'⟩
    · simp [hchunks chunk List.mem_cons_self] at hflatten'
    · obtain ⟨final, whole, hfinal, hdecodes, hlog, hstate⟩ := feedChunks_whole auth hsteady
        (hchunks chunk List.mem_cons_self) (fun c hc => hchunks c (List.mem_cons_of_mem _ hc)) hsafe
      rw [← hflatten'] at hsafe
      obtain ⟨final', whole', hfinal', hdecodes', hlog', hstate'⟩ := feedChunks_whole auth hsteady
        (hchunks' chunk' List.mem_cons_self) (fun c hc => hchunks' c (List.mem_cons_of_mem _ hc))
        hsafe
      have hsame : whole' = whole := by
        refine Decodes.unique hdecodes' ?_
        have hjoin : chunk' ++ chunks'.flatten = chunk ++ chunks.flatten := hflatten'
        rw [hjoin]
        exact hdecodes
      subst hsame
      exact ⟨final, final', hfinal, hfinal', hlog.trans hlog'.symm, by rw [hstate, hstate']⟩

/-- A connection that carries session 1 and waits for a packet. -/
def sessionConn : TcpConn := { newConn with upstream := .session 1, connState := .inSession }

theorem sessionConn_steady : sessionConn.Steady :=
  ⟨rfl, by decide, rfl, ⟨fun h => (h rfl).elim, Nat.two_pow_pos 32⟩⟩

theorem runSafe_pingreq : RunSafe openAuth (sessionConn.withInput [0xC0, 0x00]) := by
  intro reached hrounds
  cases hrounds with
  | refl =>
      intro byte rest type hbuffer htype _
      simp only [TcpConn.withInput_inBuffer, List.cons.injEq] at hbuffer
      obtain ⟨rfl, rfl⟩ := hbuffer
      obtain rfl : PacketType.pingreq = type := Option.some.inj htype
      refine ⟨by decide, fun parsing buffer hlength type htype _ => ?_⟩
      obtain ⟨rfl, rfl⟩ : (⟨.parsingRemainLength, 0xC0, 0, 128⟩ : ParsingCtx) = parsing ∧
          ([] : Bytes) = buffer := by
        have hread : parseRemainLength ⟨.parsingRemainLength, 0xC0, 0, 1⟩ [0x00] =
          (.decodeOk, ⟨.parsingRemainLength, 0xC0, 0, 128⟩, []) := by decide
        have hsame := hread.symm.trans hlength
        simpa using hsame
      obtain rfl : PacketType.pingreq = type := Option.some.inj htype
      exact Or.inl fun _ => rfl
  | step hround hagain hrest =>
      have hnext : decodeRound openAuth (sessionConn.withInput [0xC0, 0x00]) =
          some (.decodeOk, { sessionConn with
            parsing := ⟨.parsingFixedHeader, 0xC0, 0, 128⟩,
            log := [.parse .pingreq .connected .inSession, .send .pingresp,
              .onPingReq (.session 1)] }) := by
        decide
      rw [hnext] at hround
      simp only [Option.some.injEq, Prod.mk.injEq, true_and] at hround
      subst hround
      exact absurd hagain (by decide)

theorem feedChunks_pingreq :
    sessionConn.Steady ∧ RunSafe openAuth (sessionConn.withInput [0xC0, 0x00]) ∧
      ∃ final final', feedChunks openAuth sessionConn [[0xC0], [0x00]] = some final ∧
        feedChunks openAuth sessionConn [[0xC0, 0x00]] = some final' ∧ final.log = final'.log ∧
        (final.state = .disconnected ↔ final'.state = .disconnected) :=
  ⟨sessionConn_steady, runSafe_pingreq,
    feedChunks_segmentation openAuth sessionConn [0xC0, 0x00] sessionConn_steady runSafe_pingreq
      [[0xC0], [0x00]] [[0xC0, 0x00]] (by decide) (by decide) (by decide) (by decide)⟩

/-- A PINGREQ with a reserved flag set is refused when its header byte comes
alone and answered when the remaining length comes with it. -/
theorem segmentation_matters :
    ¬ (∀ chunks chunks' : List Bytes, (∀ c ∈ chunks, c ≠ []) → (∀ c ∈ chunks', c ≠ []) →
      chunks.flatten = [0xC1, 0x00] → chunks'.flatten = [0xC1, 0x00] →
      ∃ final final', feedChunks openAuth sessionConn chunks = some final ∧
        feedChunks openAuth sessionConn chunks' = some final' ∧ final.log = final'.log ∧
        (final.state = .disconnected ↔ final'.state = .disconnected)) := by
  intro hsame
  obtain ⟨final, final', hfeed, hfeed', -, hverdict⟩ :=
    hsame [[0xC1], [0x00]] [[0xC1, 0x00]] (by decide) (by decide) (by decide) (by decide)
  have hclosed : (feedChunks openAuth sessionConn [[0xC1], [0x00]]).map (·.state) =
      some .disconnected := by decide
  have hopen : (feedChunks openAuth sessionConn [[0xC1, 0x00]]).map (·.state) =
      some .connected := by decide
  rw [hfeed] at hclosed
  rw [hfeed'] at hopen
  simp only [Option.map_some, Option.some.injEq] at hclosed hopen
  rw [hclosed, hopen] at hverdict
  simp at hverdict

end TinyMqtt
