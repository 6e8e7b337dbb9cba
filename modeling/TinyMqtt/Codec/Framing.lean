import TinyMqtt.Codec.ParserFraming

/-!
Packet framing for the whole `packet_parsers` table and for the body step of
the decoder. The bodies that fit are exactly the bodies a parser refuses or
consumes to the last byte.
-/

namespace TinyMqtt

/-! ### All parsers -/

theorem parseConnAckPacket_framedAs (auth : BrokerAuth) (conn : TcpConn) {body : Bytes}
    (hfits : conn.codecType = .client → body.length = 2) :
    ∃ status next, FramedAs
      (fun buffer => parseConnAckPacket auth (conn.withInput buffer) body.length) body
      status next := by
  by_cases hclient : conn.codecType = .client
  · obtain ⟨ackFlags, returnCode, rfl⟩ := List.length_eq_two.mp (hfits hclient)
    refine ⟨.decodeOk, onConnectResponse (conn.call (.onConnAck conn.upstream ⟨ackFlags, returnCode⟩)),
      fun rest => ⟨rest, ?_, fun _ => rfl⟩⟩
    simp [parseConnAckPacket, hclient, TcpConn.call_withInput]
    rfl
  · exact ⟨.unexpectedPacket, conn, fun rest => ⟨body ++ rest,
      by simp [parseConnAckPacket, hclient], by simp⟩⟩

theorem length_of_parseConnAckPacket_consumes (auth : BrokerAuth) (conn : TcpConn) {body : Bytes}
    (hclient : conn.codecType = .client)
    (hconsumes : Consumes
      (fun buffer => parseConnAckPacket auth (conn.withInput buffer) body.length) body) :
    body.length = 2 := by
  obtain ⟨status, next, hparse, hresult⟩ := hconsumes []
  rcases body with _ | ⟨ackFlags, _ | ⟨returnCode, extra⟩⟩
  · simp [parseConnAckPacket, hclient] at hparse
  · simp [parseConnAckPacket, hclient] at hparse
  · simp [parseConnAckPacket, hclient, TcpConn.call_withInput, onConnectResponse] at hparse
    obtain ⟨rfl, rfl⟩ := hparse
    simpa using hresult

theorem packetParsers_framedAs (auth : BrokerAuth) (conn : TcpConn) (type : PacketType)
    {body : Bytes} (hlen : body.length < 2 ^ 32) (hfits : BodyFits conn.codecType type body) :
    ∃ status next, FramedAs
      (fun buffer => packetParsers type auth (conn.withInput buffer) body.length) body
      status next := by
  cases type with
  | connect => exact parseConnectPacket_framedAs auth conn hfits
  | connack => exact parseConnAckPacket_framedAs auth conn hfits
  | publish => exact parsePublishPacket_framedAs auth conn hlen hfits
  | puback => exact parsePacketId_framedAs (handlePacketId_withInput .onPubAck) conn hfits
  | pubrec => exact parsePacketId_framedAs (handlePacketId_withInput .onPubRec) conn hfits
  | pubrel => exact parsePacketId_framedAs handlePubRel_withInput conn hfits
  | pubcomp => exact parsePacketId_framedAs (handlePacketId_withInput .onPubComp) conn hfits
  | subscribe => exact parseSubscribePacket_framedAs auth conn hlen hfits
  | suback => exact parseSubackPacket_framedAs auth conn hlen hfits
  | unsubscribe => exact parseUnsubscribePacket_framedAs auth conn hlen hfits
  | unsuback =>
      by_cases hclient : conn.codecType = .client
      · obtain ⟨status, next, hframed⟩ :=
          parsePacketId_framedAs (handlePacketId_withInput .onUnsubAck) conn (hfits hclient)
        refine ⟨status, next, ?_⟩
        simpa [packetParsers, parseUnsubAckPacket, hclient] using hframed
      · exact ⟨.unexpectedPacket, conn, fun rest => ⟨body ++ rest,
          by simp [packetParsers, parseUnsubAckPacket, hclient], by simp⟩⟩
  | pingreq =>
      by_cases hserver : conn.codecType = .server
      · obtain rfl := hfits hserver
        refine ⟨.decodeOk, handlePingReq conn, fun rest => ⟨rest, ?_, fun _ => rfl⟩⟩
        simp [packetParsers, parsePingReqPacket, hserver, handlePingReq_withInput]
      · exact ⟨.unexpectedPacket, conn, fun rest => ⟨body ++ rest,
          by simp [packetParsers, parsePingReqPacket, hserver], by simp⟩⟩
  | pingresp =>
      by_cases hclient : conn.codecType = .client
      · obtain rfl := hfits hclient
        refine ⟨.decodeOk, conn.call (.onPingResp conn.upstream),
          fun rest => ⟨rest, ?_, fun _ => rfl⟩⟩
        simp [packetParsers, parsePingRespPacket, hclient, TcpConn.call_withInput]
      · exact ⟨.unexpectedPacket, conn, fun rest => ⟨body ++ rest,
          by simp [packetParsers, parsePingRespPacket, hclient], by simp⟩⟩
  | disconnect =>
      by_cases hserver : conn.codecType = .server
      · obtain rfl := hfits hserver
        refine ⟨.decodeOk, handleDisconnect conn, fun rest => ⟨rest, ?_, fun _ => rfl⟩⟩
        simp [packetParsers, parseDisconnectPacket, hserver, handleDisconnect_withInput]
      · exact ⟨.unexpectedPacket, conn, fun rest => ⟨body ++ rest,
          by simp [packetParsers, parseDisconnectPacket, hserver], by simp⟩⟩

theorem bodyFits_of_consumes (auth : BrokerAuth) (conn : TcpConn) (type : PacketType)
    {body : Bytes} (hlen : body.length < 2 ^ 32)
    (hconsumes : Consumes
      (fun buffer => packetParsers type auth (conn.withInput buffer) body.length) body) :
    BodyFits conn.codecType type body := by
  cases type with
  | connect => exact fun hserver => connectBodyFits_of_consumes auth conn hserver hconsumes
  | connack =>
      exact fun hclient => length_of_parseConnAckPacket_consumes auth conn hclient hconsumes
  | publish => exact publishBodyFits_of_consumes auth conn hlen hconsumes
  | puback =>
      exact length_of_parsePacketId_consumes (handlePacketId_withInput .onPubAck) conn hconsumes
  | pubrec =>
      exact length_of_parsePacketId_consumes (handlePacketId_withInput .onPubRec) conn hconsumes
  | pubrel => exact length_of_parsePacketId_consumes handlePubRel_withInput conn hconsumes
  | pubcomp =>
      exact length_of_parsePacketId_consumes (handlePacketId_withInput .onPubComp) conn hconsumes
  | subscribe => exact fun hserver => topicFiltersFit_of_consumes auth conn hlen hserver hconsumes
  | suback =>
      exact fun hclient => length_of_parseSubackPacket_consumes auth conn hclient hconsumes
  | unsubscribe => exact fun hserver => filtersFit_of_consumes auth conn hlen hserver hconsumes
  | unsuback =>
      intro hclient
      refine length_of_parsePacketId_consumes (handlePacketId_withInput .onUnsubAck) conn ?_
      simpa [packetParsers, parseUnsubAckPacket, hclient] using hconsumes
  | pingreq =>
      intro hserver
      obtain ⟨status, next, hparse, hresult⟩ := hconsumes []
      simp only [packetParsers, parsePingReqPacket, TcpConn.withInput_codecType, hserver,
        handlePingReq_withInput, ne_eq, not_true_eq_false, ↓reduceIte, Option.some.injEq,
        Prod.mk.injEq] at hparse
      obtain ⟨rfl, rfl⟩ := hparse
      simpa using hresult
  | pingresp =>
      intro hclient
      obtain ⟨status, next, hparse, hresult⟩ := hconsumes []
      simp only [packetParsers, parsePingRespPacket, TcpConn.withInput_codecType, hclient,
        TcpConn.call_withInput, ne_eq, not_true_eq_false, ↓reduceIte, Option.some.injEq,
        Prod.mk.injEq] at hparse
      obtain ⟨rfl, rfl⟩ := hparse
      simpa using hresult
  | disconnect =>
      intro hserver
      obtain ⟨status, next, hparse, hresult⟩ := hconsumes []
      simp only [packetParsers, parseDisconnectPacket, TcpConn.withInput_codecType, hserver,
        handleDisconnect_withInput, ne_eq, not_true_eq_false, ↓reduceIte, Option.some.injEq,
        Prod.mk.injEq] at hparse
      obtain ⟨rfl, rfl⟩ := hparse
      simpa using hresult

/-! ### The decoder's body step -/

/-- The connection once the decoder has read a fixed header that declares
`remainLength` bytes. -/
def TcpConn.expectBody (conn : TcpConn) (remainLength : Nat) : TcpConn :=
  { conn with parsing := { conn.parsing with state := .parsingBody, remainLength := remainLength } }

/-- The decoder's body step on a body of the declared length with `rest`
behind it in the buffer. -/
def parseBody (auth : BrokerAuth) (conn : TcpConn) (body rest : Bytes) :
    Option (DecodeStatus × TcpConn) :=
  onParsingBody auth ((conn.expectBody body.length).withInput (body ++ rest))

/-- The selected parser refuses the packet or consumes exactly its body, and
what an accepted packet does to the connection, apart from the bytes left in
the buffer, does not depend on what follows it. -/
structure Framed (auth : BrokerAuth) (conn : TcpConn) (body : Bytes) : Prop where
  consumes : ∀ rest, ∃ status next, parseBody auth conn body rest = some (status, next) ∧
    (status ≠ .decodeOk ∨ next.inBuffer = rest)
  delivers : ∀ rest rest' next next',
    parseBody auth conn body rest = some (.decodeOk, next) →
    parseBody auth conn body rest' = some (.decodeOk, next') →
    next.withInput [] = next'.withInput []

def TcpConn.enterParser (conn : TcpConn) (type : PacketType) (remainLength : Nat) : TcpConn :=
  (conn.expectBody remainLength).record (.parse type conn.state conn.connState)

def TcpConn.finishBody (conn : TcpConn) : TcpConn :=
  { conn with parsing := { conn.parsing with state := .parsingFixedHeader } }

theorem finishBody_withInput (conn : TcpConn) (buffer : Bytes) :
    (conn.withInput buffer).finishBody = conn.finishBody.withInput buffer := rfl

/-- The body step on a complete body is the parser of its type. -/
theorem onParsingBody_complete (auth : BrokerAuth) {conn : TcpConn} {type : PacketType}
    (htype : packetTypeOf conn.parsing.typeFlags = some type) {buffer : Bytes}
    (hcomplete : conn.parsing.remainLength ≤ buffer.length) :
    onParsingBody auth (conn.withInput buffer) =
      (packetParsers type auth
        ((conn.record (.parse type conn.state conn.connState)).withInput buffer)
        conn.parsing.remainLength).map (fun result =>
          if result.1 = .decodeOk then (result.1, result.2.finishBody) else result) := by
  have hlen : ¬ buffer.length < conn.parsing.remainLength := by omega
  simp only [onParsingBody, TcpConn.withInput_inBuffer, TcpConn.withInput_parsing, hlen,
    ↓reduceIte, htype, Option.bind_eq_bind, Option.bind_some, TcpConn.record_withInput,
    TcpConn.withInput_state, TcpConn.withInput_connState]
  cases packetParsers type auth _ conn.parsing.remainLength with
  | none => rfl
  | some result =>
      obtain ⟨status, next⟩ := result
      by_cases hok : status = .decodeOk <;> simp [hok, TcpConn.finishBody]

theorem parseBody_eq (auth : BrokerAuth) {conn : TcpConn} {type : PacketType}
    (htype : packetTypeOf conn.parsing.typeFlags = some type) (body rest : Bytes) :
    parseBody auth conn body rest =
      (packetParsers type auth ((conn.enterParser type body.length).withInput (body ++ rest))
        body.length).map (fun result =>
          if result.1 = .decodeOk then (result.1, result.2.finishBody) else result) := by
  have htype' : packetTypeOf (conn.expectBody body.length).parsing.typeFlags = some type := htype
  have hlen : (conn.expectBody body.length).parsing.remainLength ≤ (body ++ rest).length := by
    simp [TcpConn.expectBody]
  exact onParsingBody_complete auth htype' hlen

/-- A body that fits takes the decoder to a state that is determined by the
header and the body. -/
theorem parseBody_of_fits (auth : BrokerAuth) {conn : TcpConn} {type : PacketType} {body : Bytes}
    (hlen : body.length < 2 ^ 32) (htype : packetTypeOf conn.parsing.typeFlags = some type)
    (hfits : BodyFits conn.codecType type body) :
    ∃ status next, FramedAs
      (fun buffer => onParsingBody auth ((conn.expectBody body.length).withInput buffer)) body
      status next := by
  obtain ⟨status, next, hframed⟩ :=
    packetParsers_framedAs auth (conn.enterParser type body.length) type hlen hfits
  by_cases hok : status = .decodeOk
  · refine ⟨.decodeOk, next.finishBody, fun rest => ⟨rest, ?_, fun _ => rfl⟩⟩
    obtain ⟨left, hparse, hleft⟩ := hframed rest
    obtain rfl := hleft hok
    have hbody := parseBody_eq auth htype body left
    dsimp only at hparse
    rw [hparse] at hbody
    simpa [hok, parseBody, finishBody_withInput] using hbody
  · refine ⟨status, next, fun rest => ?_⟩
    obtain ⟨left, hparse, -⟩ := hframed rest
    refine ⟨left, ?_, fun h => (hok h).elim⟩
    have hbody := parseBody_eq auth htype body rest
    dsimp only at hparse
    rw [hparse] at hbody
    simpa [hok, parseBody] using hbody

/-- The bodies that are refused or consumed exactly are the ones whose inner
lengths agree with the declared length. -/
theorem framed_iff_bodyFits (auth : BrokerAuth) (conn : TcpConn) (type : PacketType) (body : Bytes)
    (hlen : body.length < 2 ^ 32) (htype : packetTypeOf conn.parsing.typeFlags = some type) :
    Framed auth conn body ↔ BodyFits conn.codecType type body := by
  constructor
  · intro hframed
    refine bodyFits_of_consumes auth (conn.enterParser type body.length) type hlen ?_
    intro rest
    obtain ⟨status, next, hbody, hresult⟩ := hframed.consumes rest
    rw [parseBody_eq auth htype body rest, Option.map_eq_some_iff] at hbody
    obtain ⟨⟨status', next'⟩, hparse, heq⟩ := hbody
    refine ⟨status', next', hparse, ?_⟩
    by_cases hok : status' = .decodeOk
    · simp only [hok, ↓reduceIte, Prod.mk.injEq] at heq
      obtain ⟨rfl, rfl⟩ := heq
      exact Or.inr (hresult.resolve_left (not_not.mpr rfl))
    · exact Or.inl hok
  · intro hfits
    obtain ⟨status, next, hframed⟩ := parseBody_of_fits auth hlen htype hfits
    refine ⟨hframed.consumes, ?_⟩
    intro rest rest' first second hfirst hsecond
    obtain ⟨left, hparse, -⟩ := hframed rest
    obtain ⟨left', hparse', -⟩ := hframed rest'
    simp only [parseBody] at hfirst hsecond
    dsimp only at hparse hparse'
    rw [hparse] at hfirst
    rw [hparse'] at hsecond
    simp only [Option.some.injEq, Prod.mk.injEq] at hfirst hsecond
    rw [← hfirst.2, ← hsecond.2]
    rfl

/-- A session connection that has read the fixed header of a PUBACK. -/
def pubackConn : TcpConn :=
  { newConn with
    upstream := .session 1, connState := .inSession, parsing := ⟨.parsingBody, 0x40, 0, 128⟩ }

def openAuth : BrokerAuth := ⟨true, false, fun _ => false⟩

theorem framed_puback :
    [(0 : UInt8), 7].length < 2 ^ 32 ∧ Framed openAuth pubackConn [0, 7] := by
  refine ⟨by decide, ?_⟩
  exact (framed_iff_bodyFits openAuth pubackConn .puback [0, 7] (by decide) rfl).mpr rfl

/-- A PUBACK that declares no body takes its packet identifier from the next
packet, here a PINGREQ, which is never decoded. -/
theorem not_framed_empty_puback :
    ¬ (∀ rest, ∃ status next, parseBody openAuth pubackConn [] rest = some (status, next) ∧
      (status ≠ .decodeOk ∨ next.inBuffer = rest)) := by
  intro hframed
  obtain ⟨status, next, hparse, hresult⟩ := hframed [0xC0, 0x00]
  have hrun : parseBody openAuth pubackConn [] [0xC0, 0x00] =
      some (.decodeOk, { newConn with
        upstream := .session 1, connState := .inSession,
        parsing := ⟨.parsingFixedHeader, 0x40, 0, 128⟩,
        log := [.parse .puback .connected .inSession, .onPubAck (.session 1) 0xC000] }) := by
    decide
  rw [hrun] at hparse
  simp only [Option.some.injEq, Prod.mk.injEq] at hparse
  obtain ⟨rfl, rfl⟩ := hparse
  simp [newConn] at hresult

end TinyMqtt
