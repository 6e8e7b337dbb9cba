import TinyMqtt.Codec.Decode

/-!
What it means for a packet to be framed. A parser is handed the declared
remaining length but reads from the buffer the whole connection shares, so a
body whose inner lengths disagree with the declared one makes it read too far
or stop too early. `BodyFits` says which bodies are framed.
-/

namespace TinyMqtt

/-! ### Reading from the front of a buffer -/

theorem tmqBufferReadStr_append (body rest : Bytes) (n : Nat) (hlen : n ≤ body.length) :
    tmqBufferReadStr (body ++ rest) n = (body.take n, body.drop n ++ rest) := by
  have htake : (body ++ rest).take n = body.take n := List.take_append_of_le_length hlen
  have hdrop : (body ++ rest).drop n = body.drop n ++ rest := List.drop_append_of_le_length hlen
  simp [tmqBufferReadStr, tmqBufferRead, htake, hdrop, hlen]

@[simp] theorem tmqBufferReadStr_snd (buffer : Bytes) (n : Nat) :
    (tmqBufferReadStr buffer n).2 = buffer.drop n := rfl

@[simp] theorem tmqBufferRead16_cons_cons (msb lsb : UInt8) (rest : Bytes) :
    tmqBufferRead16 (msb :: lsb :: rest) = (some (beUint16 msb lsb), rest) := rfl

@[simp] theorem tmqBufferRead16_nil : tmqBufferRead16 [] = (none, []) := rfl

@[simp] theorem tmqBufferRead16_singleton (byte : UInt8) :
    tmqBufferRead16 [byte] = (none, []) := rfl

@[simp] theorem tmqBufferRead8_cons (byte : UInt8) (rest : Bytes) :
    tmqBufferRead8 (byte :: rest) = (some byte, rest) := rfl

@[simp] theorem tmqBufferRead8_nil : tmqBufferRead8 [] = (none, []) := rfl

/-! ### The callbacks do not look at the buffer -/

theorem mqttConnect_withInput (auth : BrokerAuth) (conn : TcpConn) (buffer : Bytes)
    (pkt : ConnectPkt) :
    mqttConnect auth (conn.withInput buffer) pkt =
      (mqttConnect auth conn pkt).withInput buffer := by
  unfold mqttConnect
  cases auth.validate pkt with
  | inProgress => rfl
  | failure => exact TcpConn.send_withInput conn buffer _
  | success => rfl

theorem deliverPublish_withInput (conn : TcpConn) (buffer : Bytes) (pkt : PublishPkt Bytes) :
    deliverPublish (conn.withInput buffer) pkt = (deliverPublish conn pkt).withInput buffer := by
  unfold deliverPublish
  rw [TcpConn.withInput_connState]
  by_cases htunneled : conn.connState = .tunneled
  · simp only [htunneled, ↓reduceIte]
    exact TcpConn.call_withInput conn buffer _
  · simp only [htunneled, ↓reduceIte]
    cases publishAck pkt with
    | none => exact TcpConn.call_withInput conn buffer _
    | some ack =>
        simp only [TcpConn.send_withInput]
        exact TcpConn.call_withInput _ buffer _

theorem handlePacketId_withInput (event : Upstream → UInt16 → Event Bytes) (conn : TcpConn)
    (buffer : Bytes) (packetId : UInt16) :
    handlePacketId event (conn.withInput buffer) packetId =
      (handlePacketId event conn packetId).withInput buffer :=
  TcpConn.call_withInput conn buffer _

theorem handlePubRel_withInput (conn : TcpConn) (buffer : Bytes) (packetId : UInt16) :
    handlePubRel (conn.withInput buffer) packetId =
      (handlePubRel conn packetId).withInput buffer := by
  unfold handlePubRel
  rw [TcpConn.send_withInput, handlePacketId_withInput]

theorem handlePingReq_withInput (conn : TcpConn) (buffer : Bytes) :
    handlePingReq (conn.withInput buffer) = (handlePingReq conn).withInput buffer := by
  unfold handlePingReq
  simp only [TcpConn.send_withInput]
  exact TcpConn.call_withInput _ buffer _

theorem handleDisconnect_withInput (conn : TcpConn) (buffer : Bytes) :
    handleDisconnect (conn.withInput buffer) = (handleDisconnect conn).withInput buffer := by
  have hcall := TcpConn.call_withInput
    { conn with connState := .noSession, upstream := .broker } buffer
    (.onDisconnect .broker conn.upstream)
  by_cases hsession : conn.connState = .inSession
  · simp only [handleDisconnect, TcpConn.withInput_connState, hsession, ↓reduceIte]
    rw [← TcpConn.record_withInput, ← hcall]
    rfl
  · simp only [handleDisconnect, TcpConn.withInput_connState, hsession, ↓reduceIte]
    rfl

/-! ### Framing of one parser -/

/-- A parser, as a function of the buffer, refuses the packet or leaves
exactly the bytes after the body, whatever these bytes are. -/
def Consumes (parse : Bytes → Option (DecodeStatus × TcpConn)) (body : Bytes) : Prop :=
  ∀ rest, ∃ status next, parse (body ++ rest) = some (status, next) ∧
    (status ≠ .decodeOk ∨ next.inBuffer = rest)

/-- Status and connection after the packet are determined by the body. Only a
refused packet may have taken bytes beyond it. -/
def FramedAs (parse : Bytes → Option (DecodeStatus × TcpConn)) (body : Bytes)
    (status : DecodeStatus) (next : TcpConn) : Prop :=
  ∀ rest, ∃ left, parse (body ++ rest) = some (status, next.withInput left) ∧
    (status = .decodeOk → left = rest)

theorem FramedAs.consumes {parse : Bytes → Option (DecodeStatus × TcpConn)} {body : Bytes}
    {status : DecodeStatus} {next : TcpConn} (hframed : FramedAs parse body status next) :
    Consumes parse body := by
  intro rest
  obtain ⟨left, hparse, hleft⟩ := hframed rest
  refine ⟨status, next.withInput left, hparse, ?_⟩
  by_cases hok : status = .decodeOk
  · exact Or.inr (hleft hok)
  · exact Or.inl hok

/-- A packet identifier and nothing else. -/
theorem parsePacketId_framedAs {handle : TcpConn → UInt16 → TcpConn}
    (hhandle : ∀ conn buffer packetId,
      handle (conn.withInput buffer) packetId = (handle conn packetId).withInput buffer)
    (conn : TcpConn) {body : Bytes} (hlen : body.length = 2) :
    ∃ status next,
      FramedAs (fun buffer => parsePacketId handle (conn.withInput buffer)) body status next := by
  obtain ⟨msb, lsb, rfl⟩ := List.length_eq_two.mp hlen
  refine ⟨.decodeOk, handle conn (beUint16 msb lsb), fun rest => ⟨rest, ?_, fun _ => rfl⟩⟩
  simp [parsePacketId, hhandle]

theorem length_of_parsePacketId_consumes {handle : TcpConn → UInt16 → TcpConn}
    (hhandle : ∀ conn buffer packetId,
      handle (conn.withInput buffer) packetId = (handle conn packetId).withInput buffer)
    (conn : TcpConn) {body : Bytes}
    (hconsumes : Consumes (fun buffer => parsePacketId handle (conn.withInput buffer)) body) :
    body.length = 2 := by
  obtain ⟨status, next, hparse, hresult⟩ := hconsumes []
  rcases body with _ | ⟨msb, _ | ⟨lsb, extra⟩⟩
  · simp [parsePacketId] at hparse
  · simp [parsePacketId] at hparse
  · simp only [List.append_nil, parsePacketId, TcpConn.withInput_inBuffer,
      tmqBufferRead16_cons_cons, Option.bind_eq_bind, Option.bind_some, Option.pure_def,
      Option.some.injEq, Prod.mk.injEq, TcpConn.withInput_withInput, hhandle] at hparse
    obtain ⟨rfl, rfl⟩ := hparse
    simpa using hresult

/-! ### Which bodies are framed -/

/-- The topic filters of a SUBSCRIBE tile the bytes, or one that lies inside
them asks for a QoS above 2. -/
def TopicFiltersFit : Bytes → Prop
  | [] => True
  | [_] => False
  | msb :: lsb :: rest =>
      match _hdrop : rest.drop (beUint16 msb lsb).toNat with
      | [] => False
      | qos :: rest => qos > 2 ∨ TopicFiltersFit rest
termination_by body => body.length
decreasing_by
  have hlen := congrArg List.length _hdrop
  simp only [List.length_drop, List.length_cons] at hlen ⊢
  omega

/-- The topic filters of an UNSUBSCRIBE tile the bytes. -/
def FiltersFit : Bytes → Prop
  | [] => True
  | [_] => False
  | msb :: lsb :: rest =>
      (beUint16 msb lsb).toNat ≤ rest.length ∧ FiltersFit (rest.drop (beUint16 msb lsb).toNat)
termination_by body => body.length

/-- What is left after `k` length-prefixed fields that lie inside the bytes. -/
def skipFields : Nat → Bytes → Option Bytes
  | 0, body => some body
  | k + 1, msb :: lsb :: rest =>
      if (beUint16 msb lsb).toNat ≤ rest.length then
        skipFields k (rest.drop (beUint16 msb lsb).toNat)
      else none
  | _ + 1, _ => none

def connectFieldCount (flags : UInt8) : Nat :=
  (if connectWillFlag flags then 2 else 0) + (if connectUsernameFlag flags then 1 else 0) +
    (if connectPasswordFlag flags then 1 else 0)

/-- The part of a CONNECT body after the connect flags. -/
def ConnectPayloadFits (flags : UInt8) : Bytes → Prop
  | _ :: _ :: msb :: lsb :: rest =>
      let clientIdLen := (beUint16 msb lsb).toNat
      (clientIdLen = 0 ∧ !connectCleanSession flags) ∨
        clientIdLen ≤ rest.length ∧
          skipFields (connectFieldCount flags) (rest.drop clientIdLen) = some []
  | _ => False

/-- The part of a CONNECT body after the protocol name. -/
def ConnectLevelFits : Bytes → Prop
  | [] => False
  | [level] => level ≠ 4
  | level :: flags :: rest =>
      level ≠ 4 ∨ !connectFlagsValid flags ∨ ConnectPayloadFits flags rest

/-- A CONNECT body is refused on a field that lies inside it, or its fields
tile it. -/
def ConnectBodyFits : Bytes → Prop
  | msb :: lsb :: rest =>
      beUint16 msb lsb ≠ 4 ∨ ¬ rest.take 4 <+: protocolName ∨ ConnectLevelFits (rest.drop 4)
  | _ => False

def PublishBodyFits : Bytes → Prop
  | msb :: lsb :: rest => (beUint16 msb lsb).toNat ≤ rest.length
  | _ => False

/-- The inner lengths of a body agree with its own. A packet that the codec
does not expect is refused unread. -/
def BodyFits (codecType : CodecType) (type : PacketType) (body : Bytes) : Prop :=
  match type with
  | .connect => codecType = .server → ConnectBodyFits body
  | .connack => codecType = .client → body.length = 2
  | .publish => PublishBodyFits body
  | .puback | .pubrec | .pubrel | .pubcomp => body.length = 2
  | .subscribe => codecType = .server → 2 ≤ body.length ∧ TopicFiltersFit (body.drop 2)
  | .suback => codecType = .client → 2 ≤ body.length
  | .unsubscribe => codecType = .server → 2 ≤ body.length ∧ FiltersFit (body.drop 2)
  | .unsuback => codecType = .client → body.length = 2
  | .pingreq => codecType = .server → body = []
  | .pingresp => codecType = .client → body = []
  | .disconnect => codecType = .server → body = []

end TinyMqtt
