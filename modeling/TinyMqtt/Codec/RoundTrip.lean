import TinyMqtt.Codec.Encode
import TinyMqtt.Codec.Segmentation

/-!
Encoding and decoding. What the senders write for a packet, the decoder of the
peer reads back as the same packet with no byte over, and a concatenation of
encodings decodes to the packets in order. `onWire` removes what the format
does not carry: the upper half of a PUBLISH's flags, its packet identifier at
QoS 0, an empty client identifier and CONNECT fields whose flag is not set.
-/

namespace TinyMqtt

/-! ### Numbers and strings -/

theorem toNat_ofNat_byte {n : Nat} (hn : n < 256) : (UInt8.ofNat n).toNat = n := by
  simp only [UInt8.toNat_ofNat', Nat.reducePow]
  omega

theorem beUint16_divMod (value : UInt16) :
    beUint16 (UInt8.ofNat (value.toNat / 256)) (UInt8.ofNat (value.toNat % 256)) = value := by
  have hlt := value.toNat_lt
  apply UInt16.toNat_inj.mp
  rw [beUint16, toNat_ofNat_byte (by omega), toNat_ofNat_byte (by omega), UInt16.toNat_ofNat']
  omega

/-- A number that `pack_uint16` wrote is read back, and the bytes behind it are
left. -/
@[simp] theorem tmqBufferRead16_packUint16 (value : UInt16) (rest : Bytes) :
    tmqBufferRead16 (packUint16 value ++ rest) = (some value, rest) := by
  simp [packUint16, beUint16_divMod]

@[simp] theorem tmqBufferRead16Into_packUint16 (old value : UInt16) (rest : Bytes) :
    tmqBufferRead16Into old (packUint16 value ++ rest) = (value, rest) := by
  simp [packUint16, tmqBufferRead16Into, beUint16_divMod]

theorem toNat_ofNat_length {n : Nat} (hn : n ≤ 65535) : (UInt16.ofNat n).toNat = n := by
  rw [UInt16.toNat_ofNat']
  omega

theorem length_packUint16 (value : UInt16) : (packUint16 value).length = 2 := rfl

theorem length_packLength (n : Nat) : (packLength n).length = 2 := rfl

theorem tmqBufferReadStr_self (s rest : Bytes) : tmqBufferReadStr (s ++ rest) s.length = (s, rest) := by
  simp [tmqBufferReadStr_append s rest s.length le_rfl]

/-- A string with its length in front is read back. Its length has to fit into
16 bits. -/
theorem readLengthPrefixed_pack {s : Bytes} (hlen : s.length ≤ 65535) (rest : Bytes) :
    readLengthPrefixed (packLength s.length ++ (s ++ rest)) = some (s, rest) := by
  simp [readLengthPrefixed, packLength, toNat_ofNat_length hlen, -tmqBufferReadStr_snd,
    tmqBufferReadStr_self]

/-! ### The fixed header -/

/-- A remaining length below a power of 128 takes no more bytes than the
exponent says. -/
theorem length_remainLengthBytes (fuel k : Nat) {n : Nat} (hn : n < 128 ^ (k + 1)) :
    (remainLengthBytes fuel n).length ≤ k + 1 := by
  induction fuel generalizing k n with
  | zero => simp [remainLengthBytes]
  | succ fuel ih =>
      simp only [remainLengthBytes]
      split
      · next hnext =>
        cases k with
        | zero =>
            simp only [zero_add, pow_one] at hn
            omega
        | succ k =>
            have hdiv : n / 128 < 128 ^ (k + 1) := by
              rw [Nat.div_lt_iff_lt_mul (by decide), ← Nat.pow_succ]
              exact hn
            simpa using ih k hdiv
      · simp

/-- Reading back the remaining length from the `i`-th byte on. -/
theorem parseRemainLength_bytes (state : ParsingState) (typeFlags : UInt8) (rest : Bytes)
    {fuel i n acc : Nat} (hi : i ≤ 3) (hn : n < 128 ^ (4 - i)) (hfuel : 4 - i ≤ fuel)
    (hacc : acc < 128 ^ i) :
    ∃ multiplier, parseRemainLength ⟨state, typeFlags, acc, 128 ^ i⟩
        (remainLengthBytes fuel n ++ rest) =
      (.decodeOk, ⟨state, typeFlags, acc + n * 128 ^ i, multiplier⟩, rest) := by
  induction fuel generalizing i n acc with
  | zero => omega
  | succ fuel ih =>
      have hmult : ¬ 128 ^ i > 128 * 128 * 128 := by
        interval_cases i <;> decide
      have hnext : 128 ^ i * 128 % 2 ^ 32 = 128 ^ (i + 1) := by
        interval_cases i <;> decide
      have hsum : (acc + n % 128 * 128 ^ i) % 2 ^ 32 = acc + n % 128 * 128 ^ i := by
        apply Nat.mod_eq_of_lt
        interval_cases i <;> omega
      have hbyte : (n % 128 + 128) % 128 = n % 128 := by omega
      simp only [remainLengthBytes]
      by_cases hmore : n / 128 > 0
      · have hi' : i + 1 ≤ 3 := by
          by_contra hge
          obtain rfl : i = 3 := by omega
          simp at hn
          omega
        have hdiv : n / 128 < 128 ^ (4 - (i + 1)) := by
          interval_cases i <;> omega
        have hacc' : acc + n % 128 * 128 ^ i < 128 ^ (i + 1) := by
          interval_cases i <;> omega
        obtain ⟨multiplier, hrest⟩ := ih hi' hdiv (by omega) hacc'
        refine ⟨multiplier, ?_⟩
        have htotal : acc + n % 128 * 128 ^ i + n / 128 * 128 ^ (i + 1) = acc + n * 128 ^ i := by
          interval_cases i <;> omega
        simp only [hmore, ↓reduceIte, List.cons_append, parseRemainLength, hmult,
          toNat_ofNat_byte (show n % 128 + 128 < 256 by omega), hbyte, hsum, hnext,
          ge_iff_le, Nat.le_add_left, hrest, htotal]
      · have hsmall : n % 128 = n := by omega
        have hlow : ¬ 128 ≤ n := by omega
        refine ⟨128 ^ (i + 1), ?_⟩
        rw [hsmall] at hsum
        simp only [hmore, ↓reduceIte, List.cons_append, List.nil_append, parseRemainLength, hmult,
          hsmall, toNat_ofNat_byte (show n < 256 by omega), hsum, hnext, ge_iff_le, hlow]

/-- A remaining length of at most four bytes is read back; the multiplier that
is left over is not looked at again. -/
theorem parseRemainLength_remainLengthBytes (typeFlags : UInt8) (rest : Bytes) {n : Nat}
    (hn : n ≤ 268435455) :
    ∃ multiplier, parseRemainLength ⟨.parsingRemainLength, typeFlags, 0, 1⟩
        (remainLengthBytes 5 n ++ rest) =
      (.decodeOk, ⟨.parsingRemainLength, typeFlags, n, multiplier⟩, rest) := by
  have hread := parseRemainLength_bytes .parsingRemainLength typeFlags rest
    (show 0 ≤ 3 by decide) (show n < 128 ^ (4 - 0) by omega) (show 4 - 0 ≤ 5 by decide)
    (show 0 < 128 ^ 0 by decide)
  simpa using hread

theorem remainLengthBytes_ne_nil (n : Nat) : remainLengthBytes 5 n ≠ [] := by
  simp only [remainLengthBytes]
  split <;> simp

/-- For a length that the format can express `make_fixed_header` succeeds, and
the header is a byte and the digits of the length. -/
theorem makeFixedHeader_eq (type : PacketType) (flags : Nat) {n : Nat} (hn : n ≤ 268435455) :
    makeFixedHeader type flags n =
      .ok (UInt8.ofNat (type.code * 16 + flags % 16) :: remainLengthBytes 5 n) := by
  have hlen := length_remainLengthBytes 5 3 (show n < 128 ^ 4 by omega)
  have hshort : ¬ (remainLengthBytes 5 n).length > 4 := by omega
  simp [makeFixedHeader, hshort]

/-- The header byte that a sender makes has the type it was made of, whatever
the flags. -/
theorem packetTypeOf_header (type : PacketType) (flags : Nat) :
    packetTypeOf (UInt8.ofNat (type.code * 16 + flags % 16)) = some type := by
  have hcode := type.code_lt
  have hdiv : (type.code * 16 + flags % 16) / 16 = type.code := by omega
  rw [packetTypeOf, toNat_ofNat_byte (by omega), hdiv, PacketType.ofCode?_code]

theorem flagsOf_header (type : PacketType) (flags : Nat) :
    flagsOf (UInt8.ofNat (type.code * 16 + flags % 16)) = UInt8.ofNat (flags % 16) := by
  have hcode := type.code_lt
  have hmod : (type.code * 16 + flags % 16) % 16 = flags % 16 := by omega
  rw [flagsOf, toNat_ofNat_byte (by omega), hmod]

/-! ### Packets the senders can write -/

/-- A string that fits its length field and that `strcpy` copies whole. -/
def StringOk (s : Bytes) : Prop := s.length ≤ 65535 ∧ 0 ∉ s

def FieldOk (flag : Bool) (field : Option Bytes) : Prop :=
  flag → ∃ s, field = some s ∧ StringOk s

structure ConnectSendable (pkt : ConnectPkt) : Prop where
  flags : connectFlagsValid pkt.flags
  clean : tmqStrLen pkt.clientId = 0 → connectCleanSession pkt.flags
  clientId : ∀ s, pkt.clientId = some s → StringOk s
  willTopic : FieldOk (connectWillFlag pkt.flags) pkt.willTopic
  willMessage : FieldOk (connectWillFlag pkt.flags) pkt.willMessage
  username : FieldOk (connectUsernameFlag pkt.flags) pkt.username
  password : FieldOk (connectPasswordFlag pkt.flags) pkt.password

/-- The conditions under which a packet has an encoding. -/
def Sendable : Packet Bytes → Prop
  | .connect pkt => ConnectSendable pkt
  | .publish pkt => pkt.topic.length ≤ 65535 ∧ publishRemainLength pkt ≤ 268435455
  | .subscribe pkt =>
      (∀ t ∈ pkt.topics, StringOk t.topicFilter ∧ t.qos ≤ 2) ∧
        subscribeRemainLength pkt ≤ 268435455
  | .suback pkt => 2 + pkt.returnCodes.length ≤ 268435455
  | .unsubscribe pkt =>
      (∀ t ∈ pkt.topics, StringOk t) ∧ unsubscribeRemainLength pkt ≤ 268435455
  | _ => True

/-- The packet without what the format does not carry. -/
def onWire : Packet Bytes → Packet Bytes
  | .connect pkt => .connect { pkt with
      clientId := if tmqStrLen pkt.clientId = 0 then none else pkt.clientId
      willTopic := if connectWillFlag pkt.flags then pkt.willTopic else none
      willMessage := if connectWillFlag pkt.flags then pkt.willMessage else none
      username := if connectUsernameFlag pkt.flags then pkt.username else none
      password := if connectPasswordFlag pkt.flags then pkt.password else none }
  | .publish pkt => .publish { pkt with
      flags := UInt8.ofNat (pkt.flags.toNat % 16)
      packetId := if publishQos pkt.flags = 0 then 0 else pkt.packetId }
  | pkt => pkt

def headerFlags : Packet Bytes → Nat
  | .publish pkt => pkt.flags.toNat
  | .pubrel _ | .subscribe _ | .unsubscribe _ => 2
  | _ => 0

def headerByte (pkt : Packet Bytes) : UInt8 :=
  UInt8.ofNat (pkt.packetType.code * 16 + headerFlags pkt % 16)

def expectedBy (codecType : CodecType) : PacketType → Bool
  | .connect | .subscribe | .unsubscribe | .pingreq | .disconnect => codecType = .server
  | .connack | .suback | .unsuback | .pingresp => codecType = .client
  | _ => true

def deliver (auth : BrokerAuth) (conn : TcpConn) : Packet Bytes → TcpConn
  | .connect pkt => mqttConnect auth
      ({ conn with connState := .startingSession }.call (.onConnect conn.upstream pkt)) pkt
  | .connack pkt => onConnectResponse (conn.call (.onConnAck conn.upstream pkt))
  | .publish pkt => deliverPublish conn pkt
  | .puback packetId => handlePacketId .onPubAck conn packetId
  | .pubrec packetId => handlePacketId .onPubRec conn packetId
  | .pubrel packetId => handlePubRel conn packetId
  | .pubcomp packetId => handlePacketId .onPubComp conn packetId
  | .subscribe pkt => conn.call (.onSubscribe conn.upstream pkt)
  | .suback pkt => conn.call (.onSubAck conn.upstream pkt)
  | .unsubscribe pkt => conn.call (.onUnsubscribe conn.upstream pkt)
  | .unsuback packetId => handlePacketId .onUnsubAck conn packetId
  | .pingreq => handlePingReq conn
  | .pingresp => conn.call (.onPingResp conn.upstream)
  | .disconnect => handleDisconnect conn

/-- `body` is what follows the fixed header of `pkt`, and its parser reads the
packet back from it. -/
structure Encodes (pkt : Packet Bytes) (body : Bytes) : Prop where
  sent : packetSenders pkt = .ok (headerByte pkt :: (remainLengthBytes 5 body.length ++ body))
  bounded : body.length ≤ 268435455
  parsed : ∀ auth conn rest, expectedBy conn.codecType pkt.packetType →
    conn.parsing.typeFlags = headerByte pkt →
    packetParsers pkt.packetType auth (conn.withInput (body ++ rest)) body.length =
      some (.decodeOk, (deliver auth conn (onWire pkt)).withInput rest)

/-! ### Packets of fixed size -/

/-- The five senders of a packet identifier write a header and two bytes. -/
theorem sendPacketId_eq (type : PacketType) (flags : Nat) (packetId : UInt16) :
    sendPacketId type flags packetId = .ok (UInt8.ofNat (type.code * 16 + flags % 16) ::
      (remainLengthBytes 5 (packUint16 packetId).length ++ packUint16 packetId)) := by
  rw [sendPacketId, makeFixedHeader_eq type flags (by decide), length_packUint16]
  rfl

/-- Their parsers read these two bytes back and hand the identifier to a
callback that does not look at the buffer. -/
theorem parsePacketId_packUint16 {handle : TcpConn → UInt16 → TcpConn}
    (hhandle : ∀ conn buffer packetId,
      handle (conn.withInput buffer) packetId = (handle conn packetId).withInput buffer)
    (conn : TcpConn) (packetId : UInt16) (rest : Bytes) :
    parsePacketId handle (conn.withInput (packUint16 packetId ++ rest)) =
      some (.decodeOk, (handle conn packetId).withInput rest) := by
  simp [parsePacketId, hhandle]

theorem encodes_puback (packetId : UInt16) : Encodes (.puback packetId) (packUint16 packetId) :=
  ⟨sendPacketId_eq .puback 0 packetId, by simp [length_packUint16], fun _ conn rest _ _ =>
    parsePacketId_packUint16 (handlePacketId_withInput .onPubAck) conn packetId rest⟩

theorem encodes_pubrec (packetId : UInt16) : Encodes (.pubrec packetId) (packUint16 packetId) :=
  ⟨sendPacketId_eq .pubrec 0 packetId, by simp [length_packUint16], fun _ conn rest _ _ =>
    parsePacketId_packUint16 (handlePacketId_withInput .onPubRec) conn packetId rest⟩

theorem encodes_pubrel (packetId : UInt16) : Encodes (.pubrel packetId) (packUint16 packetId) :=
  ⟨sendPacketId_eq .pubrel 2 packetId, by simp [length_packUint16], fun _ conn rest _ _ =>
    parsePacketId_packUint16 handlePubRel_withInput conn packetId rest⟩

theorem encodes_pubcomp (packetId : UInt16) : Encodes (.pubcomp packetId) (packUint16 packetId) :=
  ⟨sendPacketId_eq .pubcomp 0 packetId, by simp [length_packUint16], fun _ conn rest _ _ =>
    parsePacketId_packUint16 (handlePacketId_withInput .onPubComp) conn packetId rest⟩

/-- An UNSUBACK comes back. It is the only one of the five that just one side of
a connection reads. -/
theorem encodes_unsuback (packetId : UInt16) :
    Encodes (.unsuback packetId) (packUint16 packetId) := by
  refine ⟨sendPacketId_eq .unsuback 0 packetId, by simp [length_packUint16], fun _ conn rest hside _ => ?_⟩
  have hclient : conn.codecType = .client := by
    simpa [expectedBy, Packet.packetType] using hside
  simp only [Packet.packetType, packetParsers, parseUnsubAckPacket, TcpConn.withInput_codecType,
    hclient, ne_eq, not_true_eq_false, ↓reduceIte]
  exact parsePacketId_packUint16 (handlePacketId_withInput .onUnsubAck) conn packetId rest

/-- A CONNACK comes back. Its two bytes are the flags and the return code. -/
theorem encodes_connack (pkt : ConnackPkt) :
    Encodes (.connack pkt) [pkt.ackFlags, pkt.returnCode] := by
  refine ⟨?_, by simp, fun _ conn rest hside _ => ?_⟩
  · rw [packetSenders, sendConnAckPacket, makeFixedHeader_eq .connack 0 (by decide)]
    rfl
  · have hclient : conn.codecType = .client := by
      simpa [expectedBy, Packet.packetType] using hside
    simp [Packet.packetType, packetParsers, parseConnAckPacket, hclient, TcpConn.call_withInput]
    rfl

theorem encodes_pingreq : Encodes .pingreq [] := by
  refine ⟨by decide, by decide, fun _ conn rest hside _ => ?_⟩
  have hserver : conn.codecType = .server := by
    simpa [expectedBy, Packet.packetType] using hside
  simp [Packet.packetType, packetParsers, parsePingReqPacket, hserver, handlePingReq_withInput,
    deliver, onWire]

theorem encodes_pingresp : Encodes .pingresp [] := by
  refine ⟨by decide, by decide, fun _ conn rest hside _ => ?_⟩
  have hclient : conn.codecType = .client := by
    simpa [expectedBy, Packet.packetType] using hside
  simp [Packet.packetType, packetParsers, parsePingRespPacket, hclient, TcpConn.call_withInput,
    deliver, onWire]

theorem encodes_disconnect : Encodes .disconnect [] := by
  refine ⟨by decide, by decide, fun _ conn rest hside _ => ?_⟩
  have hserver : conn.codecType = .server := by
    simpa [expectedBy, Packet.packetType] using hside
  simp [Packet.packetType, packetParsers, parseDisconnectPacket, hserver,
    handleDisconnect_withInput, deliver, onWire]

/-! ### PUBLISH -/

theorem publishQos_nibble (flags : UInt8) :
    publishQos (UInt8.ofNat (flags.toNat % 16)) = publishQos flags := by
  rw [publishQos, publishQos, toNat_ofNat_byte (by omega)]
  omega

def publishBody (pkt : PublishPkt Bytes) : Bytes :=
  packLength pkt.topic.length ++ (pkt.topic ++
    ((if publishQos pkt.flags > 0 then packUint16 pkt.packetId else []) ++ pkt.payload))

/-- The body of a PUBLISH is as long as `send_publish_packet` says in the
header. -/
theorem length_publishBody (pkt : PublishPkt Bytes) :
    (publishBody pkt).length = publishRemainLength pkt := by
  unfold publishBody publishRemainLength
  by_cases hqos : publishQos pkt.flags = 0
  · simp [hqos, length_packLength]
    omega
  · simp [hqos, Nat.pos_of_ne_zero hqos, length_packLength, length_packUint16]
    omega

/-- The part of a PUBLISH behind its topic is read back, with a packet
identifier just when the QoS is above 0. -/
theorem parsePublishRest_publishBody (conn : TcpConn) (pkt : PublishPkt Bytes) (rest : Bytes) :
    parsePublishRest conn (UInt8.ofNat (pkt.flags.toNat % 16)) pkt.topic
        (((if publishQos pkt.flags > 0 then packUint16 pkt.packetId else []) ++
          pkt.payload).length : Nat)
        (((if publishQos pkt.flags > 0 then packUint16 pkt.packetId else []) ++ pkt.payload) ++
          rest) =
      some (.decodeOk, (deliverPublish conn
        ⟨UInt8.ofNat (pkt.flags.toNat % 16), pkt.topic,
          if publishQos pkt.flags = 0 then 0 else pkt.packetId, pkt.payload⟩).withInput rest) := by
  by_cases hqos : publishQos pkt.flags = 0
  · simp [parsePublishRest, publishQos_nibble, hqos, -tmqBufferReadStr_snd,
      tmqBufferReadStr_self, deliverPublish_withInput]
  · have hlen : ((packUint16 pkt.packetId ++ pkt.payload).length : Int) - 2 =
        pkt.payload.length := by
      simp only [List.length_append, length_packUint16]
      omega
    have hnonneg : ¬ ((pkt.payload.length : Int) < 0) := by omega
    simp only [parsePublishRest, publishQos_nibble, hqos, Nat.pos_of_ne_zero hqos, hlen, hnonneg,
      ne_eq, not_false_eq_true, ↓reduceIte, List.append_assoc, tmqBufferRead16_packUint16,
      Option.bind_eq_bind, Option.bind_some, Int.toNat_natCast, tmqBufferReadStr_self,
      deliverPublish_withInput, Option.pure_def]

/-- A PUBLISH comes back as far as the format carries it: with four flags, and
with a packet identifier only above QoS 0. -/
theorem encodes_publish {pkt : PublishPkt Bytes} (hsendable : Sendable (.publish pkt)) :
    Encodes (.publish pkt) (publishBody pkt) := by
  obtain ⟨htopic, hremain⟩ := hsendable
  have hmod : publishRemainLength pkt % 2 ^ 32 = publishRemainLength pkt :=
    Nat.mod_eq_of_lt (by omega)
  refine ⟨?_, by rw [length_publishBody]; exact hremain, fun auth conn rest _ hheader => ?_⟩
  · rw [packetSenders, packPublishPacket, hmod, makeFixedHeader_eq .publish _ hremain,
      length_publishBody]
    simp [publishBody, headerByte, headerFlags, Packet.packetType]
  · have hflags : flagsOf conn.parsing.typeFlags = UInt8.ofNat (pkt.flags.toNat % 16) := by
      rw [hheader]
      exact flagsOf_header .publish pkt.flags.toNat
    have hlen := length_publishBody pkt
    have hpayload : sub32 (sub32 (publishBody pkt).length 2) pkt.topic.length =
        ((if publishQos pkt.flags > 0 then packUint16 pkt.packetId else []) ++
          pkt.payload).length := by
      have htotal : (publishBody pkt).length = 2 + (pkt.topic.length +
          ((if publishQos pkt.flags > 0 then packUint16 pkt.packetId else []) ++
            pkt.payload).length) := by
        simp only [publishBody, List.length_append, length_packLength]
      have hinner : sub32 (publishBody pkt).length 2 = (publishBody pkt).length - 2 :=
        sub32_of_le (by omega) (by omega)
      rw [hinner, sub32_of_le (by omega) (by omega)]
      omega
    have hbody : publishBody pkt ++ rest = packUint16 (UInt16.ofNat pkt.topic.length) ++ (pkt.topic ++
        (((if publishQos pkt.flags > 0 then packUint16 pkt.packetId else []) ++ pkt.payload) ++
          rest)) := by
      simp [publishBody, packLength]
    simp only [Packet.packetType, packetParsers, parsePublishPacket, TcpConn.withInput_inBuffer,
      TcpConn.withInput_parsing, hflags, hbody, tmqBufferRead16_packUint16, Option.bind_eq_bind,
      Option.bind_some, toNat_ofNat_length htopic, tmqBufferReadStr_self, hpayload,
      parsePublishRest_withInput]
    exact parsePublishRest_publishBody conn pkt rest

/-! ### SUBSCRIBE, UNSUBSCRIBE and SUBACK -/

@[simp] theorem stepsBytes_uint16Steps (value : UInt16) :
    stepsBytes (uint16Steps value) = .ok (packUint16 value) :=
  stepsBytes_pushBack _

@[simp] theorem stepsBytes_stringSteps (s : Option Bytes) :
    stepsBytes (stringSteps s) = packString s := by
  rw [stringSteps, stepsBytes_append, lengthSteps, stepsBytes_uint16Steps, packString]
  cases hcopy : packStrcpy s with
  | error e => simp [stepsBytes, PackStep.bytes, hcopy, bind, Except.bind]
  | ok body =>
      simp [stepsBytes, PackStep.bytes, hcopy, packLength, bind, Except.bind, pure, Except.pure]

def topicFilterBytes (t : TopicFilterQos) : Bytes :=
  packLength t.topicFilter.length ++ (t.topicFilter ++ [t.qos])

/-- A string without a zero byte is written with its length in front; `strcpy`
copies the whole of it. -/
theorem packString_eq {s : Bytes} (hs : StringOk s) :
    packString (some s) = .ok (packLength s.length ++ s) := by
  simp [packString, packStrcpy, hs.2, tmqStrLen]

/-- The steps of `send_subscribe_packet` write the identifier and then each
filter with its QoS. -/
theorem stepsBytes_subscribeSteps {pkt : SubscribePkt}
    (htopics : ∀ t ∈ pkt.topics, StringOk t.topicFilter ∧ t.qos ≤ 2) :
    stepsBytes (subscribeSteps pkt)
      = .ok (packUint16 pkt.packetId ++ pkt.topics.flatMap topicFilterBytes) := by
  refine stepsBytes_append_ok (stepsBytes_uint16Steps _) ?_
  obtain ⟨packetId, topics⟩ := pkt
  induction topics with
  | nil => rfl
  | cons t topics ih =>
      have hrest := ih (fun t ht => htopics t (List.mem_cons_of_mem _ ht))
      have hfilter := packString_eq (htopics t List.mem_cons_self).1
      refine stepsBytes_append_ok ?_ hrest
      rw [topicFilterBytes, ← List.append_assoc]
      exact stepsBytes_append_ok ((stepsBytes_stringSteps _).trans hfilter) rfl

theorem length_topicFilters (topics : List TopicFilterQos) :
    (topics.flatMap topicFilterBytes).length =
      (topics.map (fun t => t.topicFilter.length + 3)).sum := by
  induction topics with
  | nil => rfl
  | cons t topics ih =>
      simp only [List.flatMap_cons, List.length_append, ih, topicFilterBytes, length_packLength,
        List.length_cons, List.length_nil, List.map_cons, List.sum_cons]
      omega

/-- The filters of a SUBSCRIBE are read back one by one, by induction on their
list. -/
theorem parseTopicFilters_pack {topics : List TopicFilterQos} (fuel : Nat) (rest : Bytes)
    (htopics : ∀ t ∈ topics, StringOk t.topicFilter ∧ t.qos ≤ 2)
    (hlen : (topics.flatMap topicFilterBytes).length < 2 ^ 32) (hfuel : topics.length < fuel) :
    parseTopicFilters fuel (topics.flatMap topicFilterBytes).length
        (topics.flatMap topicFilterBytes ++ rest) = some (.decodeOk, topics, rest) := by
  induction topics generalizing fuel with
  | nil =>
      obtain ⟨fuel, rfl⟩ := Nat.exists_eq_add_one_of_ne_zero (Nat.ne_zero_of_lt hfuel)
      simp [parseTopicFilters]
  | cons t topics ih =>
      obtain ⟨fuel, rfl⟩ := Nat.exists_eq_add_one_of_ne_zero (Nat.ne_zero_of_lt hfuel)
      obtain ⟨hfilter, hqos⟩ := htopics t List.mem_cons_self
      simp only [List.length_cons] at hfuel
      have htotal : ((t :: topics).flatMap topicFilterBytes).length =
          2 + t.topicFilter.length + 1 + (topics.flatMap topicFilterBytes).length := by
        simp only [List.flatMap_cons, List.length_append, topicFilterBytes, length_packLength,
          List.length_cons, List.length_nil]
        omega
      have hrest := ih fuel (fun t ht => htopics t (List.mem_cons_of_mem _ ht)) (by omega) (by omega)
      have hnext : sub32 ((t :: topics).flatMap topicFilterBytes).length
          (2 + t.topicFilter.length + 1) = (topics.flatMap topicFilterBytes).length := by
        rw [sub32_of_le (by omega) hlen]
        omega
      have hbytes : (t :: topics).flatMap topicFilterBytes ++ rest =
          packUint16 (UInt16.ofNat t.topicFilter.length) ++ (t.topicFilter ++
            (t.qos :: (topics.flatMap topicFilterBytes ++ rest))) := by
        simp [topicFilterBytes, packLength]
      have hne : ((t :: topics).flatMap topicFilterBytes).length ≠ 0 := by omega
      have hqos' : ¬ t.qos > 2 := by simpa using hqos
      rw [parseTopicFilters, if_neg hne, hbytes]
      simp only [tmqBufferRead16_packUint16, Option.bind_eq_bind, Option.bind_some,
        toNat_ofNat_length hfilter.1, tmqBufferReadStr_self, tmqBufferRead8_cons,
        Option.getD_some, hqos', ↓reduceIte, hnext, hrest, Option.pure_def]

theorem length_le_topicFilters (topics : List TopicFilterQos) :
    topics.length ≤ (topics.flatMap topicFilterBytes).length := by
  induction topics with
  | nil => rfl
  | cons t topics ih =>
      simp only [List.flatMap_cons, List.length_append, topicFilterBytes, length_packLength,
        List.length_cons]
      omega

/-- The raw copies of the packet have room behind its fixed header. -/
def SubscribePkt.HasRoom (pkt : SubscribePkt) : Prop :=
  CopiesFit ((PacketBuf.filled (1 + (remainLengthBytes 5 (subscribeRemainLength pkt)).length)).reserve
    (subscribeRemainLength pkt)) (subscribeSteps pkt)

def UnsubscribePkt.HasRoom (pkt : UnsubscribePkt) : Prop :=
  CopiesFit
    ((PacketBuf.filled (1 + (remainLengthBytes 5 (unsubscribeRemainLength pkt)).length)).reserve
      (unsubscribeRemainLength pkt)) (unsubscribeSteps pkt)

/-- With room for the raw copies a SUBSCRIBE is the header and what the steps
write. -/
theorem sendSubscribePacket_eq {pkt : SubscribePkt} {body : Bytes}
    (hremain : subscribeRemainLength pkt ≤ 268435455) (hroom : pkt.HasRoom)
    (hbody : stepsBytes (subscribeSteps pkt) = .ok body) :
    sendSubscribePacket pkt = .ok (headerByte (.subscribe pkt) ::
      (remainLengthBytes 5 (subscribeRemainLength pkt) ++ body)) := by
  have hmod : subscribeRemainLength pkt % 2 ^ 32 = subscribeRemainLength pkt :=
    Nat.mod_eq_of_lt (by omega)
  rw [SubscribePkt.HasRoom, Nat.add_comm] at hroom
  rw [sendSubscribePacket, hmod, makeFixedHeader_eq .subscribe 2 hremain]
  dsimp only [bind, Except.bind, List.length_cons]
  rw [packSteps, if_pos hroom, hbody]
  rfl

/-- Without room for them the sender writes past the block, and there is no
result. -/
theorem sendSubscribePacket_overrun {pkt : SubscribePkt}
    (hremain : subscribeRemainLength pkt ≤ 268435455) (hroom : ¬ pkt.HasRoom) :
    sendSubscribePacket pkt = .error .overrun := by
  have hmod : subscribeRemainLength pkt % 2 ^ 32 = subscribeRemainLength pkt :=
    Nat.mod_eq_of_lt (by omega)
  rw [SubscribePkt.HasRoom, Nat.add_comm] at hroom
  rw [sendSubscribePacket, hmod, makeFixedHeader_eq .subscribe 2 hremain]
  dsimp only [bind, Except.bind, List.length_cons]
  rw [packSteps, if_neg hroom]

/-- With room for the raw copies an UNSUBSCRIBE is the header and what the steps
write. -/
theorem sendUnsubscribePacket_eq {pkt : UnsubscribePkt} {body : Bytes}
    (hremain : unsubscribeRemainLength pkt ≤ 268435455) (hroom : pkt.HasRoom)
    (hbody : stepsBytes (unsubscribeSteps pkt) = .ok body) :
    sendUnsubscribePacket pkt = .ok (headerByte (.unsubscribe pkt) ::
      (remainLengthBytes 5 (unsubscribeRemainLength pkt) ++ body)) := by
  have hmod : unsubscribeRemainLength pkt % 2 ^ 32 = unsubscribeRemainLength pkt :=
    Nat.mod_eq_of_lt (by omega)
  rw [UnsubscribePkt.HasRoom, Nat.add_comm] at hroom
  rw [sendUnsubscribePacket, hmod, makeFixedHeader_eq .unsubscribe 2 hremain]
  dsimp only [bind, Except.bind, List.length_cons]
  rw [packSteps, if_pos hroom, hbody]
  rfl

/-- Without room for them `send_unsubscribe_packet` writes past the block
too. -/
theorem sendUnsubscribePacket_overrun {pkt : UnsubscribePkt}
    (hremain : unsubscribeRemainLength pkt ≤ 268435455) (hroom : ¬ pkt.HasRoom) :
    sendUnsubscribePacket pkt = .error .overrun := by
  have hmod : unsubscribeRemainLength pkt % 2 ^ 32 = unsubscribeRemainLength pkt :=
    Nat.mod_eq_of_lt (by omega)
  rw [UnsubscribePkt.HasRoom, Nat.add_comm] at hroom
  rw [sendUnsubscribePacket, hmod, makeFixedHeader_eq .unsubscribe 2 hremain]
  dsimp only [bind, Except.bind, List.length_cons]
  rw [packSteps, if_neg hroom]

/-- A SUBSCRIBE with room for its raw copies comes back. Without room nothing
definite is sent. -/
theorem encodes_subscribe {pkt : SubscribePkt} (hsendable : Sendable (.subscribe pkt))
    (hroom : pkt.HasRoom) :
    Encodes (.subscribe pkt) (packUint16 pkt.packetId ++ pkt.topics.flatMap topicFilterBytes) := by
  obtain ⟨htopics, hremain⟩ := hsendable
  have hsent := stepsBytes_subscribeSteps htopics
  have hcount := length_le_topicFilters pkt.topics
  have hsum := length_topicFilters pkt.topics
  have hparse := fun fuel rest hlen => parseTopicFilters_pack fuel rest htopics hlen
  have hremainEq : subscribeRemainLength pkt =
      2 + (pkt.topics.map (fun t => t.topicFilter.length + 3)).sum := rfl
  generalize pkt.topics.flatMap topicFilterBytes = filters at *
  have hlen : (packUint16 pkt.packetId ++ filters).length = subscribeRemainLength pkt := by
    rw [List.length_append, length_packUint16]
    omega
  have hmod : subscribeRemainLength pkt % 2 ^ 32 = subscribeRemainLength pkt :=
    Nat.mod_eq_of_lt (by omega)
  refine ⟨?_, by rw [hlen]; exact hremain, fun auth conn rest hside _ => ?_⟩
  · rw [packetSenders, sendSubscribePacket_eq hremain hroom hsent, hlen]
  · have hserver : conn.codecType = .server := by
      simpa [expectedBy, Packet.packetType] using hside
    have hinner : sub32 (subscribeRemainLength pkt) 2 = filters.length := by
      rw [sub32_of_le (by omega) (by omega)]
      omega
    have hread := hparse ((filters ++ rest).length + 1) rest (by omega)
      (by rw [List.length_append]; omega)
    rw [hlen]
    simp [Packet.packetType, packetParsers, parseSubscribePacket, hserver, hinner,
      -List.length_append, hread, TcpConn.call_withInput, deliver, onWire]

def filterBytes (s : Bytes) : Bytes := packLength s.length ++ s

/-- The steps of `send_unsubscribe_packet` write the identifier and then each
filter. -/
theorem stepsBytes_unsubscribeSteps {pkt : UnsubscribePkt}
    (htopics : ∀ t ∈ pkt.topics, StringOk t) :
    stepsBytes (unsubscribeSteps pkt)
      = .ok (packUint16 pkt.packetId ++ pkt.topics.flatMap filterBytes) := by
  refine stepsBytes_append_ok (stepsBytes_uint16Steps _) ?_
  obtain ⟨packetId, topics⟩ := pkt
  induction topics with
  | nil => rfl
  | cons t topics ih =>
      have hrest := ih (fun t ht => htopics t (List.mem_cons_of_mem _ ht))
      have hfilter := packString_eq (htopics t List.mem_cons_self)
      exact stepsBytes_append_ok ((stepsBytes_stringSteps _).trans hfilter) hrest

theorem length_filters (topics : List Bytes) :
    (topics.flatMap filterBytes).length = (topics.map (fun t => t.length + 2)).sum := by
  induction topics with
  | nil => rfl
  | cons t topics ih =>
      simp only [List.flatMap_cons, List.length_append, ih, filterBytes, length_packLength,
        List.map_cons, List.sum_cons]
      omega

theorem length_le_filters (topics : List Bytes) :
    topics.length ≤ (topics.flatMap filterBytes).length := by
  induction topics with
  | nil => rfl
  | cons t topics ih =>
      simp only [List.flatMap_cons, List.length_append, filterBytes, length_packLength,
        List.length_cons]
      omega

/-- The filters of an UNSUBSCRIBE are read back one by one, by induction on
their list. -/
theorem parseFilters_pack {topics : List Bytes} (fuel : Nat) (rest : Bytes)
    (htopics : ∀ t ∈ topics, StringOk t)
    (hlen : (topics.flatMap filterBytes).length < 2 ^ 32) (hfuel : topics.length < fuel) :
    parseFilters fuel (topics.flatMap filterBytes).length
        (topics.flatMap filterBytes ++ rest) = some (topics, rest) := by
  induction topics generalizing fuel with
  | nil =>
      obtain ⟨fuel, rfl⟩ := Nat.exists_eq_add_one_of_ne_zero (Nat.ne_zero_of_lt hfuel)
      simp [parseFilters]
  | cons t topics ih =>
      obtain ⟨fuel, rfl⟩ := Nat.exists_eq_add_one_of_ne_zero (Nat.ne_zero_of_lt hfuel)
      have hfilter := htopics t List.mem_cons_self
      simp only [List.length_cons] at hfuel
      have htotal : ((t :: topics).flatMap filterBytes).length =
          2 + t.length + (topics.flatMap filterBytes).length := by
        simp only [List.flatMap_cons, List.length_append, filterBytes, length_packLength]
      have hrest := ih fuel (fun t ht => htopics t (List.mem_cons_of_mem _ ht)) (by omega) (by omega)
      have hnext : sub32 ((t :: topics).flatMap filterBytes).length (2 + t.length) =
          (topics.flatMap filterBytes).length := by
        rw [sub32_of_le (by omega) hlen]
        omega
      have hbytes : (t :: topics).flatMap filterBytes ++ rest =
          packUint16 (UInt16.ofNat t.length) ++ (t ++ (topics.flatMap filterBytes ++ rest)) := by
        simp [filterBytes, packLength]
      have hne : ((t :: topics).flatMap filterBytes).length ≠ 0 := by omega
      rw [parseFilters, if_neg hne, hbytes]
      simp only [tmqBufferRead16_packUint16, Option.bind_eq_bind, Option.bind_some,
        toNat_ofNat_length hfilter.1, tmqBufferReadStr_self, hnext, hrest, Option.pure_def]

/-- An UNSUBSCRIBE with room for its raw copies comes back. -/
theorem encodes_unsubscribe {pkt : UnsubscribePkt} (hsendable : Sendable (.unsubscribe pkt))
    (hroom : pkt.HasRoom) :
    Encodes (.unsubscribe pkt) (packUint16 pkt.packetId ++ pkt.topics.flatMap filterBytes) := by
  obtain ⟨htopics, hremain⟩ := hsendable
  have hsent := stepsBytes_unsubscribeSteps htopics
  have hcount := length_le_filters pkt.topics
  have hsum := length_filters pkt.topics
  have hparse := fun fuel rest hlen => parseFilters_pack fuel rest htopics hlen
  have hremainEq : unsubscribeRemainLength pkt =
      2 + (pkt.topics.map (fun t => t.length + 2)).sum := rfl
  generalize pkt.topics.flatMap filterBytes = filters at *
  have hlen : (packUint16 pkt.packetId ++ filters).length = unsubscribeRemainLength pkt := by
    rw [List.length_append, length_packUint16]
    omega
  have hmod : unsubscribeRemainLength pkt % 2 ^ 32 = unsubscribeRemainLength pkt :=
    Nat.mod_eq_of_lt (by omega)
  refine ⟨?_, by rw [hlen]; exact hremain, fun auth conn rest hside _ => ?_⟩
  · rw [packetSenders, sendUnsubscribePacket_eq hremain hroom hsent, hlen]
  · have hserver : conn.codecType = .server := by
      simpa [expectedBy, Packet.packetType] using hside
    have hinner : sub32 (unsubscribeRemainLength pkt) 2 = filters.length := by
      rw [sub32_of_le (by omega) (by omega)]
      omega
    have hread := hparse ((filters ++ rest).length + 1) rest (by omega)
      (by rw [List.length_append]; omega)
    rw [hlen]
    simp [Packet.packetType, packetParsers, parseUnsubscribePacket, hserver, hinner,
      -List.length_append, hread, TcpConn.call_withInput, deliver, onWire]

/-- A SUBACK comes back: the identifier, and a return code for each byte that is
left. -/
theorem encodes_suback {pkt : SubackPkt} (hsendable : Sendable (.suback pkt)) :
    Encodes (.suback pkt) (packUint16 pkt.packetId ++ pkt.returnCodes) := by
  have hremain : 2 + pkt.returnCodes.length ≤ 268435455 := hsendable
  have hlen : (packUint16 pkt.packetId ++ pkt.returnCodes).length =
      2 + pkt.returnCodes.length := by
    rw [List.length_append, length_packUint16]
  have hmod : (2 + pkt.returnCodes.length) % 2 ^ 32 = 2 + pkt.returnCodes.length :=
    Nat.mod_eq_of_lt (by omega)
  refine ⟨?_, by rw [hlen]; exact hremain, fun auth conn rest hside _ => ?_⟩
  · rw [packetSenders, sendSubAckPacket, hmod, makeFixedHeader_eq .suback 0 hremain, hlen]
    rfl
  · have hclient : conn.codecType = .client := by
      simpa [expectedBy, Packet.packetType] using hside
    have hinner : sub32 (2 + pkt.returnCodes.length) 2 = pkt.returnCodes.length := by
      rw [sub32_of_le (by omega) (by omega)]
      omega
    rw [hlen]
    simp [Packet.packetType, packetParsers, parseSubackPacket, hclient, hinner,
      parseReturnCodes_append, TcpConn.call_withInput, deliver, onWire]

/-! ### CONNECT -/

def fieldBytes (flag : Bool) (field : Option Bytes) : Bytes :=
  if flag then packLength (tmqStrLen field) ++ field.getD [] else []

/-- A field is written just when its flag is set, and then it is a string with
its length. -/
theorem packStringIf_eq {flag : Bool} {field : Option Bytes} (hfield : FieldOk flag field) :
    packStringIf flag field = .ok (fieldBytes flag field) := by
  cases flag with
  | false => rfl
  | true =>
      obtain ⟨s, rfl, hs⟩ := hfield rfl
      exact packString_eq hs

theorem length_fieldBytes (flag : Bool) (field : Option Bytes) :
    (fieldBytes flag field).length = if flag then tmqStrLen field + 2 else 0 := by
  cases flag with
  | false => rfl
  | true =>
      cases field with
      | none => rfl
      | some s =>
          simp only [fieldBytes, ↓reduceIte, Option.getD_some, List.length_append,
            length_packLength, tmqStrLen]
          omega

theorem length_fieldBytes_le {flag : Bool} {field : Option Bytes} (hfield : FieldOk flag field) :
    (fieldBytes flag field).length ≤ 65537 := by
  rw [length_fieldBytes]
  cases flag with
  | false => simp
  | true =>
      obtain ⟨s, rfl, hs⟩ := hfield rfl
      have hlen : s.length ≤ 65535 := hs.1
      simp only [↓reduceIte, tmqStrLen]
      omega

/-- A field that a flag announces is read back, and without the flag it is
null. -/
theorem readLengthPrefixedIf_fieldBytes {flag : Bool} {field : Option Bytes}
    (hfield : FieldOk flag field) (rest : Bytes) :
    readLengthPrefixedIf flag (fieldBytes flag field ++ rest) =
      some (if flag then field else none, rest) := by
  cases flag with
  | false => rfl
  | true =>
      obtain ⟨s, rfl, hs⟩ := hfield rfl
      simp [readLengthPrefixedIf, fieldBytes, tmqStrLen, readLengthPrefixed_pack hs.1]

/-- The topic and the message of the will are read back together, since one flag
announces both. -/
theorem readWillIf_fieldBytes {flag : Bool} {willTopic willMessage : Option Bytes}
    (htopic : FieldOk flag willTopic) (hmessage : FieldOk flag willMessage) (rest : Bytes) :
    readWillIf flag (fieldBytes flag willTopic ++ (fieldBytes flag willMessage ++ rest)) =
      some ((if flag then willTopic else none, if flag then willMessage else none), rest) := by
  cases flag with
  | false => rfl
  | true =>
      obtain ⟨topic, rfl, ht⟩ := htopic rfl
      obtain ⟨message, rfl, hm⟩ := hmessage rfl
      simp [readWillIf, fieldBytes, tmqStrLen, packLength, toNat_ofNat_length ht.1,
        toNat_ofNat_length hm.1, -tmqBufferReadStr_snd, tmqBufferReadStr_self]

def clientIdBytes (clientId : Option Bytes) : Bytes :=
  packLength (tmqStrLen clientId) ++ clientId.getD []

theorem length_clientIdBytes (clientId : Option Bytes) :
    (clientIdBytes clientId).length = tmqStrLen clientId + 2 := by
  cases clientId with
  | none => rfl
  | some s =>
      simp only [clientIdBytes, Option.getD_some, List.length_append, length_packLength, tmqStrLen]
      omega

theorem packClientId_eq {clientId : Option Bytes} (hid : ∀ s, clientId = some s → StringOk s) :
    packClientId clientId = .ok (clientIdBytes clientId) := by
  cases clientId with
  | none => rfl
  | some s =>
      by_cases hempty : s.length = 0
      · obtain rfl : s = [] := List.length_eq_zero_iff.mp hempty
        rfl
      · simp only [packClientId, tmqStrLen, hempty, ↓reduceIte]
        exact packString_eq (hid s rfl)

def connectFieldBytes (pkt : ConnectPkt) : Bytes :=
  fieldBytes (connectWillFlag pkt.flags) pkt.willTopic ++
    (fieldBytes (connectWillFlag pkt.flags) pkt.willMessage ++
      (fieldBytes (connectUsernameFlag pkt.flags) pkt.username ++
        fieldBytes (connectPasswordFlag pkt.flags) pkt.password))

def connectBody (pkt : ConnectPkt) : Bytes :=
  packUint16 4 ++ (protocolName ++ (4 :: pkt.flags :: (packUint16 pkt.keepAlive ++
    (clientIdBytes pkt.clientId ++ connectFieldBytes pkt))))

/-- The body of a CONNECT is as long as `send_connect_packet` says in the
header. -/
theorem length_connectBody (pkt : ConnectPkt) :
    (connectBody pkt).length = connectRemainLength pkt := by
  simp only [connectBody, connectFieldBytes, List.length_append, List.length_cons,
    length_packUint16, length_clientIdBytes, length_fieldBytes, protocolName, connectRemainLength,
    List.length_nil]
  split <;> omega

theorem tmqStrLen_le {field : Option Bytes} (hfield : ∀ s, field = some s → StringOk s) :
    tmqStrLen field ≤ 65535 := by
  cases field with
  | none => exact Nat.zero_le _
  | some s => exact (hfield s rfl).1

/-- The fields of a CONNECT are read back in their order: client identifier,
will, username and password. -/
theorem parseConnectFields_bytes {pkt : ConnectPkt} (hpkt : ConnectSendable pkt) (rest : Bytes) :
    parseConnectFields pkt.flags (some pkt.keepAlive) (UInt16.ofNat (tmqStrLen pkt.clientId))
        (pkt.clientId.getD [] ++ (connectFieldBytes pkt ++ rest)) =
      some (⟨pkt.flags, pkt.keepAlive,
        if tmqStrLen pkt.clientId = 0 then none else pkt.clientId,
        if connectWillFlag pkt.flags then pkt.willTopic else none,
        if connectWillFlag pkt.flags then pkt.willMessage else none,
        if connectUsernameFlag pkt.flags then pkt.username else none,
        if connectPasswordFlag pkt.flags then pkt.password else none⟩, rest) := by
  have hlen := toNat_ofNat_length (tmqStrLen_le hpkt.clientId)
  have hwill := readWillIf_fieldBytes hpkt.willTopic hpkt.willMessage
  have husername := readLengthPrefixedIf_fieldBytes hpkt.username
  have hpassword := readLengthPrefixedIf_fieldBytes hpkt.password
  have hfields : connectFieldBytes pkt ++ rest =
      fieldBytes (connectWillFlag pkt.flags) pkt.willTopic ++
        (fieldBytes (connectWillFlag pkt.flags) pkt.willMessage ++
          (fieldBytes (connectUsernameFlag pkt.flags) pkt.username ++
            (fieldBytes (connectPasswordFlag pkt.flags) pkt.password ++ rest))) := by
    simp [connectFieldBytes]
  rw [hfields]
  cases hid : pkt.clientId with
  | none =>
      simp [parseConnectFields, tmqStrLen, hwill, husername, hpassword]
  | some s =>
      rw [hid] at hlen
      by_cases hempty : s = []
      · subst hempty
        simp [parseConnectFields, tmqStrLen, hwill, husername, hpassword]
      · have hpos : 0 < s.length := List.length_pos_of_ne_nil hempty
        simp only [tmqStrLen] at hlen
        simp [parseConnectFields, tmqStrLen, hlen, hpos, hempty, -tmqBufferReadStr_snd,
          tmqBufferReadStr_self, hwill, husername, hpassword]

/-- A broker reads the body of a CONNECT and hands on the packet without what
its flags do not announce. -/
theorem parseConnectPacket_connectBody (auth : BrokerAuth) {conn : TcpConn} {pkt : ConnectPkt}
    (hpkt : ConnectSendable pkt) (hserver : conn.codecType = .server) (len : Nat) (rest : Bytes) :
    parseConnectPacket auth (conn.withInput (connectBody pkt ++ rest)) len =
      some (.decodeOk, (deliver auth conn (onWire (.connect pkt))).withInput rest) := by
  have hbody : connectBody pkt ++ rest = packUint16 4 ++ (protocolName ++ (4 :: pkt.flags ::
      (packUint16 pkt.keepAlive ++ (packUint16 (UInt16.ofNat (tmqStrLen pkt.clientId)) ++
        (pkt.clientId.getD [] ++ (connectFieldBytes pkt ++ rest)))))) := by
    simp [connectBody, clientIdBytes, packLength]
  have hname : ∀ tail, tmqBufferReadStr (protocolName ++ tail) 4 = (protocolName, tail) :=
    tmqBufferReadStr_self protocolName
  have hlen := toNat_ofNat_length (tmqStrLen_le hpkt.clientId)
  have haccepted : ¬ ((UInt16.ofNat (tmqStrLen pkt.clientId)).toNat = 0 ∧
      (!connectCleanSession pkt.flags) = true) := by
    rintro ⟨hzero, hclean⟩
    have hset := hpkt.clean (hlen ▸ hzero)
    simp [hset] at hclean
  simp only [parseConnectPacket, hbody, TcpConn.withInput_codecType, hserver,
    TcpConn.withInput_inBuffer, tmqBufferRead16_packUint16, hname, Option.bind_eq_bind,
    Option.bind_some, ne_eq, not_true_eq_false, ↓reduceIte, parseConnectLevel_withInput]
  simp only [parseConnectLevel, parseConnectPayload, tmqBufferRead8_cons,
    tmqBufferRead16_packUint16, hpkt.flags, haccepted, parseConnectFields_bytes hpkt,
    Option.bind_eq_bind, Option.bind_some, ne_eq, not_true_eq_false, ↓reduceIte, Bool.not_true,
    Bool.false_eq_true, Option.pure_def, TcpConn.withInput_upstream, TcpConn.call_withInput,
    mqttConnect_withInput]
  rfl

/-- A CONNECT comes back, with null where its flags announce no field and for an
empty client identifier. -/
theorem encodes_connect {pkt : ConnectPkt} (hpkt : ConnectSendable pkt) :
    Encodes (.connect pkt) (connectBody pkt) := by
  have hremain : connectRemainLength pkt ≤ 268435455 := by
    have hid := tmqStrLen_le hpkt.clientId
    have htopic := length_fieldBytes_le hpkt.willTopic
    have hmessage := length_fieldBytes_le hpkt.willMessage
    have husername := length_fieldBytes_le hpkt.username
    have hpassword := length_fieldBytes_le hpkt.password
    rw [← length_connectBody]
    simp only [connectBody, connectFieldBytes, List.length_append, List.length_cons,
      length_packUint16, length_clientIdBytes, protocolName, List.length_nil]
    omega
  have hmod : connectRemainLength pkt % 2 ^ 32 = connectRemainLength pkt :=
    Nat.mod_eq_of_lt (by omega)
  refine ⟨?_, by rw [length_connectBody]; exact hremain, fun auth conn rest hside _ => ?_⟩
  · rw [packetSenders, sendConnectPacket, hmod, makeFixedHeader_eq .connect 0 hremain,
      packClientId_eq hpkt.clientId, packStringIf_eq hpkt.willTopic,
      packStringIf_eq hpkt.willMessage, packStringIf_eq hpkt.username,
      packStringIf_eq hpkt.password, length_connectBody]
    simp [connectBody, connectFieldBytes, headerByte, headerFlags, Packet.packetType]
    rfl
  · have hserver : conn.codecType = .server := by
      simpa [expectedBy, Packet.packetType] using hside
    exact parseConnectPacket_connectBody auth hpkt hserver (connectBody pkt).length rest

end TinyMqtt
