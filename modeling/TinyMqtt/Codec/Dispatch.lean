import TinyMqtt.Codec.Decode

/-!
What a packet parser can do to its connection, said once for all fourteen: it
takes bytes from the buffer and then either hands one packet to the callback
of its type or refuses the packet, for a CONNECT possibly with a CONNACK.
-/

namespace TinyMqtt

/-- The effect of an accepted packet on the connection it was read from. -/
inductive Handles (auth : BrokerAuth) (conn : TcpConn) : PacketType → TcpConn → Prop where
  | connect (pkt : ConnectPkt) (hserver : conn.codecType = .server) :
      Handles auth conn .connect (mqttConnect auth
        ({ conn with connState := .startingSession }.call (.onConnect conn.upstream pkt)) pkt)
  | connack (pkt : ConnackPkt) (hclient : conn.codecType = .client) :
      Handles auth conn .connack (onConnectResponse (conn.call (.onConnAck conn.upstream pkt)))
  | publish (pkt : PublishPkt Bytes) : Handles auth conn .publish (deliverPublish conn pkt)
  | puback (packetId : UInt16) :
      Handles auth conn .puback (handlePacketId .onPubAck conn packetId)
  | pubrec (packetId : UInt16) :
      Handles auth conn .pubrec (handlePacketId .onPubRec conn packetId)
  | pubrel (packetId : UInt16) : Handles auth conn .pubrel (handlePubRel conn packetId)
  | pubcomp (packetId : UInt16) :
      Handles auth conn .pubcomp (handlePacketId .onPubComp conn packetId)
  | subscribe (pkt : SubscribePkt) (hserver : conn.codecType = .server) :
      Handles auth conn .subscribe (conn.call (.onSubscribe conn.upstream pkt))
  | suback (pkt : SubackPkt) (hclient : conn.codecType = .client) :
      Handles auth conn .suback (conn.call (.onSubAck conn.upstream pkt))
  | unsubscribe (pkt : UnsubscribePkt) (hserver : conn.codecType = .server) :
      Handles auth conn .unsubscribe (conn.call (.onUnsubscribe conn.upstream pkt))
  | unsuback (packetId : UInt16) (hclient : conn.codecType = .client) :
      Handles auth conn .unsuback (handlePacketId .onUnsubAck conn packetId)
  | pingreq (hserver : conn.codecType = .server) :
      Handles auth conn .pingreq (handlePingReq conn)
  | pingresp (hclient : conn.codecType = .client) :
      Handles auth conn .pingresp (conn.call (.onPingResp conn.upstream))
  | disconnect (hserver : conn.codecType = .server) :
      Handles auth conn .disconnect (handleDisconnect conn)

/-- A status on which the decoder closes the connection. -/
def DecodeStatus.refuses (status : DecodeStatus) : Prop :=
  status ≠ .decodeOk ∧ status ≠ .needMoreData

instance (status : DecodeStatus) : Decidable status.refuses :=
  inferInstanceAs (Decidable (_ ∧ _))

/-- What the parser of a type makes of a connection: status and connection
afterwards, for some rest of the buffer. -/
inductive Outcome (auth : BrokerAuth) (conn : TcpConn) (type : PacketType) :
    DecodeStatus → TcpConn → Prop where
  | handled (buffer : Bytes) (next : TcpConn)
      (hhandles : Handles auth (conn.withInput buffer) type next) :
      Outcome auth conn type .decodeOk next
  | refused (buffer : Bytes) (status : DecodeStatus) (hrefuses : status.refuses) :
      Outcome auth conn type status (conn.withInput buffer)
  | answered (buffer : Bytes) (code : ConnackReturnCode) (htype : type = .connect)
      (hserver : conn.codecType = .server) :
      Outcome auth conn type .protocolError ((conn.withInput buffer).send (.connack ⟨0, code⟩))

variable {auth : BrokerAuth} {conn next : TcpConn} {len : Nat} {status : DecodeStatus}

theorem parsePacketId_some {handle : TcpConn → UInt16 → TcpConn}
    (hparse : parsePacketId handle conn = some (status, next)) :
    status = .decodeOk ∧ ∃ buffer packetId, next = handle (conn.withInput buffer) packetId := by
  simp only [parsePacketId, Option.bind_eq_bind, Option.bind_eq_some_iff, Option.pure_def,
    Option.some.injEq, Prod.mk.injEq] at hparse
  obtain ⟨packetId, -, rfl, rfl⟩ := hparse
  exact ⟨rfl, _, packetId, rfl⟩

theorem parseConnectPayload_outcome {flags : UInt8} {buffer : Bytes}
    (hserver : conn.codecType = .server)
    (hparse : parseConnectPayload auth conn flags buffer = some (status, next)) :
    Outcome auth conn .connect status next := by
  simp only [parseConnectPayload, Option.bind_eq_bind, Option.pure_def] at hparse
  split at hparse
  · simp only [Option.some.injEq, Prod.mk.injEq] at hparse
    obtain ⟨rfl, rfl⟩ := hparse
    exact .refused _ _ (by decide)
  · simp only [Option.bind_eq_some_iff] at hparse
    obtain ⟨clientIdLen, -, hparse⟩ := hparse
    split at hparse
    · simp only [Option.some.injEq, Prod.mk.injEq] at hparse
      obtain ⟨rfl, rfl⟩ := hparse
      exact .answered _ _ rfl hserver
    · simp only [Option.bind_eq_some_iff, Option.some.injEq, Prod.mk.injEq] at hparse
      obtain ⟨⟨pkt, left⟩, -, rfl, rfl⟩ := hparse
      exact .handled left _ (.connect pkt hserver)

theorem parseConnectLevel_outcome {buffer : Bytes} (hserver : conn.codecType = .server)
    (hparse : parseConnectLevel auth conn buffer = some (status, next)) :
    Outcome auth conn .connect status next := by
  simp only [parseConnectLevel, Option.bind_eq_bind, Option.bind_eq_some_iff,
    Option.pure_def] at hparse
  obtain ⟨level, -, hparse⟩ := hparse
  split at hparse
  · simp only [Option.some.injEq, Prod.mk.injEq] at hparse
    obtain ⟨rfl, rfl⟩ := hparse
    exact .answered _ _ rfl hserver
  · simp only [Option.bind_eq_some_iff] at hparse
    obtain ⟨flags, -, hparse⟩ := hparse
    exact parseConnectPayload_outcome hserver hparse

theorem parseConnectPacket_outcome
    (hparse : parseConnectPacket auth conn len = some (status, next)) :
    Outcome auth conn .connect status next := by
  simp only [parseConnectPacket, Option.bind_eq_bind, Option.pure_def] at hparse
  split at hparse
  · simp only [Option.some.injEq, Prod.mk.injEq] at hparse
    obtain ⟨rfl, rfl⟩ := hparse
    exact .refused conn.inBuffer _ (by decide)
  · next hserver =>
    simp only [Option.bind_eq_some_iff] at hparse
    obtain ⟨nameLen, -, hparse⟩ := hparse
    split at hparse
    · simp only [Option.some.injEq, Prod.mk.injEq] at hparse
      obtain ⟨rfl, rfl⟩ := hparse
      exact .refused _ _ (by decide)
    · split at hparse
      · simp only [Option.some.injEq, Prod.mk.injEq] at hparse
        obtain ⟨rfl, rfl⟩ := hparse
        exact .refused _ _ (by decide)
      · exact parseConnectLevel_outcome (not_not.mp hserver) hparse

theorem parseConnAckPacket_outcome
    (hparse : parseConnAckPacket auth conn len = some (status, next)) :
    Outcome auth conn .connack status next := by
  simp only [parseConnAckPacket, Option.bind_eq_bind, Option.pure_def] at hparse
  split at hparse
  · simp only [Option.some.injEq, Prod.mk.injEq] at hparse
    obtain ⟨rfl, rfl⟩ := hparse
    exact .refused conn.inBuffer _ (by decide)
  · next hclient =>
    simp only [Option.bind_eq_some_iff, Option.some.injEq, Prod.mk.injEq] at hparse
    obtain ⟨returnCode, -, ackFlags, -, rfl, rfl⟩ := hparse
    exact .handled _ _ (.connack _ (not_not.mp hclient))

theorem parsePublishRest_outcome {flags : UInt8} {topic buffer : Bytes} {payloadLen : Int}
    (hparse : parsePublishRest conn flags topic payloadLen buffer = some (status, next)) :
    Outcome auth conn .publish status next := by
  simp only [parsePublishRest, Option.bind_eq_bind, Option.pure_def] at hparse
  generalize (if publishQos flags ≠ 0 then payloadLen - 2 else payloadLen) = payloadLen at hparse
  generalize (if publishQos flags ≠ 0 then tmqBufferRead16 buffer else (some 0, buffer)) = read
    at hparse
  by_cases hneg : payloadLen < 0
  · simp only [hneg, ↓reduceIte, Option.some.injEq, Prod.mk.injEq] at hparse
    obtain ⟨rfl, rfl⟩ := hparse
    exact .refused _ _ (by decide)
  · simp only [hneg, ↓reduceIte, Option.bind_eq_some_iff, Option.some.injEq,
      Prod.mk.injEq] at hparse
    obtain ⟨packetId, -, rfl, rfl⟩ := hparse
    exact .handled _ _ (.publish _)

theorem parsePublishPacket_outcome
    (hparse : parsePublishPacket auth conn len = some (status, next)) :
    Outcome auth conn .publish status next := by
  simp only [parsePublishPacket, Option.bind_eq_bind, Option.bind_eq_some_iff] at hparse
  obtain ⟨topicNameLen, -, hparse⟩ := hparse
  exact parsePublishRest_outcome hparse

theorem parseTopicFilters_status {fuel len : Nat} {buffer : Bytes}
    {result : DecodeStatus × List TopicFilterQos × Bytes}
    (hparse : parseTopicFilters fuel len buffer = some result) :
    result.1 = .decodeOk ∨ result.1 = .protocolError := by
  induction fuel generalizing len buffer result with
  | zero => simp [parseTopicFilters] at hparse
  | succ fuel ih =>
      simp only [parseTopicFilters, Option.bind_eq_bind, Option.pure_def] at hparse
      split at hparse
      · simp only [Option.some.injEq] at hparse
        subst hparse
        exact Or.inl rfl
      · simp only [Option.bind_eq_some_iff] at hparse
        obtain ⟨filterLen, -, hparse⟩ := hparse
        split at hparse
        · simp only [Option.some.injEq] at hparse
          subst hparse
          exact Or.inr rfl
        · simp only [Option.bind_eq_some_iff, Option.some.injEq] at hparse
          obtain ⟨rest, hrest, rfl⟩ := hparse
          have hstatus := ih hrest
          exact hstatus

theorem parseSubscribePacket_outcome
    (hparse : parseSubscribePacket auth conn len = some (status, next)) :
    Outcome auth conn .subscribe status next := by
  simp only [parseSubscribePacket, Option.bind_eq_bind, Option.pure_def] at hparse
  split at hparse
  · simp only [Option.some.injEq, Prod.mk.injEq] at hparse
    obtain ⟨rfl, rfl⟩ := hparse
    exact .refused conn.inBuffer _ (by decide)
  · next hserver =>
    simp only [Option.bind_eq_some_iff] at hparse
    obtain ⟨⟨status', topics, left⟩, htopics, hparse⟩ := hparse
    split at hparse
    · next hstatus =>
      simp only [Option.some.injEq, Prod.mk.injEq] at hparse
      obtain ⟨rfl, rfl⟩ := hparse
      obtain rfl := (parseTopicFilters_status htopics).resolve_left hstatus
      exact .refused _ _ (by decide)
    · simp only [Option.bind_eq_some_iff, Option.some.injEq, Prod.mk.injEq] at hparse
      obtain ⟨packetId, -, rfl, rfl⟩ := hparse
      exact .handled _ _ (.subscribe _ (not_not.mp hserver))

theorem parseSubackPacket_outcome
    (hparse : parseSubackPacket auth conn len = some (status, next)) :
    Outcome auth conn .suback status next := by
  simp only [parseSubackPacket, Option.bind_eq_bind, Option.pure_def] at hparse
  split at hparse
  · simp only [Option.some.injEq, Prod.mk.injEq] at hparse
    obtain ⟨rfl, rfl⟩ := hparse
    exact .refused conn.inBuffer _ (by decide)
  · next hclient =>
    simp only [Option.bind_eq_some_iff, Option.some.injEq, Prod.mk.injEq] at hparse
    obtain ⟨codes, -, packetId, -, rfl, rfl⟩ := hparse
    exact .handled _ _ (.suback _ (not_not.mp hclient))

theorem parseUnsubscribePacket_outcome
    (hparse : parseUnsubscribePacket auth conn len = some (status, next)) :
    Outcome auth conn .unsubscribe status next := by
  simp only [parseUnsubscribePacket, Option.bind_eq_bind, Option.pure_def] at hparse
  split at hparse
  · simp only [Option.some.injEq, Prod.mk.injEq] at hparse
    obtain ⟨rfl, rfl⟩ := hparse
    exact .refused conn.inBuffer _ (by decide)
  · next hserver =>
    simp only [Option.bind_eq_some_iff, Option.some.injEq, Prod.mk.injEq] at hparse
    obtain ⟨topics, -, packetId, -, rfl, rfl⟩ := hparse
    exact .handled _ _ (.unsubscribe _ (not_not.mp hserver))

/-- The parsers that need no more than the right side of the connection. -/
theorem guarded_outcome {type : PacketType} {side : CodecType} {handled : TcpConn}
    (hhandles : conn.codecType = side → Handles auth conn type handled)
    (hparse : (if conn.codecType ≠ side then some (DecodeStatus.unexpectedPacket, conn)
      else some (.decodeOk, handled)) = some (status, next)) :
    Outcome auth conn type status next := by
  split at hparse
  · simp only [Option.some.injEq, Prod.mk.injEq] at hparse
    obtain ⟨rfl, rfl⟩ := hparse
    exact .refused conn.inBuffer _ (by decide)
  · next hside =>
    simp only [Option.some.injEq, Prod.mk.injEq] at hparse
    obtain ⟨rfl, rfl⟩ := hparse
    exact .handled conn.inBuffer _ (hhandles (not_not.mp hside))

/-- Every parser ends in one of the outcomes of its type. -/
theorem packetParsers_outcome {type : PacketType}
    (hparse : packetParsers type auth conn len = some (status, next)) :
    Outcome auth conn type status next := by
  cases type with
  | connect =>
      simp only [packetParsers] at hparse
      exact parseConnectPacket_outcome hparse
  | connack =>
      simp only [packetParsers] at hparse
      exact parseConnAckPacket_outcome hparse
  | publish =>
      simp only [packetParsers] at hparse
      exact parsePublishPacket_outcome hparse
  | puback =>
      obtain ⟨rfl, buffer, packetId, rfl⟩ := parsePacketId_some hparse
      exact .handled buffer _ (.puback packetId)
  | pubrec =>
      obtain ⟨rfl, buffer, packetId, rfl⟩ := parsePacketId_some hparse
      exact .handled buffer _ (.pubrec packetId)
  | pubrel =>
      obtain ⟨rfl, buffer, packetId, rfl⟩ := parsePacketId_some hparse
      exact .handled buffer _ (.pubrel packetId)
  | pubcomp =>
      obtain ⟨rfl, buffer, packetId, rfl⟩ := parsePacketId_some hparse
      exact .handled buffer _ (.pubcomp packetId)
  | subscribe =>
      simp only [packetParsers] at hparse
      exact parseSubscribePacket_outcome hparse
  | suback =>
      simp only [packetParsers] at hparse
      exact parseSubackPacket_outcome hparse
  | unsubscribe =>
      simp only [packetParsers] at hparse
      exact parseUnsubscribePacket_outcome hparse
  | unsuback =>
      simp only [packetParsers, parseUnsubAckPacket] at hparse
      split at hparse
      · simp only [Option.some.injEq, Prod.mk.injEq] at hparse
        obtain ⟨rfl, rfl⟩ := hparse
        exact .refused conn.inBuffer _ (by decide)
      · next hclient =>
        obtain ⟨rfl, buffer, packetId, rfl⟩ := parsePacketId_some hparse
        exact .handled buffer _ (.unsuback packetId (not_not.mp hclient))
  | pingreq => exact guarded_outcome .pingreq hparse
  | pingresp => exact guarded_outcome .pingresp hparse
  | disconnect => exact guarded_outcome .disconnect hparse

end TinyMqtt
