import TinyMqtt.Codec.Capacity

/-!
Streams of packets. A connection state admits some packet types and changes
with every packet; a list of packets that is admitted throughout is decoded
from the concatenation of its encodings, in order and to the last byte, unless
one of them is so short that its sender writes past the vector's block.
-/

namespace TinyMqtt

/-- The short packets whose copies run past the block that was reserved. -/
def Packet.Tight : Packet Bytes → Prop
  | .subscribe pkt => pkt.Tight
  | .unsubscribe pkt => pkt.Tight
  | _ => False

theorem encodes_of_sendable {pkt : Packet Bytes} (hsendable : Sendable pkt)
    (hroom : ¬ pkt.Tight) : ∃ body, Encodes pkt body := by
  cases pkt with
  | connect pkt => exact ⟨_, encodes_connect hsendable⟩
  | connack pkt => exact ⟨_, encodes_connack pkt⟩
  | publish pkt => exact ⟨_, encodes_publish hsendable⟩
  | puback packetId => exact ⟨_, encodes_puback packetId⟩
  | pubrec packetId => exact ⟨_, encodes_pubrec packetId⟩
  | pubrel packetId => exact ⟨_, encodes_pubrel packetId⟩
  | pubcomp packetId => exact ⟨_, encodes_pubcomp packetId⟩
  | subscribe pkt => exact ⟨_, encodes_subscribe hsendable ((CopyingSend.subscribe_hasRoom_iff hsendable.2).mpr hroom)⟩
  | suback pkt => exact ⟨_, encodes_suback hsendable⟩
  | unsubscribe pkt => exact ⟨_, encodes_unsubscribe hsendable ((CopyingSend.unsubscribe_hasRoom_iff hsendable.2).mpr hroom)⟩
  | unsuback packetId => exact ⟨_, encodes_unsuback packetId⟩
  | pingreq => exact ⟨_, encodes_pingreq⟩
  | pingresp => exact ⟨_, encodes_pingresp⟩
  | disconnect => exact ⟨_, encodes_disconnect⟩

def Event.packet? : Event Bytes → Option (Packet Bytes)
  | .onConnect _ pkt => some (.connect pkt)
  | .onConnAck _ pkt => some (.connack pkt)
  | .onPublish _ pkt => some (.publish pkt)
  | .onTunPublish _ pkt => some (.publish pkt)
  | .onPubAck _ packetId => some (.puback packetId)
  | .onPubRec _ packetId => some (.pubrec packetId)
  | .onPubRel _ packetId => some (.pubrel packetId)
  | .onPubComp _ packetId => some (.pubcomp packetId)
  | .onSubscribe _ pkt => some (.subscribe pkt)
  | .onSubAck _ pkt => some (.suback pkt)
  | .onUnsubscribe _ pkt => some (.unsubscribe pkt)
  | .onUnsubAck _ packetId => some (.unsuback packetId)
  | .onPingReq _ => some .pingreq
  | .onPingResp _ => some .pingresp
  | .onDisconnect _ _ => some .disconnect
  | .parse _ _ _ | .send _ | .sessionConnect _ | .sessionClose _ _ | .sessionStart _ => none

/-- The packets handed to callbacks so far. -/
def received (log : List (Event Bytes)) : List (Packet Bytes) := log.filterMap Event.packet?

/-- The connection state admits a packet type: the codec reads it, a session
exists where one is needed, and a DISCONNECT has a session to end. -/
def admits (codecType : CodecType) (connState : ConnState) (type : PacketType) : Bool :=
  expectedBy codecType type &&
    (connState ≠ .noSession || type = .connect || type = .connack) &&
    (type ≠ .disconnect || connState = .inSession)

def connStateAfter (connState : ConnState) : PacketType → ConnState
  | .connect => .startingSession
  | .connack => .inSession
  | .disconnect => .noSession
  | _ => connState

/-- Every packet of the list is admitted when its turn comes. -/
def AdmitsAll (codecType : CodecType) : ConnState → List (Packet Bytes) → Prop
  | _, [] => True
  | connState, pkt :: pkts =>
      admits codecType connState pkt.packetType ∧
        AdmitsAll codecType (connStateAfter connState pkt.packetType) pkts

theorem packetType_onWire (pkt : Packet Bytes) : (onWire pkt).packetType = pkt.packetType := by
  cases pkt <;> rfl

theorem deliver_handles (auth : BrokerAuth) {conn : TcpConn} {pkt : Packet Bytes}
    (hside : expectedBy conn.codecType pkt.packetType) :
    Handles auth conn pkt.packetType (deliver auth conn pkt) := by
  cases pkt with
  | connect pkt => exact .connect pkt (by simpa [expectedBy, Packet.packetType] using hside)
  | connack pkt => exact .connack pkt (by simpa [expectedBy, Packet.packetType] using hside)
  | publish pkt => exact .publish pkt
  | puback packetId => exact .puback packetId
  | pubrec packetId => exact .pubrec packetId
  | pubrel packetId => exact .pubrel packetId
  | pubcomp packetId => exact .pubcomp packetId
  | subscribe pkt => exact .subscribe pkt (by simpa [expectedBy, Packet.packetType] using hside)
  | suback pkt => exact .suback pkt (by simpa [expectedBy, Packet.packetType] using hside)
  | unsubscribe pkt =>
      exact .unsubscribe pkt (by simpa [expectedBy, Packet.packetType] using hside)
  | unsuback packetId =>
      exact .unsuback packetId (by simpa [expectedBy, Packet.packetType] using hside)
  | pingreq => exact .pingreq (by simpa [expectedBy, Packet.packetType] using hside)
  | pingresp => exact .pingresp (by simpa [expectedBy, Packet.packetType] using hside)
  | disconnect => exact .disconnect (by simpa [expectedBy, Packet.packetType] using hside)

theorem received_mqttConnect (auth : BrokerAuth) {conn : TcpConn} (hsteady : conn.Steady)
    (pkt : ConnectPkt) : received (mqttConnect auth conn pkt).log = received conn.log := by
  unfold mqttConnect
  cases auth.validate pkt with
  | inProgress => simp [received, Event.packet?]
  | failure => simp [hsteady.send_eq, received, Event.packet?]
  | success => simp [received, Event.packet?]

theorem received_deliver (auth : BrokerAuth) {conn : TcpConn} (hsteady : conn.Steady)
    {pkt : Packet Bytes} (hsession : pkt.packetType = .disconnect → conn.connState = .inSession) :
    received (deliver auth conn pkt).log = received conn.log ++ [pkt] := by
  have hcall : ∀ {e : Event Bytes} {pkt : Packet Bytes}, e.packet? = some pkt →
      received (conn.call e).log = received conn.log ++ [pkt] := by
    intro e pkt hpkt
    simp [hsteady.call_eq, received, hpkt]
  have hanswer : ∀ {ack pkt : Packet Bytes} {e : Event Bytes}, e.packet? = some pkt →
      received ((conn.send ack).call e).log = received conn.log ++ [pkt] := by
    intro ack pkt e hpkt
    rw [hsteady.send_eq, (hsteady.record _).call_eq]
    have hack : (Event.send ack).packet? = none := rfl
    simp [received, hpkt, hack]
  cases pkt with
  | connect pkt =>
      have hstarting := hsteady.enter .startingSession conn.upstream (by decide)
      simp only [deliver]
      rw [hstarting.call_eq, received_mqttConnect auth (hstarting.record _)]
      simp [received, Event.packet?]
  | connack pkt => exact hcall rfl
  | publish pkt =>
      simp only [deliver, deliverPublish, hsteady.notTunneled, ↓reduceIte]
      cases publishAck pkt with
      | none => exact hcall rfl
      | some ack => exact hanswer rfl
  | puback packetId => exact hcall rfl
  | pubrec packetId => exact hcall rfl
  | pubrel packetId => exact hanswer rfl
  | pubcomp packetId => exact hcall rfl
  | subscribe pkt => exact hcall rfl
  | suback pkt => exact hcall rfl
  | unsubscribe pkt => exact hcall rfl
  | unsuback packetId => exact hcall rfl
  | pingreq => exact hanswer rfl
  | pingresp => exact hcall rfl
  | disconnect =>
      have hleft := hsteady.enter .noSession .broker (by decide)
      simp only [deliver, handleDisconnect, hsession rfl, ↓reduceIte, hleft.call_eq]
      simp [received, Event.packet?]

theorem connState_deliver (auth : BrokerAuth) {conn : TcpConn} (hsteady : conn.Steady)
    (pkt : Packet Bytes) :
    (deliver auth conn pkt).connState = connStateAfter conn.connState pkt.packetType := by
  have hcall : ∀ e, (conn.call e).connState = conn.connState := fun e => by
    rw [hsteady.call_eq]
    rfl
  have hanswer : ∀ ack e, ((conn.send ack).call e).connState = conn.connState := fun ack e => by
    rw [hsteady.send_eq, (hsteady.record _).call_eq]
    rfl
  cases pkt with
  | connect pkt =>
      have hstarting := hsteady.enter .startingSession conn.upstream (by decide)
      simp only [deliver, mqttConnect]
      rw [hstarting.call_eq]
      cases auth.validate pkt with
      | inProgress => rfl
      | failure =>
          simp only [(hstarting.record _).send_eq]
          rfl
      | success => rfl
  | connack pkt => rfl
  | publish pkt =>
      simp only [deliver, deliverPublish, hsteady.notTunneled, ↓reduceIte]
      cases publishAck pkt with
      | none => exact hcall _
      | some ack => exact hanswer ack _
  | puback packetId => exact hcall _
  | pubrec packetId => exact hcall _
  | pubrel packetId => exact hanswer _ _
  | pubcomp packetId => exact hcall _
  | subscribe pkt => exact hcall _
  | suback pkt => exact hcall _
  | unsubscribe pkt => exact hcall _
  | unsuback packetId => exact hcall _
  | pingreq => exact hanswer _ _
  | pingresp => exact hcall _
  | disconnect =>
      have hleft := hsteady.enter .noSession .broker (by decide)
      simp only [deliver, handleDisconnect, hleft.call_eq]
      split <;> rfl

theorem validateFlags_headerByte (pkt : Packet Bytes) :
    validateFlags pkt.packetType (flagsOf (headerByte pkt)) = .decodeOk := by
  have hflags : flagsOf (headerByte pkt) = UInt8.ofNat (headerFlags pkt % 16) :=
    flagsOf_header pkt.packetType (headerFlags pkt)
  rw [hflags]
  cases pkt <;> rfl

theorem not_headerRefused {codecType : CodecType} {connState : ConnState} {pkt : Packet Bytes}
    (hadmits : admits codecType connState pkt.packetType) :
    ¬ HeaderRefused connState pkt.packetType (headerByte pkt) := by
  rintro (hflags | ⟨hsession, hconnect, hconnack⟩)
  · rw [validateFlags_headerByte] at hflags
    cases hflags
  · simp [admits, hsession, hconnect, hconnack] at hadmits

/-- One packet at the front of the buffer is taken in one round. -/
theorem decodeRound_encoded (auth : BrokerAuth) {conn : TcpConn} {pkt : Packet Bytes}
    {body : Bytes} (hsteady : conn.Steady) (hstate : conn.parsing.state = .parsingFixedHeader)
    (hencodes : Encodes pkt body)
    (hadmits : admits conn.codecType conn.connState pkt.packetType) (rest : Bytes) :
    ∃ next : TcpConn, decodeRound auth (conn.withInput
        (headerByte pkt :: (remainLengthBytes 5 body.length ++ body ++ rest))) =
          some (.decodeOk, next.withInput rest) ∧
      next.Steady ∧ next.parsing.state = .parsingFixedHeader ∧
      next.codecType = conn.codecType ∧
      next.connState = connStateAfter conn.connState pkt.packetType ∧
      received next.log = received conn.log ++ [onWire pkt] := by
  have htype : packetTypeOf (headerByte pkt) = some pkt.packetType :=
    packetTypeOf_header pkt.packetType (headerFlags pkt)
  have hexpected : expectedBy conn.codecType pkt.packetType := by
    simp only [admits, Bool.and_eq_true] at hadmits
    exact hadmits.1.1
  have hbounded := hencodes.bounded
  have hbounded32 : body.length < 2 ^ 32 := by omega
  obtain ⟨multiplier, hlength⟩ :=
    parseRemainLength_remainLengthBytes (headerByte pkt) (body ++ rest) hbounded
  have hlengthNe : remainLengthBytes 5 body.length ++ (body ++ rest) ≠ [] := by
    simp [remainLengthBytes_ne_nil]
  set entered : TcpConn :=
    { conn with parsing := ⟨.parsingBody, headerByte pkt, body.length, multiplier⟩ }.record
      (.parse pkt.packetType conn.state conn.connState) with hentered
  have henteredSteady : entered.Steady :=
    (hsteady.parse ⟨fun _ => ⟨pkt.packetType, htype⟩, hbounded32⟩).record _
  have hexpectedWire : expectedBy entered.codecType (onWire pkt).packetType := by
    rw [packetType_onWire]
    exact hexpected
  have hfollows := (deliver_handles auth hexpectedWire).follows henteredSteady
  refine ⟨(deliver auth entered (onWire pkt)).finishBody, ?_, ?_, rfl, hfollows.codecType, ?_, ?_⟩
  · have hround : decodeRound auth (conn.withInput
        (headerByte pkt :: (remainLengthBytes 5 body.length ++ body ++ rest))) =
        onParsingFixedHeader auth (conn.withInput
          (headerByte pkt :: (remainLengthBytes 5 body.length ++ (body ++ rest)))) := by
      simp [decodeRound, hstate]
    have hparse := hencodes.parsed auth entered rest hexpected rfl
    rw [hround, onParsingFixedHeader_passed auth htype (not_headerRefused hadmits),
      onParsingRemainLength_ok auth _ hlengthNe hlength]
    refine (onParsingBody_complete auth htype (by simp)).trans ?_
    exact (congrArg (Option.map _) hparse).trans rfl
  · exact hfollows.steady.parse ⟨fun h => (h rfl).elim, hfollows.steady.valid.bounded⟩
  · have hafter := connState_deliver auth henteredSteady (onWire pkt)
    rw [packetType_onWire] at hafter
    exact hafter
  · have hsession : (onWire pkt).packetType = .disconnect → entered.connState = .inSession := by
      intro hdisconnect
      rw [packetType_onWire] at hdisconnect
      simp only [admits, hdisconnect, Bool.and_eq_true] at hadmits
      have hin : conn.connState = .inSession := by simpa using hadmits.2
      exact hin
    have hreceived := received_deliver auth henteredSteady hsession
    have hmarker : received entered.log = received conn.log := by
      simp [hentered, received, Event.packet?]
    rw [hmarker] at hreceived
    exact hreceived

def encodeAll : List (Packet Bytes) → Except SendError Bytes
  | [] => .ok []
  | pkt :: pkts => do
      let bytes ← packetSenders pkt
      let rest ← encodeAll pkts
      return bytes ++ rest

theorem encodeAll_of_sendable {pkts : List (Packet Bytes)} (hsendable : ∀ p ∈ pkts, Sendable p)
    (hroom : ∀ p ∈ pkts, ¬ p.Tight) : ∃ bytes, encodeAll pkts = .ok bytes := by
  induction pkts with
  | nil => exact ⟨[], rfl⟩
  | cons pkt pkts ih =>
      obtain ⟨body, hencodes⟩ := encodes_of_sendable (hsendable pkt List.mem_cons_self)
        (hroom pkt List.mem_cons_self)
      obtain ⟨rest, hrest⟩ := ih (fun p hp => hsendable p (List.mem_cons_of_mem _ hp))
        (fun p hp => hroom p (List.mem_cons_of_mem _ hp))
      refine ⟨headerByte pkt :: (remainLengthBytes 5 body.length ++ body) ++ rest, ?_⟩
      rw [encodeAll, hencodes.sent, hrest]
      rfl

/-- One round a packet takes the decoder through the concatenation. -/
theorem decodeLoop_encodeAll (auth : BrokerAuth) {conn : TcpConn} {pkt : Packet Bytes}
    {pkts : List (Packet Bytes)} (hsteady : conn.Steady)
    (hstate : conn.parsing.state = .parsingFixedHeader)
    (hsendable : ∀ p ∈ pkt :: pkts, Sendable p) (hroom : ∀ p ∈ pkt :: pkts, ¬ p.Tight)
    (hadmits : AdmitsAll conn.codecType conn.connState (pkt :: pkts)) :
    ∃ bytes final, encodeAll (pkt :: pkts) = .ok bytes ∧ (pkt :: pkts).length ≤ bytes.length ∧
      decodeLoop auth (pkt :: pkts).length (conn.withInput bytes) = some final ∧
      received final.log = received conn.log ++ (pkt :: pkts).map onWire ∧
      final.inBuffer = [] ∧ final.parsing.state = .parsingFixedHeader ∧
      final.state = .connected := by
  induction pkts generalizing conn pkt with
  | nil =>
      obtain ⟨body, hencodes⟩ := encodes_of_sendable (hsendable pkt List.mem_cons_self)
        (hroom pkt List.mem_cons_self)
      obtain ⟨next, hround, hnext, hnextState, -, -, hreceived⟩ :=
        decodeRound_encoded auth hsteady hstate hencodes hadmits.1 []
      refine ⟨headerByte pkt :: (remainLengthBytes 5 body.length ++ body), next.withInput [],
        ?_, by simp, ?_, by simpa using hreceived, rfl, hnextState, hnext.connected⟩
      · simp [encodeAll, hencodes.sent]
        rfl
      · rw [List.append_nil] at hround
        exact decodeLoop_waits hround (by decide)
          (by simp [(hnext.withInput []).decodeAgain_iff hnextState]) 0
  | cons second pkts ih =>
      obtain ⟨body, hencodes⟩ := encodes_of_sendable (hsendable pkt List.mem_cons_self)
        (hroom pkt List.mem_cons_self)
      obtain ⟨hfirst, hrest⟩ := hadmits
      have hsendableRest : ∀ p ∈ second :: pkts, Sendable p :=
        fun p hp => hsendable p (List.mem_cons_of_mem _ hp)
      have hroomRest : ∀ p ∈ second :: pkts, ¬ p.Tight :=
        fun p hp => hroom p (List.mem_cons_of_mem _ hp)
      obtain ⟨bytes, hbytes⟩ := encodeAll_of_sendable hsendableRest hroomRest
      obtain ⟨next, hround, hnext, hnextState, hcodec, hconn, hreceived⟩ :=
        decodeRound_encoded auth hsteady hstate hencodes hfirst bytes
      rw [← hcodec, ← hconn] at hrest
      obtain ⟨bytes', final, hbytes', hlen, hloop, hfinal⟩ :=
        ih hnext hnextState hsendableRest hroomRest hrest
      obtain rfl : bytes = bytes' := Except.ok.inj (hbytes.symm.trans hbytes')
      have hne : bytes ≠ [] := by
        rintro rfl
        simp at hlen
      have hagain : (next.withInput bytes).decodeAgain :=
        ((hnext.withInput bytes).decodeAgain_iff hnextState).mpr hne
      refine ⟨headerByte pkt :: (remainLengthBytes 5 body.length ++ body ++ bytes), final,
        ?_, ?_, (decodeLoop_again hround hagain _).trans hloop, ?_, hfinal.2⟩
      · rw [encodeAll, hencodes.sent, hbytes]
        rfl
      · simp only [List.length_cons, List.length_append] at hlen ⊢
        omega
      · rw [hfinal.1, hreceived]
        simp

/-- Encoding a list of packets and decoding the bytes gives the packets back,
in order, and leaves no byte over. -/
def DecodedBack (auth : BrokerAuth) (conn : TcpConn) (pkts : List (Packet Bytes)) : Prop :=
  ∃ bytes final, encodeAll pkts = .ok bytes ∧ readCb auth conn bytes = some final ∧
    received final.log = received conn.log ++ pkts.map onWire ∧
    final.inBuffer = [] ∧ final.parsing.state = .parsingFixedHeader ∧ final.state = .connected

/-- A tight packet is not sent: its copies run past the block. -/
theorem packetSenders_of_tight {pkt : Packet Bytes} (hsendable : Sendable pkt)
    (htight : pkt.Tight) : packetSenders pkt = .error .overrun := by
  cases pkt with
  | subscribe pkt =>
      have hroom := mt (CopyingSend.subscribe_hasRoom_iff hsendable.2).mp (not_not_intro htight)
      exact sendSubscribePacket_overrun hsendable.2 hroom
  | unsubscribe pkt =>
      have hroom := mt (CopyingSend.unsubscribe_hasRoom_iff hsendable.2).mp (not_not_intro htight)
      exact sendUnsubscribePacket_overrun hsendable.2 hroom
  | _ => cases htight

theorem encodeAll_of_tight {pkts : List (Packet Bytes)} (hsendable : ∀ p ∈ pkts, Sendable p)
    {pkt : Packet Bytes} (hpkt : pkt ∈ pkts) (htight : pkt.Tight) (bytes : Bytes) :
    encodeAll pkts ≠ .ok bytes := by
  induction pkts generalizing bytes with
  | nil => cases hpkt
  | cons first pkts ih =>
      have hrest := fun p hp => hsendable p (List.mem_cons_of_mem _ hp)
      intro hencode
      rw [encodeAll] at hencode
      rcases List.mem_cons.mp hpkt with rfl | hpkt
      · rw [packetSenders_of_tight (hsendable pkt List.mem_cons_self) htight] at hencode
        cases hencode
      · cases hfirst : packetSenders first with
        | error e =>
            rw [hfirst] at hencode
            cases hencode
        | ok head =>
            cases htail : encodeAll pkts with
            | error e =>
                rw [hfirst, htail] at hencode
                cases hencode
            | ok tail => exact ih hrest hpkt tail htail

/-- Admitted packets come back just when none of them is too short for its
sender. -/
theorem decode_encodeAll_iff (auth : BrokerAuth) (conn : TcpConn) (pkts : List (Packet Bytes))
    (hsteady : conn.Steady) (hstate : conn.parsing.state = .parsingFixedHeader)
    (hbuffer : conn.inBuffer = []) (hpkts : pkts ≠ []) (hsendable : ∀ p ∈ pkts, Sendable p)
    (hadmits : AdmitsAll conn.codecType conn.connState pkts) :
    DecodedBack auth conn pkts ↔ ∀ p ∈ pkts, ¬ p.Tight := by
  constructor
  · rintro ⟨bytes, final, hbytes, -⟩ pkt hpkt htight
    exact encodeAll_of_tight hsendable hpkt htight bytes hbytes
  · intro hroom
    obtain ⟨pkt, pkts, rfl⟩ := List.exists_cons_of_ne_nil hpkts
    obtain ⟨bytes, final, hbytes, hlen, hloop, hfinal⟩ :=
      decodeLoop_encodeAll auth hsteady hstate hsendable hroom hadmits
    refine ⟨bytes, final, hbytes, ?_, hfinal⟩
    simp only [readCb, hsteady.connected, ↓reduceIte, hbuffer, List.nil_append, decodeTcpMessage,
      TcpConn.withInput_inBuffer]
    exact decodeLoop_mono hloop (by omega)

theorem steady_newConn : newConn.Steady :=
  ⟨rfl, by decide, rfl, ⟨fun h => (h rfl).elim, Nat.two_pow_pos 32⟩⟩

def sampleConnect : ConnectPkt :=
  ⟨0x0E, 60, some [99], some [116], some [109], none, none⟩

theorem connectSendable_sample : ConnectSendable sampleConnect := by
  have hstring : ∀ byte : UInt8, byte ≠ 0 → StringOk [byte] := fun byte hbyte =>
    ⟨by simp, by simpa using hbyte.symm⟩
  refine ⟨by decide, by decide, ?_, ?_, ?_, by simp [FieldOk, sampleConnect, connectUsernameFlag],
    by simp [FieldOk, sampleConnect, connectPasswordFlag]⟩
  · intro s hs
    obtain rfl := Option.some.inj hs
    exact hstring 99 (by decide)
  · exact fun _ => ⟨[116], rfl, hstring 116 (by decide)⟩
  · exact fun _ => ⟨[109], rfl, hstring 109 (by decide)⟩

/-- A SUBSCRIBE to `a/b/c/d`, long enough for what it reserves. -/
def sampleSubscribe : SubscribePkt := ⟨1, [⟨[97, 47, 98, 47, 99, 47, 100], 1⟩]⟩

theorem decode_encodeAll_iff_sample :
    DecodedBack openAuth newConn
      [.connect sampleConnect, .subscribe sampleSubscribe, .pubrel 7] := by
  refine (decode_encodeAll_iff openAuth newConn _ steady_newConn rfl rfl (by decide) ?_ ?_).mpr ?_
  · intro p hp
    simp only [List.mem_cons, List.not_mem_nil, or_false] at hp
    rcases hp with rfl | rfl | rfl
    · exact connectSendable_sample
    · refine ⟨?_, by decide⟩
      intro t ht
      obtain rfl := List.mem_singleton.mp ht
      exact ⟨⟨by decide, by decide⟩, by decide⟩
    · trivial
  · exact ⟨by decide, by decide, by decide, trivial⟩
  · intro p hp htight
    simp only [List.mem_cons, List.not_mem_nil, or_false] at hp
    rcases hp with rfl | rfl | rfl
    · exact htight
    · exact absurd htight.1 (by decide)
    · exact htight

/-- A SUBSCRIBE of the one filter `a/b` is written past the end of the vector's
block, so its bytes are not the packet's. -/
theorem not_roundTrips_short :
    ¬ ∀ (auth : BrokerAuth) (conn : TcpConn) (pkts : List (Packet Bytes)), conn.Steady →
      conn.parsing.state = .parsingFixedHeader → conn.inBuffer = [] → pkts ≠ [] →
      (∀ p ∈ pkts, Sendable p) → AdmitsAll conn.codecType conn.connState pkts →
      DecodedBack auth conn pkts := by
  intro hall
  have hshort := hall openAuth newConn [.connect sampleConnect, .subscribe ⟨1, [⟨[97, 47, 98], 0⟩]⟩]
    steady_newConn rfl rfl (by decide) ?_ ⟨by decide, by decide, trivial⟩
  · obtain ⟨bytes, -, hbytes, -⟩ := hshort
    cases hbytes
  · intro p hp
    simp only [List.mem_cons, List.not_mem_nil, or_false] at hp
    rcases hp with rfl | rfl
    · exact connectSendable_sample
    · refine ⟨?_, by decide⟩
      intro t ht
      obtain rfl := List.mem_singleton.mp ht
      exact ⟨⟨by decide, by decide⟩, by decide⟩

end TinyMqtt
