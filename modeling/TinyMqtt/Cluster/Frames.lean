import TinyMqtt.Cluster.Announce
import TinyMqtt.Cluster.Tunnel

/-!
Frames between the nodes of a cluster. What a node sends, its peer decodes to
the same messages with no byte over, however the stream is cut into reads, as
long as every payload fits the sixteen bits of its length.
-/

namespace TinyMqtt

/-! ### Messages -/

/-- What a node sends to a member: the filters of a row, a filter on its own, or
a publish. -/
inductive ClusterFrame where
  | row (filters : List Bytes)
  | route (filter : Bytes)
  | tunPublish (topic : Bytes) (message : MqttMessage Bytes) (retain : Bool)
  deriving DecidableEq, Repr

namespace ClusterFrame

/-- The filters are not empty and have no zero byte; the topic and the payload
are such that the MQTT decoder accepts them in a PUBLISH. -/
def Accepted : ClusterFrame → Prop
  | .row filters => ∀ filter ∈ filters, ProperFilter filter
  | .route filter => ProperFilter filter
  | .tunPublish topic message retain => message.qos < 4 ∧
      Sendable (.publish (tunPublishPkt topic message retain))

def send : ClusterFrame → Option Bytes
  | .row filters =>
      sendRouteSyncDelMessage .clusterRouteSync (filters.foldl syncMsgAddTopic none)
  | .route filter => sendRouteSyncDelMessage .clusterRouteSync (some (tmqStrNew filter))
  | .tunPublish topic message retain => (sendPublishTunMessage topic message retain).toOption

def sendAll : List ClusterFrame → Option Bytes
  | [] => some []
  | frame :: frames => do
      let first ← frame.send
      let others ← sendAll frames
      some (first ++ others)

/-- The payload of the frame has fewer than `2 ^ 16` bytes. A PUBLISH whose
remaining length is near that bound has a fixed header of four bytes. -/
def Fits : ClusterFrame → Prop
  | .row filters => filters ≠ [] ∧ (filters.map fun filter => filter.length + 1).sum + 1 < 2 ^ 16
  | .route filter => filter.length + 1 < 2 ^ 16
  | .tunPublish topic message retain =>
      publishRemainLength (tunPublishPkt topic message retain) + 4 < 2 ^ 16

end ClusterFrame

/-- The event hands on the message: the same filters, or the same topic, payload,
QoS and retain flag. -/
def ClusterEvent.Delivers : ClusterEvent → ClusterFrame → Prop
  | .onAddRoute topicFilters, .row filters => routeFilters [] (topicFilters ++ [0]) = some filters
  | .onAddRoute topicFilters, .route filter =>
      routeFilters [] (topicFilters ++ [0]) = some [filter]
  | .onTunPublish pkt, .tunPublish topic message retain =>
      pkt.topic = topic ∧ pkt.payload = message.message ∧
        publishQos pkt.flags = message.qos ∧ publishRetain pkt.flags = retain.toNat
  | _, _ => False

/-- A connection that is open, has no bytes left and waits for a header. -/
structure ClusterConn.Idle (conn : ClusterConn) : Prop where
  connected : conn.state = .connected
  empty : conn.inBuffer = []
  header : conn.parsing.state = .parsingHeader

theorem idle_new : ClusterConn.new.Idle := ⟨rfl, rfl, rfl⟩

/-- However the bytes of some first messages are cut into reads, the peer has
then decoded these messages, has taken every byte and waits for a header. -/
def RoundTrips (auth : BrokerAuth) (frames : List ClusterFrame) : Prop :=
  ∀ sent, sent <+: frames → ∃ bytes, ClusterFrame.sendAll sent = some bytes ∧
    ∀ chunks : List Bytes, chunks.flatten = bytes →
      ∃ conn, ClusterConn.feedChunks auth .new chunks = some conn ∧ conn.Idle ∧
        List.Forall₂ ClusterEvent.Delivers conn.log sent

/-! ### Frames that fit -/

/-- The frame of a message, and the event its payload leads to. -/
structure FramedBy (auth : BrokerAuth) (frame : ClusterFrame) (type : UInt8) (payload : Bytes)
    (event : ClusterEvent) : Prop where
  sent : frame.send = some (type :: (packLength payload.length ++ payload))
  short : payload.length < 2 ^ 16
  nonempty : payload ≠ []
  delivers : event.Delivers frame
  parsed : ∀ (conn : ClusterConn) (rest : Bytes), ClusterConn.payloadParsers auth
    { conn with inBuffer := payload ++ rest } type payload.length =
      some { conn with inBuffer := rest, log := conn.log ++ [event] }

theorem parseAddRouteMessage_append (conn : ClusterConn) (payload rest : Bytes) :
    ClusterConn.parseAddRouteMessage { conn with inBuffer := payload ++ rest } payload.length
      = { conn with inBuffer := rest, log := conn.log ++ [.onAddRoute payload] } := by
  rw [ClusterConn.parseAddRouteMessage, tmqBufferReadStr_self]

/-- A string of filters that is short enough is sent with its terminator. -/
theorem framedBy_routes (auth : BrokerAuth) {frame : ClusterFrame} {payload : Bytes}
    (hsend : frame.send = sendRouteSyncDelMessage .clusterRouteSync (some payload))
    (hshort : payload.length + 1 < 2 ^ 16)
    (hdelivers : (ClusterEvent.onAddRoute (payload ++ [0])).Delivers frame) :
    FramedBy auth frame ClusterMessageType.clusterRouteSync.code (payload ++ [0])
      (.onAddRoute (payload ++ [0])) where
  sent := by
    have hlen : (UInt16.ofNat (payload.length + 1)).toNat = payload.length + 1 :=
      toNat_ofNat_length (by omega)
    rw [hsend]
    simp only [sendRouteSyncDelMessage, hlen]
    rw [List.take_of_length_le (by simp)]
    simp [packLength]
  short := by
    simp only [List.length_append, List.length_singleton]
    exact hshort
  nonempty := by simp
  delivers := hdelivers
  parsed := by
    intro conn rest
    rw [ClusterConn.payloadParsers, if_pos rfl, parseAddRouteMessage_append]

theorem sum_length_flatMap (filters : List Bytes) :
    (filters.flatMap (· ++ [0])).length = (filters.map fun filter => filter.length + 1).sum := by
  induction filters with
  | nil => rfl
  | cons filter filters ih =>
      rw [List.flatMap_cons, List.length_append, ih, List.map_cons, List.sum_cons,
        List.length_append, List.length_singleton]

theorem publishQos_tunPublishPkt {message : MqttMessage Bytes} (hqos : message.qos < 4)
    (retain : Bool) (topic : Bytes) :
    publishQos (tunPublishPkt topic message retain).flags = message.qos := by
  have hretain : retain.toNat < 2 := retain.toNat_lt
  simp only [tunPublishPkt, publishQos, UInt8.toNat_ofNat', Nat.reducePow]
  omega

theorem publishFlags {message : MqttMessage Bytes} (hqos : message.qos < 4) (retain : Bool)
    (topic : Bytes) :
    publishQos (ClusterConn.wirePublish (tunPublishPkt topic message retain)).flags = message.qos ∧
      publishRetain (ClusterConn.wirePublish (tunPublishPkt topic message retain)).flags
        = retain.toNat := by
  have hretain : retain.toNat < 2 := retain.toNat_lt
  simp only [ClusterConn.wirePublish, tunPublishPkt, publishQos, publishRetain,
    UInt8.toNat_ofNat', Nat.reducePow]
  omega

def tunPacket (pkt : PublishPkt Bytes) : Bytes :=
  headerByte (.publish pkt) ::
    (remainLengthBytes 5 (publishRemainLength pkt) ++ publishBody pkt)

theorem send_tunPublish {topic : Bytes} {message : MqttMessage Bytes} {retain : Bool}
    (hsendable : Sendable (.publish (tunPublishPkt topic message retain))) :
    (ClusterFrame.tunPublish topic message retain).send
      = some (ClusterMessageType.clusterTunPublish.code ::
          (packLength (tunPacket (tunPublishPkt topic message retain)).length ++
            tunPacket (tunPublishPkt topic message retain))) := by
  have hsent := (encodes_publish hsendable).sent
  rw [length_publishBody] at hsent
  have hpacked : packPublishPacket (tunPublishPkt topic message retain)
      = .ok (tunPacket (tunPublishPkt topic message retain)) := hsent
  rw [ClusterFrame.send, sendPublishTunMessage, hpacked]
  rfl

theorem three_le_length_remainLengthBytes {n : Nat} (hn : 128 * 128 ≤ n) :
    3 ≤ (remainLengthBytes 5 n).length := by
  have hfirst : n / 128 > 0 := by omega
  have hsecond : n / 128 / 128 > 0 := by omega
  rw [remainLengthBytes, if_pos hfirst, remainLengthBytes, if_pos hsecond, remainLengthBytes]
  split <;> simp

/-- The fixed header of a packet takes two to five bytes, and four when the
packet has the size that a frame can just hold. -/
theorem length_tunPacket {pkt : PublishPkt Bytes} (hsendable : Sendable (.publish pkt)) :
    publishRemainLength pkt + 2 ≤ (tunPacket pkt).length ∧
      (tunPacket pkt).length ≤ publishRemainLength pkt + 5 ∧
      ((tunPacket pkt).length < 2 ^ 16 ↔ publishRemainLength pkt + 4 < 2 ^ 16) := by
  have hbounded : publishRemainLength pkt ≤ 268435455 := hsendable.2
  have hlength : (tunPacket pkt).length
      = (remainLengthBytes 5 (publishRemainLength pkt)).length + publishRemainLength pkt + 1 := by
    rw [tunPacket, List.length_cons, List.length_append, length_publishBody]
  have hpos := List.length_pos_of_ne_nil (remainLengthBytes_ne_nil (publishRemainLength pkt))
  have hfour := length_remainLengthBytes 5 3 (show publishRemainLength pkt < 128 ^ 4 by omega)
  refine ⟨by omega, by omega, ?_⟩
  by_cases hsmall : publishRemainLength pkt < 128 ^ 3
  · have hthree := length_remainLengthBytes 5 2 hsmall
    by_cases hlow : 128 * 128 ≤ publishRemainLength pkt
    · have hleast := three_le_length_remainLengthBytes hlow
      omega
    · omega
  · omega

theorem framedBy_of_fits (auth : BrokerAuth) {frame : ClusterFrame} (haccepted : frame.Accepted)
    (hfits : frame.Fits) : ∃ type payload event, FramedBy auth frame type payload event := by
  cases frame with
  | row filters =>
      obtain ⟨hne, hlen⟩ := hfits
      refine ⟨_, _, _, @framedBy_routes auth (.row filters) (filters.flatMap (· ++ [0])) ?_ ?_ ?_⟩
      · rw [ClusterFrame.send, foldl_syncMsgAddTopic haccepted, if_neg hne]
        rfl
      · rw [sum_length_flatMap]
        exact hlen
      · change routeFilters [] _ = _
        rw [List.append_assoc]
        exact routeFilters_flatMap haccepted [0]
  | route filter =>
      have hcopy : cstr filter = filter := ProperFilter.cstr_eq haccepted
      refine ⟨_, _, _, @framedBy_routes auth (.route filter) filter ?_ hfits ?_⟩
      · rw [ClusterFrame.send, tmqStrNew_bytes, hcopy]
      · change routeFilters [] _ = _
        rw [List.append_assoc]
        exact (@routeFilters_append [] filter haccepted.2 haccepted.1 [0]).trans rfl
  | tunPublish topic message retain =>
      obtain ⟨hqos, hsendable⟩ := haccepted
      obtain ⟨hflagQos, hflagRetain⟩ := publishFlags hqos retain topic
      refine ⟨_, _, .onTunPublish (ClusterConn.wirePublish (tunPublishPkt topic message retain)),
        send_tunPublish hsendable, ?_, List.cons_ne_nil _ _, ?_, ?_⟩
      · exact (length_tunPacket hsendable).2.2.mpr hfits
      · exact ⟨rfl, rfl, hflagQos, hflagRetain⟩
      · intro conn rest
        have hparse := ClusterConn.parseTunPublishMessage_encoded auth conn
          (encodes_publish hsendable) rest
        rw [length_publishBody] at hparse
        rw [ClusterConn.payloadParsers, if_neg (by decide), if_pos rfl, ← hparse]
        simp [tunPacket]

/-! ### Streams of frames -/

/-- The connection and the bytes still to come hold these messages: either it
waits for the next header, or it has read that of the first one. -/
inductive Reading (auth : BrokerAuth) (conn : ClusterConn) (more : Bytes) :
    List ClusterFrame → Prop where
  | header {frames : List ClusterFrame} (hstate : conn.parsing.state = .parsingHeader)
      (hbytes : ClusterFrame.sendAll frames = some (conn.inBuffer ++ more)) :
      Reading auth conn more frames
  | payload {frame : ClusterFrame} {frames : List ClusterFrame} {type : UInt8}
      {payload others : Bytes} {event : ClusterEvent}
      (hframed : FramedBy auth frame type payload event)
      (hparsing : conn.parsing = ⟨.parsingPayload, type, UInt16.ofNat payload.length⟩)
      (hothers : ClusterFrame.sendAll frames = some others)
      (hbytes : conn.inBuffer ++ more = payload ++ others) : Reading auth conn more (frame :: frames)

def ClusterConn.Waits (conn : ClusterConn) : Prop :=
  match conn.parsing.state with
  | .parsingHeader => conn.inBuffer.length < 3
  | .parsingPayload => conn.inBuffer.length < conn.parsing.payloadLen.toNat

/-- What a call of the decoder does while it reads messages: it hands on some of
them and waits for the others. -/
structure Decoded (auth : BrokerAuth) (conn next : ClusterConn) (more : Bytes)
    (done left : List ClusterFrame) : Prop where
  log : ∃ events, next.log = conn.log ++ events ∧ List.Forall₂ ClusterEvent.Delivers events done
  state : next.state = conn.state
  reading : Reading auth next more left
  waits : next.Waits

variable {auth : BrokerAuth}

theorem onParsingPayload_reading {conn : ClusterConn} {more : Bytes} {frame : ClusterFrame}
    {frames : List ClusterFrame} {type : UInt8} {payload others : Bytes} {event : ClusterEvent}
    (hframed : FramedBy auth frame type payload event)
    (hparsing : conn.parsing = ⟨.parsingPayload, type, UInt16.ofNat payload.length⟩)
    (hothers : ClusterFrame.sendAll frames = some others)
    (hbytes : conn.inBuffer ++ more = payload ++ others) :
    (conn.onParsingPayload auth = some (false, conn) ∧ conn.Waits) ∨
      ∃ next, conn.onParsingPayload auth = some (true, next) ∧ next.log = conn.log ++ [event] ∧
        next.state = conn.state ∧ next.parsing.state = .parsingHeader ∧
        Reading auth next more frames ∧ next.inBuffer.length < conn.inBuffer.length := by
  have hlen : conn.parsing.payloadLen.toNat = payload.length := by
    rw [hparsing]
    exact toNat_ofNat_length (by have hshort := hframed.short; omega)
  have htype : conn.parsing.messageType = type := by rw [hparsing]
  by_cases hwaits : conn.inBuffer.length < payload.length
  · left
    constructor
    · rw [ClusterConn.onParsingPayload, hlen, if_pos hwaits]
    · rw [ClusterConn.Waits, hparsing]
      rw [hparsing] at hlen
      dsimp only at hlen ⊢
      rw [hlen]
      exact hwaits
  · right
    obtain ⟨rest, hrest⟩ : payload <+: conn.inBuffer :=
      List.prefix_of_prefix_length_le ⟨others, hbytes.symm⟩ ⟨more, rfl⟩ (not_lt.mp hwaits)
    have hafter : rest ++ more = others := by
      rw [← hrest, List.append_assoc] at hbytes
      exact List.append_cancel_left hbytes
    have hparse := hframed.parsed conn rest
    rw [hrest] at hparse
    refine ⟨{ conn with
      inBuffer := rest
      log := conn.log ++ [event]
      parsing := { conn.parsing with state := .parsingHeader } }, ?_, rfl, rfl, rfl, ?_, ?_⟩
    · rw [ClusterConn.onParsingPayload, hlen, if_neg hwaits, htype, hparse]
      rfl
    · exact .header rfl (by rw [hothers, hafter])
    · have hpos := List.length_pos_of_ne_nil hframed.nonempty
      rw [← hrest, List.length_append]
      dsimp only
      omega

theorem sendAll_cons {frame : ClusterFrame} {frames : List ClusterFrame} {bytes : Bytes}
    (hsend : ClusterFrame.sendAll (frame :: frames) = some bytes) :
    ∃ first others, frame.send = some first ∧ ClusterFrame.sendAll frames = some others ∧
      bytes = first ++ others := by
  obtain ⟨first, hfirst, hsend⟩ := Option.bind_eq_some_iff.mp hsend
  obtain ⟨others, hothers, hsome⟩ := Option.bind_eq_some_iff.mp hsend
  exact ⟨first, others, hfirst, hothers, (Option.some.inj hsome).symm⟩

/-- One round either waits or hands on the first message. -/
theorem decodeRound_reading {conn : ClusterConn} {more : Bytes} {frames : List ClusterFrame}
    (hreading : Reading auth conn more frames)
    (hframes : ∀ frame ∈ frames, frame.Accepted ∧ frame.Fits) :
    (∃ next, conn.decodeRound auth = some (false, next) ∧ Decoded auth conn next more [] frames) ∨
      ∃ frame rest next event, frames = frame :: rest ∧
        conn.decodeRound auth = some (true, next) ∧ next.log = conn.log ++ [event] ∧
        event.Delivers frame ∧ next.state = conn.state ∧
        next.parsing.state = .parsingHeader ∧ Reading auth next more rest ∧
        next.inBuffer.length < conn.inBuffer.length := by
  cases hreading with
  | payload hframed hparsing hothers hbytes =>
      have hround : conn.decodeRound auth = conn.onParsingPayload auth := by
        rw [ClusterConn.decodeRound, hparsing]
      rw [hround]
      rcases onParsingPayload_reading hframed hparsing hothers hbytes with
        ⟨hstop, hwaits⟩ | ⟨next, hnext, hlog, hstate, hheader, hreading, hshorter⟩
      · exact .inl ⟨conn, hstop, ⟨[], by simp, .nil⟩, rfl,
          .payload hframed hparsing hothers hbytes, hwaits⟩
      · exact .inr ⟨_, _, next, _, rfl, hnext, hlog, hframed.delivers, hstate, hheader, hreading,
          hshorter⟩
  | header hstate hbytes =>
      have hround : conn.decodeRound auth = conn.onParsingHeader auth := by
        rw [ClusterConn.decodeRound, hstate]
      rw [hround]
      by_cases hshort : conn.inBuffer.length < 3
      · have hstop : conn.onParsingHeader auth = some (false, conn) := by
          unfold ClusterConn.onParsingHeader
          split
          · rename_i hbuffer
            rw [hbuffer] at hshort
            simp only [List.length_cons] at hshort
            omega
          · rfl
        refine .inl ⟨conn, hstop, ⟨[], by simp, .nil⟩, rfl, .header hstate hbytes, ?_⟩
        rw [ClusterConn.Waits, hstate]
        exact hshort
      · -- a header is there, so it is that of the first message
        cases frames with
        | nil =>
            have hnil := List.append_eq_nil_iff.mp (Option.some.inj hbytes).symm
            simp [hnil.1] at hshort
        | cons frame frames =>
            obtain ⟨first, others, hfirst, hothers, hsplit⟩ := sendAll_cons hbytes
            obtain ⟨haccepted, hfits⟩ := hframes frame List.mem_cons_self
            obtain ⟨type, payload, event, hframed⟩ := framedBy_of_fits auth haccepted hfits
            have hsent := hframed.sent
            rw [hfirst, Option.some.injEq] at hsent
            rw [hsent] at hsplit
            rcases hbuffer : conn.inBuffer with _ | ⟨messageType, _ | ⟨msb, _ | ⟨lsb, buffer⟩⟩⟩
            · simp [hbuffer] at hshort
            · simp [hbuffer] at hshort
            · simp [hbuffer] at hshort
            · rw [hbuffer] at hsplit
              simp only [packLength, packUint16, List.cons_append, List.nil_append,
                List.cons.injEq] at hsplit
              obtain ⟨rfl, rfl, rfl, hrest⟩ := hsplit
              set entered : ClusterConn := { conn with
                inBuffer := buffer
                parsing := ⟨.parsingPayload, messageType, UInt16.ofNat payload.length⟩ }
                with hentered
              have henter : conn.onParsingHeader auth = entered.onParsingPayload auth := by
                rw [ClusterConn.onParsingHeader, hbuffer]
                dsimp only
                rw [beUint16_divMod]
              rw [henter]
              rcases onParsingPayload_reading hframed (show entered.parsing = _ from rfl) hothers
                hrest with ⟨hstop, hwaits⟩ | ⟨next, hnext, hlog, hstate', hheader, hreading, hshorter⟩
              · exact .inl ⟨entered, hstop, ⟨[], by simp [hentered], .nil⟩, rfl,
                  .payload hframed rfl hothers hrest, hwaits⟩
              · refine .inr ⟨frame, frames, next, event, rfl, hnext, hlog, hframed.delivers, hstate',
                  hheader, hreading, ?_⟩
                simp only [List.length_cons]
                exact hshorter.trans (by dsimp only [entered]; omega)

theorem decodeLoop_reading {fuel : Nat} {conn : ClusterConn} {more : Bytes}
    {frames : List ClusterFrame} (hreading : Reading auth conn more frames)
    (hframes : ∀ frame ∈ frames, frame.Accepted ∧ frame.Fits)
    (hfuel : conn.inBuffer.length < fuel) :
    ∃ next done left, conn.decodeLoop auth fuel = some next ∧ frames = done ++ left ∧
      Decoded auth conn next more done left := by
  induction fuel generalizing conn frames with
  | zero => omega
  | succ fuel ih =>
      rcases decodeRound_reading hreading hframes with
        ⟨next, hround, hdecoded⟩ |
          ⟨frame, rest, middle, event, rfl, hround, hlog, hdelivers, hstate, hheader, hmiddle, hshorter⟩
      · refine ⟨next, [], frames, ?_, rfl, hdecoded⟩
        rw [ClusterConn.decodeLoop, hround]
        rfl
      · have hrest : ∀ frame ∈ rest, frame.Accepted ∧ frame.Fits := by
          intro frame hframe
          exact hframes frame (List.mem_cons_of_mem _ hframe)
        by_cases hempty : middle.inBuffer = []
        · refine ⟨middle, [frame], rest, ?_, rfl, ⟨[event], hlog, .cons hdelivers .nil⟩, hstate,
            hmiddle, ?_⟩
          · rw [ClusterConn.decodeLoop, hround]
            simp [hempty]
          · rw [ClusterConn.Waits, hheader]
            simp [hempty]
        · obtain ⟨next, done, left, hloop, rfl, hdecoded⟩ := ih hmiddle hrest (by omega)
          obtain ⟨events, hlog', hevents⟩ := hdecoded.log
          refine ⟨next, frame :: done, left, ?_, rfl, ⟨event :: events, ?_, .cons hdelivers hevents⟩,
            hdecoded.state.trans hstate, hdecoded.reading, hdecoded.waits⟩
          · rw [ClusterConn.decodeLoop, hround]
            simp [hempty, hloop]
          · rw [hlog', hlog, List.append_assoc]
            rfl

theorem feedChunks_reading {chunks : List Bytes} {conn : ClusterConn}
    {frames : List ClusterFrame} (hopen : conn.state = .connected)
    (hreading : Reading auth conn chunks.flatten frames) (hwaits : conn.Waits)
    (hframes : ∀ frame ∈ frames, frame.Accepted ∧ frame.Fits) :
    ∃ next done left, conn.feedChunks auth chunks = some next ∧ frames = done ++ left ∧
      Decoded auth conn next [] done left := by
  induction chunks generalizing conn frames with
  | nil => exact ⟨conn, [], frames, rfl, rfl, ⟨[], by simp, .nil⟩, rfl, hreading, hwaits⟩
  | cons chunk chunks ih =>
      have hfed : Reading auth { conn with inBuffer := conn.inBuffer ++ chunk } chunks.flatten
          frames := by
        cases hreading with
        | header hstate hbytes => exact .header hstate (by simpa using hbytes)
        | payload hframed hparsing hothers hbytes =>
            exact .payload hframed hparsing hothers (by simpa using hbytes)
      obtain ⟨middle, first, rest, hloop, rfl, hmiddle⟩ := decodeLoop_reading hfed hframes
        (Nat.lt_add_of_pos_right (show 0 < 2 by decide))
      obtain ⟨next, done, left, hfeed, rfl, hdecoded⟩ := ih (hmiddle.state.trans hopen)
        hmiddle.reading hmiddle.waits fun frame hframe =>
          hframes frame (List.mem_append_right _ hframe)
      obtain ⟨events, hlog, hevents⟩ := hmiddle.log
      obtain ⟨events', hlog', hevents'⟩ := hdecoded.log
      refine ⟨next, first ++ done, left, ?_, (List.append_assoc _ _ _).symm, ⟨events ++ events', ?_,
        List.rel_append hevents hevents'⟩, hdecoded.state.trans hmiddle.state, hdecoded.reading,
        hdecoded.waits⟩
      · rw [ClusterConn.feedChunks, ClusterConn.readCb, if_pos hopen,
          ClusterConn.decodeTcpMessage, hloop]
        exact hfeed
      · rw [hlog', hlog, List.append_assoc]

/-- When all the bytes are there, every message has been handed on. -/
theorem Reading.eq_nil {conn : ClusterConn} {frames : List ClusterFrame}
    (hreading : Reading auth conn [] frames) (hwaits : conn.Waits)
    (hframes : ∀ frame ∈ frames, frame.Accepted ∧ frame.Fits) :
    frames = [] ∧ conn.inBuffer = [] ∧ conn.parsing.state = .parsingHeader := by
  unfold ClusterConn.Waits at hwaits
  cases hreading with
  | header hstate hbytes =>
      rw [hstate] at hwaits
      rw [List.append_nil] at hbytes
      cases frames with
      | nil => exact ⟨rfl, (Option.some.inj hbytes).symm, hstate⟩
      | cons frame frames =>
          obtain ⟨first, others, hfirst, -, hsplit⟩ := sendAll_cons hbytes
          obtain ⟨haccepted, hfits⟩ := hframes frame List.mem_cons_self
          obtain ⟨type, payload, event, hframed⟩ := framedBy_of_fits auth haccepted hfits
          have hsent := hframed.sent
          rw [hfirst, Option.some.injEq] at hsent
          simp only [hsplit, hsent, List.length_append, List.length_cons, length_packLength] at hwaits
          omega
  | payload hframed hparsing hothers hbytes =>
      rename_i frames type payload others event
      have hlen : (UInt16.ofNat payload.length).toNat = payload.length :=
        toNat_ofNat_length (by have hshort := hframed.short; omega)
      rw [List.append_nil] at hbytes
      rw [hparsing, hbytes] at hwaits
      dsimp only at hwaits
      rw [hlen, List.length_append] at hwaits
      omega

theorem feedChunks_complete {chunks : List Bytes} {conn : ClusterConn}
    {frames : List ClusterFrame} (hidle : conn.Idle)
    (hbytes : ClusterFrame.sendAll frames = some chunks.flatten)
    (hframes : ∀ frame ∈ frames, frame.Accepted ∧ frame.Fits) :
    ∃ next events, conn.feedChunks auth chunks = some next ∧ next.Idle ∧
      next.log = conn.log ++ events ∧ List.Forall₂ ClusterEvent.Delivers events frames := by
  have hreading : Reading auth conn chunks.flatten frames :=
    .header hidle.header (by rw [hidle.empty, List.nil_append, hbytes])
  have hwaits : conn.Waits := by
    rw [ClusterConn.Waits, hidle.header, hidle.empty]
    exact Nat.zero_lt_succ 2
  obtain ⟨next, done, left, hfeed, rfl, hdecoded⟩ :=
    feedChunks_reading hidle.connected hreading hwaits hframes
  obtain ⟨rfl, hempty, hheader⟩ := hdecoded.reading.eq_nil hdecoded.waits fun frame hframe =>
    hframes frame (List.mem_append_right _ hframe)
  obtain ⟨events, hlog, hevents⟩ := hdecoded.log
  rw [List.append_nil]
  exact ⟨next, events, hfeed, ⟨hdecoded.state.trans hidle.connected, hempty, hheader⟩, hlog, hevents⟩

theorem sendAll_fits (auth : BrokerAuth) {frames : List ClusterFrame}
    (hframes : ∀ frame ∈ frames, frame.Accepted ∧ frame.Fits) :
    ∃ bytes, ClusterFrame.sendAll frames = some bytes := by
  induction frames with
  | nil => exact ⟨[], rfl⟩
  | cons frame frames ih =>
      obtain ⟨hframe, hothers⟩ := List.forall_mem_cons.mp hframes
      obtain ⟨type, payload, event, hframed⟩ := framedBy_of_fits auth hframe.1 hframe.2
      obtain ⟨bytes, hbytes⟩ := ih hothers
      refine ⟨type :: (packLength payload.length ++ payload) ++ bytes, ?_⟩
      rw [ClusterFrame.sendAll, hframed.sent, hbytes]
      rfl

theorem roundTrips_of_fits {frames : List ClusterFrame}
    (hframes : ∀ frame ∈ frames, frame.Accepted ∧ frame.Fits) : RoundTrips auth frames := by
  intro sent hsent
  have hfirst : ∀ frame ∈ sent, frame.Accepted ∧ frame.Fits := by
    intro frame hframe
    exact hframes frame (hsent.subset hframe)
  obtain ⟨bytes, hbytes⟩ := sendAll_fits auth hfirst
  refine ⟨bytes, hbytes, ?_⟩
  rintro chunks rfl
  obtain ⟨conn, events, hfeed, hidle, hlog, hevents⟩ := feedChunks_complete idle_new hbytes hfirst
  refine ⟨conn, hfeed, hidle, ?_⟩
  rw [hlog]
  exact hevents

end TinyMqtt
