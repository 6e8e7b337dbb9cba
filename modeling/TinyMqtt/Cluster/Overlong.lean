import TinyMqtt.Cluster.Frames

/-!
Frames that are longer than their length can say. The length wraps around: a
string of filters is cut short, and the PUBLISH of a tunnel is handed to the
MQTT decoder before it is there. The decoder then loses the bytes it takes, so
what is left is too short for the publish that was sent.
-/

namespace TinyMqtt

variable {auth : BrokerAuth}

/-! ### Bytes taken from the stream -/

/-- The bytes that are there for the next frames, with those of a header that
waits for its payload. -/
def ClusterConn.unread (conn : ClusterConn) : Nat :=
  conn.inBuffer.length +
    match conn.parsing.state with
    | .parsingHeader => 0
    | .parsingPayload => 3

/-- The bytes that a publish took from the stream at least: the header of its
frame, two bytes of fixed header, and its fields unless their lengths wrapped
around. -/
def ClusterEvent.cost : ClusterEvent → Nat
  | .onAddRoute _ => 0
  | .onTunPublish pkt => if pkt.payload.length < 2 ^ 28 then publishRemainLength pkt + 5 else 0

/-- Nothing is handed on that a budget of bytes does not pay for, unless the
connection is closed. -/
def Spends (budget : Nat) (conn next : ClusterConn) : Prop :=
  next.state = .connected → conn.state = .connected ∧ next.unread ≤ budget ∧
    ∃ events, next.log = conn.log ++ events ∧ ∀ event ∈ events, event.cost ≤ budget

theorem Spends.refl (conn : ClusterConn) : Spends conn.unread conn conn :=
  fun hopen => ⟨hopen, le_rfl, [], by simp, by simp⟩

theorem Spends.trans {budget : Nat} {conn middle next : ClusterConn} (more : Nat)
    (hfirst : Spends budget conn middle) (hsecond : Spends (middle.unread + more) middle next) :
    Spends (budget + more) conn next := by
  intro hopen
  obtain ⟨hmiddle, hleft, events', hlog', hcost'⟩ := hsecond hopen
  obtain ⟨hconn, hbudget, events, hlog, hcost⟩ := hfirst hmiddle
  refine ⟨hconn, by omega, events ++ events', by rw [hlog', hlog, List.append_assoc], ?_⟩
  intro event hevent
  rcases List.mem_append.mp hevent with hold | hnew
  · exact (hcost event hold).trans (Nat.le_add_right _ _)
  · exact (hcost' event hnew).trans (by omega)

theorem payloadParsers_spends {conn next : ClusterConn} {messageType : UInt8} {len : Nat}
    (hparse : conn.payloadParsers auth messageType len = some next) :
    Spends (conn.inBuffer.length + 3) conn
      { next with parsing := { next.parsing with state := .parsingHeader } } := by
  intro hopen
  dsimp only at hopen
  unfold ClusterConn.payloadParsers at hparse
  split at hparse
  · obtain rfl := Option.some.inj hparse
    refine ⟨hopen, ?_, [.onAddRoute (tmqBufferReadStr conn.inBuffer len).1], rfl, ?_⟩
    · simp only [ClusterConn.parseAddRouteMessage, ClusterConn.unread, tmqBufferReadStr_snd,
        List.length_drop]
      omega
    · intro event hevent
      rw [List.mem_singleton.mp hevent]
      exact Nat.zero_le _
  · split at hparse
    · obtain ⟨hconn, -, htaken, hlog⟩ :=
        ClusterConn.parseTunPublishMessage_takes auth hparse hopen
      refine ⟨hconn, ?_, ?_⟩
      · simp only [ClusterConn.unread]
        omega
      · rcases hlog with hlog | ⟨pkt, hlog, hsize⟩
        · exact ⟨[], by simp [hlog], by simp⟩
        · refine ⟨[.onTunPublish pkt], hlog, ?_⟩
          intro event hevent
          rw [List.mem_singleton.mp hevent, ClusterEvent.cost]
          split <;> omega
    · cases hparse

theorem onParsingPayload_spends {conn next : ClusterConn} {goesOn : Bool}
    (hstate : conn.parsing.state = .parsingPayload)
    (hround : conn.onParsingPayload auth = some (goesOn, next)) : Spends conn.unread conn next := by
  have hunread : conn.unread = conn.inBuffer.length + 3 := by
    rw [ClusterConn.unread, hstate]
  unfold ClusterConn.onParsingPayload at hround
  split at hround
  · obtain ⟨-, rfl⟩ := Prod.mk.inj (Option.some.inj hround)
    exact .refl conn
  · obtain ⟨parsed, hparse, hsome⟩ := Option.bind_eq_some_iff.mp hround
    obtain ⟨-, rfl⟩ := Prod.mk.inj (Option.some.inj hsome)
    rw [hunread]
    exact payloadParsers_spends hparse

theorem decodeRound_spends {conn next : ClusterConn} {goesOn : Bool}
    (hround : conn.decodeRound auth = some (goesOn, next)) : Spends conn.unread conn next := by
  unfold ClusterConn.decodeRound at hround
  split at hround
  · rename_i hstate
    unfold ClusterConn.onParsingHeader at hround
    split at hround
    · rename_i messageType msb lsb buffer hbuffer
      have hspends := onParsingPayload_spends rfl hround
      have hunread : conn.unread = buffer.length + 3 := by
        rw [ClusterConn.unread, hstate, hbuffer]
        rfl
      rw [hunread]
      exact hspends
    · obtain ⟨-, rfl⟩ := Prod.mk.inj (Option.some.inj hround)
      exact .refl conn
  · rename_i hstate
    exact onParsingPayload_spends hstate hround

theorem decodeLoop_spends {fuel : Nat} {conn next : ClusterConn}
    (hloop : conn.decodeLoop auth fuel = some next) : Spends conn.unread conn next := by
  induction fuel generalizing conn with
  | zero => cases hloop
  | succ fuel ih =>
      obtain ⟨⟨goesOn, middle⟩, hround, hloop⟩ := Option.bind_eq_some_iff.mp hloop
      have hmiddle := decodeRound_spends hround
      dsimp only at hloop
      split at hloop
      · exact hmiddle.trans 0 (ih hloop)
      · obtain rfl := Option.some.inj hloop
        exact hmiddle

theorem feedChunks_spends {chunks : List Bytes} {conn next : ClusterConn}
    (hfeed : conn.feedChunks auth chunks = some next) :
    Spends (conn.unread + chunks.flatten.length) conn next := by
  induction chunks generalizing conn with
  | nil =>
      obtain rfl := Option.some.inj hfeed
      exact .refl conn
  | cons chunk chunks ih =>
      obtain ⟨middle, hread, hfeed⟩ := Option.bind_eq_some_iff.mp hfeed
      have hrest := ih hfeed
      rw [List.flatten_cons, List.length_append, ← Nat.add_assoc]
      unfold ClusterConn.readCb at hread
      split at hread
      · have hfed : ClusterConn.unread { conn with inBuffer := conn.inBuffer ++ chunk }
            = conn.unread + chunk.length := by
          simp only [ClusterConn.unread, List.length_append]
          omega
        rw [← hfed]
        exact Spends.trans chunks.flatten.length (decodeLoop_spends hread) hrest
      · rename_i hclosed
        obtain rfl := Option.some.inj hread
        intro hopen
        exact (hclosed (hrest hopen).1).elim

/-! ### The last of some messages -/

theorem sendAll_append {frames : List ClusterFrame} {frame : ClusterFrame} {bytes : Bytes}
    (hsend : ClusterFrame.sendAll (frames ++ [frame]) = some bytes) :
    ∃ before last, ClusterFrame.sendAll frames = some before ∧ frame.send = some last ∧
      bytes = before ++ last := by
  induction frames generalizing bytes with
  | nil =>
      obtain ⟨first, others, hfirst, hothers, rfl⟩ := sendAll_cons hsend
      obtain rfl := Option.some.inj hothers
      exact ⟨[], first, rfl, hfirst, List.append_nil first⟩
  | cons head frames ih =>
      obtain ⟨first, others, hfirst, hothers, rfl⟩ := sendAll_cons hsend
      obtain ⟨before, last, hbefore, hlast, rfl⟩ := ih hothers
      refine ⟨first ++ before, last, ?_, hlast, (List.append_assoc _ _ _).symm⟩
      rw [ClusterFrame.sendAll, hfirst, hbefore]
      rfl

/-- The reads of a message that follows messages that fit hand on one event, and
it is that message. -/
theorem RoundTrips.last {frames : List ClusterFrame} {frame : ClusterFrame}
    (hround : RoundTrips auth (frames ++ [frame]))
    (hframes : ∀ frame ∈ frames, frame.Accepted ∧ frame.Fits) :
    ∃ last, frame.send = some last ∧ ∀ chunks : List Bytes, chunks.flatten = last →
      ∃ conn next event, ClusterConn.Idle conn ∧ conn.feedChunks auth chunks = some next ∧
        next.Idle ∧ next.log = conn.log ++ [event] ∧ event.Delivers frame := by
  obtain ⟨bytes, hsend, hreads⟩ := hround _ (List.prefix_refl _)
  obtain ⟨before, last, hbefore, hlast, rfl⟩ := sendAll_append hsend
  refine ⟨last, hlast, ?_⟩
  rintro chunks rfl
  obtain ⟨conn, events, hfeed, hidle, hlog, hevents⟩ :=
    @feedChunks_complete auth [before] .new frames idle_new (by simpa using hbefore) hframes
  obtain ⟨next, hnext, hnextIdle, hdelivers⟩ := hreads (before :: chunks) rfl
  have hrest : conn.feedChunks auth chunks = some next := by
    obtain ⟨middle, hread, hrest⟩ := Option.bind_eq_some_iff.mp hnext
    have hsame : middle = conn := by
      rw [ClusterConn.feedChunks, hread] at hfeed
      exact Option.some.inj hfeed
    rw [← hsame]
    exact hrest
  obtain ⟨-, -, more, hmore, -⟩ := feedChunks_spends hrest hnextIdle.connected
  have hcount : conn.log.length = frames.length := by
    rw [hlog]
    exact hevents.length_eq
  have hone : List.Forall₂ ClusterEvent.Delivers more [frame] := by
    have hdrop := List.forall₂_drop_append _ frames [frame] hdelivers
    rw [hmore, ← hcount, List.drop_left] at hdrop
    exact hdrop
  cases hone with
  | cons hevent hnil =>
      cases hnil
      exact ⟨conn, next, _, hidle, hrest, hnextIdle, hmore, hevent⟩

/-! ### Filters -/

theorem routeFilters_length {seen bytes : Bytes} {filters : List Bytes}
    (hread : routeFilters seen bytes = some filters) :
    (filters.map fun filter => filter.length + 1).sum + 1 ≤ seen.length + bytes.length := by
  induction bytes generalizing seen filters with
  | nil => cases hread
  | cons c rest ih =>
      rw [routeFilters] at hread
      rw [List.length_cons]
      split at hread
      · have hrest := ih hread
        rw [List.length_append, List.length_singleton] at hrest
        omega
      · split at hread
        · obtain rfl := Option.some.inj hread
          simp only [List.map_nil, List.sum_nil]
          omega
        · obtain ⟨others, hothers, rfl⟩ := Option.map_eq_some_iff.mp hread
          have hrest := ih hothers
          rw [List.length_nil] at hrest
          rw [List.map_cons, List.sum_cons]
          omega

/-- A frame of filters is read as it was cut. -/
theorem feedChunks_cut {conn next : ClusterConn} (hidle : conn.Idle) {cut : Bytes}
    {payloadLen : UInt16} (hlen : cut.length = payloadLen.toNat)
    (hfeed : conn.feedChunks auth
      [ClusterMessageType.clusterRouteSync.code :: (packUint16 payloadLen ++ cut)] = some next) :
    next.log = conn.log ++ [.onAddRoute cut] := by
  have hread := tmqBufferReadStr_self cut []
  rw [List.append_nil, hlen] at hread
  simp [ClusterConn.feedChunks, ClusterConn.readCb, hidle.connected, hidle.empty, hidle.header,
    ClusterConn.decodeTcpMessage, ClusterConn.decodeLoop, ClusterConn.decodeRound,
    ClusterConn.onParsingHeader, ClusterConn.onParsingPayload, ClusterConn.payloadParsers,
    ClusterConn.parseAddRouteMessage, packUint16, beUint16_divMod, hlen, hread] at hfeed
  rw [← hfeed]

theorem RoundTrips.cut {frames : List ClusterFrame} {frame : ClusterFrame} {payload : Bytes}
    (hround : RoundTrips auth (frames ++ [frame]))
    (hframes : ∀ frame ∈ frames, frame.Accepted ∧ frame.Fits)
    (hsend : frame.send = sendRouteSyncDelMessage .clusterRouteSync (some payload)) :
    ∃ cut : Bytes, cut.length = (payload.length + 1) % 2 ^ 16 ∧
      (ClusterEvent.onAddRoute cut).Delivers frame := by
  obtain ⟨last, hlast, hreads⟩ := hround.last hframes
  rw [hsend] at hlast
  obtain rfl := Option.some.inj hlast
  obtain ⟨conn, next, event, hidle, hfeed, -, hlog, hevent⟩ := hreads [_] (List.append_nil _)
  have hlen : ((payload ++ [0]).take (UInt16.ofNat (payload.length + 1)).toNat).length
      = (UInt16.ofNat (payload.length + 1)).toNat := by
    simp only [List.length_take, List.length_append, List.length_singleton, UInt16.toNat_ofNat']
    omega
  have hcut := feedChunks_cut hidle hlen hfeed
  rw [hlog, List.append_cancel_left_eq, List.cons.injEq] at hcut
  rw [hcut.1] at hevent
  exact ⟨_, hlen.trans UInt16.toNat_ofNat', hevent⟩

/-! ### Publishes -/

/-- The first part of a PUBLISH is taken for the whole one. Whatever the decoder
then hands on was in that part, or in what is left of the bytes. -/
theorem feedChunks_wrapped {conn next : ClusterConn} (hidle : conn.Idle) {packet : Bytes}
    {payloadLen : UInt16} (hlen : payloadLen.toNat ≤ packet.length)
    (hfeed : conn.feedChunks auth
      [ClusterMessageType.clusterTunPublish.code ::
        (packUint16 payloadLen ++ packet.take payloadLen.toNat), packet.drop payloadLen.toNat]
      = some next) (hopen : next.state = .connected) :
    ∃ events, next.log = conn.log ++ events ∧ ∀ event ∈ events, event.cost < packet.length ∨
      ∃ pkt, event = .onTunPublish pkt ∧
        (2 ^ 28 ≤ pkt.payload.length ∨ publishRemainLength pkt + 2 ≤ payloadLen.toNat) := by
  have htake : (packet.take payloadLen.toNat).length = payloadLen.toNat := by
    rw [List.length_take]
    omega
  obtain ⟨middle, hread, hrest⟩ := Option.bind_eq_some_iff.mp hfeed
  rw [ClusterConn.readCb, if_pos hidle.connected, ClusterConn.decodeTcpMessage,
    ClusterConn.decodeLoop] at hread
  obtain ⟨⟨goesOn, parsed⟩, hround, hloop⟩ := Option.bind_eq_some_iff.mp hread
  have hfirst : Spends parsed.unread parsed middle := by
    dsimp only at hloop
    split at hloop
    · exact decodeLoop_spends hloop
    · obtain rfl := Option.some.inj hloop
      exact .refl parsed
  obtain ⟨hparsedOpen, -, events, hlog, hcost⟩ :=
    hfirst.trans _ (feedChunks_spends hrest) hopen
  simp only [ClusterConn.decodeRound, hidle.header, hidle.empty, ClusterConn.onParsingHeader,
    packUint16, List.nil_append, List.cons_append, beUint16_divMod, ClusterConn.onParsingPayload,
    htake, lt_irrefl, if_false] at hround
  obtain ⟨tunneled, hparse, hsome⟩ := Option.bind_eq_some_iff.mp hround
  obtain ⟨-, rfl⟩ := Prod.mk.inj (Option.some.inj hsome)
  rw [ClusterConn.payloadParsers, if_neg (by decide), if_pos rfl] at hparse
  obtain ⟨-, -, htaken, hkept⟩ := ClusterConn.parseTunPublishMessage_takes auth hparse hparsedOpen
  dsimp only at htaken hkept
  rw [htake] at htaken hkept
  have hlater : ∀ event ∈ events, event.cost < packet.length := by
    intro event hevent
    refine (hcost event hevent).trans_lt ?_
    simp only [ClusterConn.unread, List.flatten_cons, List.flatten_nil, List.append_nil,
      List.length_drop]
    omega
  rcases hkept with hsame | ⟨pkt, hpkt, hsize⟩
  · refine ⟨events, ?_, fun event hevent => .inl (hlater event hevent)⟩
    rw [hlog]
    exact congrArg (· ++ events) hsame
  · refine ⟨.onTunPublish pkt :: events, ?_, ?_⟩
    · rw [hlog]
      dsimp only
      rw [hpkt, List.append_assoc]
      rfl
    · intro event hevent
      rcases List.mem_cons.mp hevent with rfl | hevent
      · exact .inr ⟨pkt, rfl, hsize⟩
      · exact .inl (hlater event hevent)

/-- A publish that comes back was not longer than its frame can say. -/
theorem length_of_delivered {frames : List ClusterFrame} {topic : Bytes}
    {message : MqttMessage Bytes} {retain : Bool}
    (hround : RoundTrips auth (frames ++ [.tunPublish topic message retain]))
    (hframes : ∀ frame ∈ frames, frame.Accepted ∧ frame.Fits) (hqos : message.qos < 4)
    (hsendable : Sendable (.publish (tunPublishPkt topic message retain))) :
    (tunPacket (tunPublishPkt topic message retain)).length < 2 ^ 16 := by
  obtain ⟨last, hlast, hreads⟩ := hround.last hframes
  obtain ⟨-, hmost, -⟩ := length_tunPacket hsendable
  have hbounded : publishRemainLength (tunPublishPkt topic message retain) ≤ 268435455 :=
    hsendable.2
  rw [send_tunPublish hsendable, packLength] at hlast
  obtain rfl := Option.some.inj hlast
  set packet := tunPacket (tunPublishPkt topic message retain)
  have hwrapped : (UInt16.ofNat packet.length).toNat = packet.length % 2 ^ 16 :=
    UInt16.toNat_ofNat'
  obtain ⟨conn, next, event, hidle, hfeed, hnext, hlog, hevent⟩ := hreads
    [ClusterMessageType.clusterTunPublish.code :: (packUint16 (UInt16.ofNat packet.length) ++
      packet.take (UInt16.ofNat packet.length).toNat),
      packet.drop (UInt16.ofNat packet.length).toNat] (by simp)
  obtain ⟨events, hlog', hevents⟩ := feedChunks_wrapped hidle (by omega) hfeed hnext.connected
  rw [hlog, List.append_cancel_left_eq] at hlog'
  have hsmall := hevents event (by simp [← hlog'])
  cases event with
  | onAddRoute topicFilters => exact hevent.elim
  | onTunPublish pkt =>
      obtain ⟨htopic, hpayload, hsame, -⟩ := hevent
      have hlength : publishRemainLength pkt
          = publishRemainLength (tunPublishPkt topic message retain) := by
        rw [publishRemainLength, publishRemainLength, hsame, htopic, hpayload,
          publishQos_tunPublishPkt hqos]
        rfl
      have hshort : pkt.payload.length ≤ publishRemainLength pkt := by
        unfold publishRemainLength
        split <;> omega
      rcases hsmall with hcost | ⟨pkt', hpkt', hsize⟩
      · rw [ClusterEvent.cost, if_pos (by omega)] at hcost
        omega
      · obtain rfl := ClusterEvent.onTunPublish.inj hpkt'
        omega

/-! ### Round trips -/

/-- Where the messages before it fit, a message that comes back fits. -/
theorem RoundTrips.last_fits {frames : List ClusterFrame} {frame : ClusterFrame}
    (hround : RoundTrips auth (frames ++ [frame]))
    (hframes : ∀ frame ∈ frames, frame.Accepted ∧ frame.Fits) (haccepted : frame.Accepted) :
    frame.Fits := by
  cases frame with
  | row filters =>
      by_cases hempty : filters = []
      · subst hempty
        obtain ⟨last, hlast, -⟩ := hround.last hframes
        cases hlast
      · have hsend : (ClusterFrame.row filters).send = sendRouteSyncDelMessage .clusterRouteSync
            (some (filters.flatMap (· ++ [0]))) := by
          rw [ClusterFrame.send, foldl_syncMsgAddTopic haccepted, if_neg hempty]
          rfl
        obtain ⟨cut, hlen, hdelivers⟩ := hround.cut hframes hsend
        have hread := routeFilters_length hdelivers
        rw [sum_length_flatMap] at hlen
        rw [List.length_append, List.length_nil, List.length_singleton] at hread
        exact ⟨hempty, by omega⟩
  | route filter =>
      have hsend : (ClusterFrame.route filter).send = sendRouteSyncDelMessage .clusterRouteSync
          (some filter) := by
        rw [ClusterFrame.send, tmqStrNew_bytes, ProperFilter.cstr_eq haccepted]
      obtain ⟨cut, hlen, hdelivers⟩ := hround.cut hframes hsend
      have hread := routeFilters_length hdelivers
      simp only [List.length_append, List.length_nil, List.length_singleton, List.map_cons,
        List.map_nil, List.sum_cons, List.sum_nil] at hread
      change filter.length + 1 < 2 ^ 16
      omega
  | tunPublish topic message retain =>
      obtain ⟨hqos, hsendable⟩ := haccepted
      exact (length_tunPacket hsendable).2.2.mp (length_of_delivered hround hframes hqos hsendable)

theorem RoundTrips.of_prefix {sent frames : List ClusterFrame} (hround : RoundTrips auth frames)
    (hsent : sent <+: frames) : RoundTrips auth sent :=
  fun first hfirst => hround first (hfirst.trans hsent)

theorem RoundTrips.fits {frames : List ClusterFrame} (hround : RoundTrips auth frames)
    (haccepted : ∀ frame ∈ frames, frame.Accepted) : ∀ frame ∈ frames, frame.Fits := by
  induction frames using List.reverseRecOn with
  | nil => simp
  | append_singleton frames last ih =>
      obtain ⟨hfirst, hlast⟩ := List.forall_mem_append.mp haccepted
      have hfits := ih (hround.of_prefix (List.prefix_append _ _)) hfirst
      have hlastFits := hround.last_fits (fun frame hframe => ⟨hfirst frame hframe,
        hfits frame hframe⟩) (hlast last List.mem_cons_self)
      exact List.forall_mem_append.mpr ⟨hfits, by simpa using hlastFits⟩

/-- What a node sends comes back as it was exactly if every frame fits. -/
theorem roundTrips_iff (auth : BrokerAuth) (frames : List ClusterFrame)
    (haccepted : ∀ frame ∈ frames, frame.Accepted) :
    RoundTrips auth frames ↔ ∀ frame ∈ frames, frame.Fits :=
  ⟨fun hround => hround.fits haccepted, fun hfits => roundTrips_of_fits fun frame hframe =>
    ⟨haccepted frame hframe, hfits frame hframe⟩⟩

/-- A row of two filters, a retained publish and one more filter. -/
def sampleFrames : List ClusterFrame :=
  [.row [[97], [98]], .tunPublish [116] ⟨[1, 0], 1⟩ true, .route [99]]

theorem roundTrips_sampleFrames :
    (∀ frame ∈ sampleFrames, frame.Accepted) ∧ (∀ frame ∈ sampleFrames, frame.Fits) ∧
      RoundTrips openAuth sampleFrames := by
  have haccepted : ∀ frame ∈ sampleFrames, frame.Accepted := by
    simp [sampleFrames, ClusterFrame.Accepted, ProperFilter, Sendable, tunPublishPkt,
      publishRemainLength, publishQos]
  have hfits : ∀ frame ∈ sampleFrames, frame.Fits := by
    simp [sampleFrames, ClusterFrame.Fits, tunPublishPkt, publishRemainLength, publishQos]
  exact ⟨haccepted, hfits, (roundTrips_iff openAuth sampleFrames haccepted).mpr hfits⟩

/-- A PUBLISH of `2 ^ 16` bytes, whose frame says that it is empty. -/
def overlongPublish : ClusterFrame := .tunPublish [97] ⟨List.replicate 65529 0, 0⟩ false

def overlongRoute : ClusterFrame := .route (List.replicate 65535 97)

theorem not_roundTrips_overlong :
    (overlongPublish.Accepted ∧ ¬ RoundTrips openAuth [overlongPublish]) ∧
      overlongRoute.Accepted ∧ ¬ RoundTrips openAuth [overlongRoute] := by
  have hpublish : overlongPublish.Accepted := by
    simp [-List.reduceReplicate, overlongPublish, ClusterFrame.Accepted, Sendable, tunPublishPkt,
      publishRemainLength, publishQos]
  have hroute : overlongRoute.Accepted := by
    simp [-List.reduceReplicate, overlongRoute, ClusterFrame.Accepted, ProperFilter]
  have hlong : ¬ overlongPublish.Fits := by
    simp [-List.reduceReplicate, overlongPublish, ClusterFrame.Fits, tunPublishPkt,
      publishRemainLength, publishQos]
  have hlongRoute : ¬ overlongRoute.Fits := by
    simp [-List.reduceReplicate, overlongRoute, ClusterFrame.Fits]
  refine ⟨⟨hpublish, fun hround => hlong ?_⟩, hroute, fun hround => hlongRoute ?_⟩
  · exact hround.fits (by simpa using hpublish) _ List.mem_cons_self
  · exact hround.fits (by simpa using hroute) _ List.mem_cons_self

end TinyMqtt
