import TinyMqtt.Cluster.Codec
import TinyMqtt.Codec.RoundTrip
import TinyMqtt.Conn.StateMachine

/-!
The MQTT decoder inside a tunnel. It makes one round: a whole PUBLISH at the
front of the buffer is handed on and the bytes after it are left, whatever the
length of the frame was. On other bytes it may wait, and then the fixed header
it took is lost, it may close the connection, or it may find a PUBLISH, whose
fields then stood in the buffer.
-/

namespace TinyMqtt

namespace ClusterConn

variable (auth : BrokerAuth)

/-! ### A whole packet -/

def wirePublish (pkt : PublishPkt Bytes) : PublishPkt Bytes :=
  { pkt with
    flags := UInt8.ofNat (pkt.flags.toNat % 16)
    packetId := if publishQos pkt.flags = 0 then 0 else pkt.packetId }

/-- In a tunnel the decoder makes one round. -/
theorem decodeLoop_tunneled {conn next : TcpConn} {status : DecodeStatus}
    (hround : TinyMqtt.decodeRound auth conn = some (status, next))
    (hstays : next.connState = .tunneled) (fuel : Nat) :
    TinyMqtt.decodeLoop auth (fuel + 1) conn
      = some (if status.refuses then next.close else next) := by
  have hstop : next.decodeAgain = false := by simp [TcpConn.decodeAgain, hstays]
  rw [TinyMqtt.decodeLoop, hround]
  simp only [Option.bind_eq_bind, Option.bind_some, hstop, Bool.false_eq_true, if_false,
    Option.pure_def]
  by_cases hrefuses : status.refuses
  · rw [if_pos hrefuses]
    exact if_pos hrefuses
  · rw [if_neg hrefuses]
    exact if_neg hrefuses

theorem decodeRound_tunnel {conn : TcpConn} (htunneled : conn.connState = .tunneled)
    (hhealthy : conn.writeErrorIn = none) (hstate : conn.parsing.state = .parsingFixedHeader)
    {pkt : PublishPkt Bytes} {body : Bytes} (hencodes : Encodes (.publish pkt) body)
    (rest : Bytes) :
    ∃ next : TcpConn, TinyMqtt.decodeRound auth (conn.withInput
        (headerByte (.publish pkt) :: (remainLengthBytes 5 body.length ++ (body ++ rest)))) =
          some (.decodeOk, next) ∧
      next.connState = .tunneled ∧ next.state = conn.state ∧ next.inBuffer = rest ∧
      next.log = conn.log ++ [Event.parse .publish conn.state conn.connState,
        Event.onTunPublish conn.upstream (wirePublish pkt)] := by
  have htype : packetTypeOf (headerByte (.publish pkt)) = some .publish :=
    packetTypeOf_header .publish (headerFlags (.publish pkt))
  have hpassed : ¬ HeaderRefused conn.connState .publish (headerByte (.publish pkt)) := by
    rintro (hflags | ⟨hsession, -, -⟩)
    · cases hflags
    · rw [htunneled] at hsession
      cases hsession
  obtain ⟨multiplier, hlength⟩ := parseRemainLength_remainLengthBytes
    (headerByte (.publish pkt)) (body ++ rest) hencodes.bounded
  have hlengthNe : remainLengthBytes 5 body.length ++ (body ++ rest) ≠ [] := by
    simp [remainLengthBytes_ne_nil]
  set entered : TcpConn :=
    { conn with parsing := ⟨.parsingBody, headerByte (.publish pkt), body.length, multiplier⟩ }.record
      (.parse .publish conn.state conn.connState) with hentered
  have hparse := hencodes.parsed auth entered rest (by rfl) rfl
  have hround : TinyMqtt.decodeRound auth (conn.withInput
      (headerByte (.publish pkt) :: (remainLengthBytes 5 body.length ++ (body ++ rest)))) =
      onParsingFixedHeader auth (conn.withInput
        (headerByte (.publish pkt) :: (remainLengthBytes 5 body.length ++ (body ++ rest)))) := by
    simp [TinyMqtt.decodeRound, hstate]
  have hcall : deliver auth entered (onWire (.publish pkt))
      = entered.record (.onTunPublish conn.upstream (wirePublish pkt)) := by
    simp [deliver, onWire, wirePublish, deliverPublish, hentered, htunneled, TcpConn.call,
      TcpConn.tick, hhealthy, TcpConn.record]
  rw [hcall] at hparse
  refine ⟨((entered.record (.onTunPublish conn.upstream (wirePublish pkt))).withInput
    rest).finishBody, ?_, htunneled, rfl, rfl, ?_⟩
  · rw [hround, onParsingFixedHeader_passed auth htype hpassed,
      onParsingRemainLength_ok auth _ hlengthNe hlength]
    refine (onParsingBody_complete auth htype (by simp)).trans ?_
    exact (congrArg (Option.map _) hparse).trans rfl
  · simp [hentered, TcpConn.finishBody, TcpConn.record]

/-- A tunneled PUBLISH is handed on, and the buffer is left with what came after
it. -/
theorem parseTunPublishMessage_encoded (conn : ClusterConn) {pkt : PublishPkt Bytes}
    {body : Bytes} (hencodes : Encodes (.publish pkt) body) (rest : Bytes) :
    parseTunPublishMessage auth { conn with
        inBuffer := headerByte (.publish pkt) ::
          (remainLengthBytes 5 body.length ++ (body ++ rest)) } =
      some { conn with
        inBuffer := rest
        log := conn.log ++ [.onTunPublish (wirePublish pkt)] } := by
  obtain ⟨next, hround, htunneled, hstate, hbuffer, hlog⟩ := @decodeRound_tunnel auth
    (tunnelConn { conn with inBuffer := [] }) rfl rfl rfl pkt body hencodes rest
  have hdecode : TinyMqtt.decodeTcpMessage auth (tunnelConn { conn with
      inBuffer := headerByte (.publish pkt) ::
        (remainLengthBytes 5 body.length ++ (body ++ rest)) }) = some next := by
    refine (decodeLoop_tunneled auth hround htunneled _).trans ?_
    rfl
  rw [parseTunPublishMessage, hdecode, Option.bind_eq_bind, Option.bind_some, hlog, hbuffer, hstate]
  rfl

/-! ### Any other bytes -/

def foreign : Event Bytes → Bool
  | .parse type _ _ => type = .disconnect
  | .send _ => false
  | .onTunPublish _ _ => false
  | _ => true

theorem tunneledPublishes_foreign {log : List (Event Bytes)} {e : Event Bytes} (hmem : e ∈ log)
    (hforeign : foreign e) : tunneledPublishes log = none := by
  induction log with
  | nil => cases hmem
  | cons first log ih =>
      rcases List.mem_cons.mp hmem with rfl | hrest
      · cases e with
        | parse type state connState =>
            obtain rfl : type = .disconnect := by simpa [foreign] using hforeign
            rfl
        | send pkt => cases hforeign
        | onTunPublish upstream pkt => cases hforeign
        | _ => rfl
      · unfold tunneledPublishes
        split <;> simp_all

theorem mem_call_log (conn : TcpConn) (e : Event Bytes) : e ∈ (conn.call e).log := by
  obtain ⟨events, hlog, -⟩ := (advances_tick (P := True) (conn.record e)).events
  rw [TcpConn.call, hlog]
  simp

/-- A packet other than a PUBLISH is handed to a callback that the codec of a
cluster does not have. -/
theorem foreign_of_handles {conn next : TcpConn} {type : PacketType}
    (hhandles : Handles auth conn type next) (htype : type ≠ .publish)
    (hserver : conn.codecType = .server) {state : TcpConnState} {connState : ConnState}
    (hentered : .parse type state connState ∈ conn.log) : ∃ e ∈ next.log, foreign e := by
  have hcall : ∀ (caller : TcpConn) e, foreign e → ∃ e' ∈ (caller.call e).log, foreign e' := by
    intro caller e hforeign
    exact ⟨e, mem_call_log caller e, hforeign⟩
  cases hhandles with
  | connect pkt _ =>
      obtain ⟨events, hlog, -⟩ := (mqttConnect_advances (P := True) auth
        ({ conn with connState := .startingSession }.call (.onConnect conn.upstream pkt)) pkt).events
      refine ⟨.onConnect conn.upstream pkt, ?_, rfl⟩
      rw [hlog]
      exact List.mem_append_left _ (mem_call_log _ _)
  | connack pkt hclient => simp [hserver] at hclient
  | publish pkt => exact (htype rfl).elim
  | puback packetId => exact hcall _ _ rfl
  | pubrec packetId => exact hcall _ _ rfl
  | pubrel packetId => exact hcall _ _ rfl
  | pubcomp packetId => exact hcall _ _ rfl
  | subscribe pkt _ => exact hcall _ _ rfl
  | suback pkt hclient => simp [hserver] at hclient
  | unsubscribe pkt _ => exact hcall _ _ rfl
  | unsuback packetId hclient => simp [hserver] at hclient
  | pingreq _ => exact hcall _ _ rfl
  | pingresp hclient => simp [hserver] at hclient
  | disconnect _ =>
      obtain ⟨events, hlog, -⟩ := (handleDisconnect_advances (P := True) conn).events
      refine ⟨.parse .disconnect state connState, ?_, rfl⟩
      rw [hlog]
      exact List.mem_append_left _ hentered

theorem length_tmqBufferReadStr (buffer : Bytes) (n : Nat) :
    (tmqBufferReadStr buffer n).1.length = n := by
  simp only [tmqBufferReadStr, tmqBufferRead, List.length_append, List.length_replicate,
    List.length_take]
  omega

theorem length_tmqBufferRead16 (buffer : Bytes) :
    (tmqBufferRead16 buffer).2.length ≤ buffer.length := by
  cases buffer with
  | nil => simp
  | cons msb buffer =>
      cases buffer with
      | nil => simp
      | cons lsb buffer =>
          simp only [tmqBufferRead16_cons_cons, List.length_cons]
          omega

theorem parsePublishRest_tunnel {conn next : TcpConn} {flags : UInt8} {topic buffer : Bytes}
    {payloadLen : Int} (htunneled : conn.connState = .tunneled)
    (hhealthy : conn.writeErrorIn = none)
    (hparse : parsePublishRest conn flags topic payloadLen buffer = some (.decodeOk, next)) :
    ∃ pkt, next.log = conn.log ++ [.onTunPublish conn.upstream pkt] ∧
      next.connState = .tunneled ∧ next.state = conn.state ∧
      next.inBuffer.length ≤ buffer.length ∧ pkt.topic = topic ∧ pkt.flags = flags ∧
      (pkt.payload.length : Int) = if publishQos flags ≠ 0 then payloadLen - 2 else payloadLen := by
  simp only [parsePublishRest, Option.bind_eq_bind, Option.pure_def] at hparse
  generalize (if publishQos flags ≠ 0 then payloadLen - 2 else payloadLen) = payloadLen at *
  generalize hread : (if publishQos flags ≠ 0 then tmqBufferRead16 buffer else (some 0, buffer))
    = read at hparse
  have hshorter : read.2.length ≤ buffer.length := by
    rw [← hread]
    split
    · exact length_tmqBufferRead16 buffer
    · rfl
  by_cases hneg : payloadLen < 0
  · simp [hneg] at hparse
  · simp only [hneg, ↓reduceIte, Option.bind_eq_some_iff, Option.some.injEq, Prod.mk.injEq,
      true_and] at hparse
    obtain ⟨packetId, -, rfl⟩ := hparse
    refine ⟨⟨flags, topic, packetId, (tmqBufferReadStr read.2 payloadLen.toNat).1⟩, ?_⟩
    have hcall : ∀ pkt, deliverPublish (conn.withInput (tmqBufferReadStr read.2
        payloadLen.toNat).2) pkt = (conn.withInput (tmqBufferReadStr read.2
          payloadLen.toNat).2).record (.onTunPublish conn.upstream pkt) := by
      intro pkt
      simp [deliverPublish, htunneled, TcpConn.call, TcpConn.tick, hhealthy, TcpConn.record]
    rw [hcall, length_tmqBufferReadStr]
    refine ⟨rfl, htunneled, rfl, ?_, rfl, rfl, by omega⟩
    simp only [TcpConn.record_inBuffer, TcpConn.withInput_inBuffer, tmqBufferReadStr_snd,
      List.length_drop]
    omega

/-- The fields of a PUBLISH stood in the buffer, unless the length of its payload
wrapped around. -/
theorem parsePublishPacket_tunnel {conn next : TcpConn} {len : Nat}
    (htunneled : conn.connState = .tunneled) (hhealthy : conn.writeErrorIn = none)
    (hlen : len < 2 ^ 32)
    (hparse : parsePublishPacket auth conn len = some (.decodeOk, next)) :
    ∃ pkt, next.log = conn.log ++ [.onTunPublish conn.upstream pkt] ∧
      next.connState = .tunneled ∧ next.state = conn.state ∧
      next.inBuffer.length ≤ conn.inBuffer.length ∧
      (2 ^ 28 ≤ pkt.payload.length ∨ publishRemainLength pkt ≤ len) := by
  simp only [parsePublishPacket, Option.bind_eq_bind, Option.bind_eq_some_iff] at hparse
  obtain ⟨topicNameLen, hread, hrest⟩ := hparse
  have hname := topicNameLen.toNat_lt
  have hshorter := length_tmqBufferRead16 conn.inBuffer
  obtain ⟨pkt, hlog, hconnState, hstate, hbuffer, htopic, hflags, hpayload⟩ :=
    parsePublishRest_tunnel htunneled hhealthy hrest
  refine ⟨pkt, hlog, hconnState, hstate, ?_, ?_⟩
  · rw [tmqBufferReadStr_snd, List.length_drop] at hbuffer
    omega
  · have htopicLen : pkt.topic.length = topicNameLen.toNat := by
      rw [htopic, length_tmqBufferReadStr]
    rw [← hflags] at hpayload
    unfold publishRemainLength
    rw [htopicLen]
    unfold sub32 at hpayload
    by_cases hqos : publishQos pkt.flags = 0
    · simp only [hqos, ne_eq, not_true_eq_false, if_false] at hpayload
      rw [if_pos hqos]
      omega
    · simp only [hqos, ne_eq, not_false_eq_true, if_true] at hpayload
      rw [if_neg hqos]
      omega

/-- What a round in a tunnel does that neither closes the connection nor calls
back through the wrong codec: it takes bytes, and hands on at most a PUBLISH. -/
structure TunnelRound (conn next : TcpConn) : Prop where
  connState : next.connState = .tunneled
  state : next.state = conn.state
  taken : next.inBuffer.length < conn.inBuffer.length
  log : next.log = conn.log ∨ ∃ pkt, next.log = conn.log ++
      [.parse .publish conn.state conn.connState, .onTunPublish conn.upstream pkt] ∧
    (2 ^ 28 ≤ pkt.payload.length ∨ publishRemainLength pkt + 2 ≤ conn.inBuffer.length)

theorem tunnelRound_onParsingBody {conn next : TcpConn} {status : DecodeStatus}
    (htunneled : conn.connState = .tunneled) (hhealthy : conn.writeErrorIn = none)
    (hserver : conn.codecType = .server) (hbounded : conn.parsing.remainLength < 2 ^ 32)
    (hround : onParsingBody auth conn = some (status, next)) (hpasses : ¬ status.refuses) :
    (∃ e ∈ next.log, foreign e) ∨ next = conn ∨
      next.connState = .tunneled ∧ next.state = conn.state ∧
      next.inBuffer.length ≤ conn.inBuffer.length ∧ ∃ pkt, next.log = conn.log ++
        [.parse .publish conn.state conn.connState, .onTunPublish conn.upstream pkt] ∧
      (2 ^ 28 ≤ pkt.payload.length ∨ publishRemainLength pkt ≤ conn.inBuffer.length) := by
  by_cases hshort : conn.inBuffer.length < conn.parsing.remainLength
  · simp only [onParsingBody, hshort, if_true] at hround
    simp only [Option.pure_def, Option.some.injEq, Prod.mk.injEq] at hround
    exact .inr (.inl hround.2.symm)
  · cases htype : packetTypeOf conn.parsing.typeFlags with
    | none => simp [onParsingBody, hshort, htype] at hround
    | some type =>
        have hcomplete := onParsingBody_complete auth htype (not_lt.mp hshort)
        rw [TcpConn.withInput_self] at hcomplete
        rw [hcomplete] at hround
        obtain ⟨⟨status', parsed⟩, hparse, hresult⟩ := Option.map_eq_some_iff.mp hround
        have houtcome := packetParsers_outcome hparse
        by_cases hok : status' = .decodeOk
        · subst hok
          rw [if_pos rfl] at hresult
          obtain ⟨-, rfl⟩ := Prod.mk.inj hresult
          by_cases hpublish : type = .publish
          · subst hpublish
            obtain ⟨pkt, hlog, hconnState, hstate, hbuffer, hsize⟩ :=
              @parsePublishPacket_tunnel auth (conn.record (.parse .publish conn.state
                conn.connState)) parsed _ htunneled hhealthy hbounded hparse
            refine .inr (.inr ⟨hconnState, hstate, hbuffer, pkt, ?_, ?_⟩)
            · refine hlog.trans ?_
              rw [TcpConn.record_log, List.append_assoc]
              rfl
            · exact hsize.imp_right fun hle => hle.trans (not_lt.mp hshort)
          · left
            cases houtcome with
            | handled buffer _ hhandles =>
                have hentered : Event.parse type conn.state conn.connState ∈
                    (conn.record (.parse type conn.state conn.connState)).log := by
                  simp
                have hforeign : ∃ e ∈ parsed.log, foreign e :=
                  @foreign_of_handles auth ((conn.record (.parse type conn.state
                    conn.connState)).withInput buffer) _ type hhandles hpublish hserver _ _ hentered
                exact hforeign
            | refused buffer status hrefuses => exact (hrefuses.1 rfl).elim
        · rw [if_neg hok] at hresult
          obtain ⟨rfl, rfl⟩ := Prod.mk.inj hresult
          exact (hpasses (houtcome.refuses hok)).elim

theorem tunnelRound_decodeRound {conn next : TcpConn} {status : DecodeStatus}
    (htunneled : conn.connState = .tunneled) (hhealthy : conn.writeErrorIn = none)
    (hserver : conn.codecType = .server) (hstate : conn.parsing.state = .parsingFixedHeader)
    (hround : TinyMqtt.decodeRound auth conn = some (status, next))
    (hpasses : ¬ status.refuses) : (∃ e ∈ next.log, foreign e) ∨ TunnelRound conn next := by
  simp only [TinyMqtt.decodeRound, hstate] at hround
  cases hbuffer : conn.inBuffer with
  | nil => simp [onParsingFixedHeader, hbuffer] at hround
  | cons byte rest =>
      rw [← TcpConn.withInput_self conn, hbuffer] at hround
      cases htype : packetTypeOf byte with
      | none =>
          rw [onParsingFixedHeader_unknown auth conn htype] at hround
          obtain ⟨rfl, -⟩ := Prod.mk.inj (Option.some.inj hround)
          exact (hpasses (by decide)).elim
      | some type =>
          by_cases hrefused : HeaderRefused conn.connState type byte
          · obtain ⟨status', hrefuses, hresult⟩ :=
              onParsingFixedHeader_refused auth htype hrefused
            rw [hresult] at hround
            obtain ⟨rfl, -⟩ := Prod.mk.inj (Option.some.inj hround)
            exact (hpasses hrefuses).elim
          · rw [onParsingFixedHeader_passed auth htype hrefused] at hround
            by_cases hempty : rest = []
            · simp only [onParsingRemainLength, TcpConn.withInput_inBuffer, hempty, if_true,
                Option.map_some, Option.some.injEq, Prod.mk.injEq] at hround
              obtain ⟨-, rfl⟩ := hround
              refine .inr ⟨htunneled, rfl, ?_, .inl rfl⟩
              simp [hbuffer]
            · have hread := parseRemainLength_read (conn.afterHeader byte).parsing rest
              have htaken := hread.taken hempty
              have hbounded := hread.bounded (Nat.two_pow_pos 32)
              generalize hlength : parseRemainLength (conn.afterHeader byte).parsing rest = result
                at htaken hbounded
              obtain ⟨status', parsing, left⟩ := result
              by_cases hok : status' = .decodeOk
              · subst hok
                rw [onParsingRemainLength_ok auth _ hempty hlength] at hround
                have hbody := @tunnelRound_onParsingBody auth
                  ({ conn.afterHeader byte with parsing := { parsing with
                    state := .parsingBody } }.withInput left) next status htunneled hhealthy hserver
                  hbounded hround hpasses
                rcases hbody with hforeign | rfl | ⟨hconnState, hstate', hshorter, pkt, hlog, hsize⟩
                · exact .inl hforeign
                · refine .inr ⟨htunneled, rfl, ?_, .inl rfl⟩
                  rw [hbuffer, List.length_cons]
                  exact htaken.trans (Nat.lt_succ_self _)
                · refine .inr ⟨hconnState, hstate', ?_, .inr ⟨pkt, hlog, ?_⟩⟩
                  · rw [hbuffer, List.length_cons]
                    exact (hshorter.trans_lt htaken).trans (Nat.lt_succ_self _)
                  · rw [hbuffer, List.length_cons]
                    dsimp only [TcpConn.withInput_inBuffer] at hsize
                    dsimp only at htaken
                    omega
              · rw [onParsingRemainLength_stop auth _ hempty hok hlength] at hround
                obtain ⟨-, rfl⟩ := Prod.mk.inj (Option.some.inj hround)
                refine .inr ⟨htunneled, rfl, ?_, .inl rfl⟩
                rw [hbuffer, List.length_cons]
                exact htaken.trans (Nat.lt_succ_self _)

/-- A tunnel that leaves the connection open took bytes, and if it handed on a
PUBLISH then its fields were among them. -/
theorem parseTunPublishMessage_takes {conn next : ClusterConn}
    (hparse : conn.parseTunPublishMessage auth = some next) (hopen : next.state = .connected) :
    conn.state = .connected ∧ next.parsing = conn.parsing ∧
      next.inBuffer.length < conn.inBuffer.length ∧
      (next.log = conn.log ∨ ∃ pkt, next.log = conn.log ++ [.onTunPublish pkt] ∧
        (2 ^ 28 ≤ pkt.payload.length ∨
          publishRemainLength pkt + 2 ≤ conn.inBuffer.length)) := by
  obtain ⟨decoded, hdecode, hparse⟩ := Option.bind_eq_some_iff.mp hparse
  obtain ⟨pkts, hpkts, hsome⟩ := Option.bind_eq_some_iff.mp hparse
  obtain rfl := Option.some.inj hsome
  have hloop := hdecode
  unfold TinyMqtt.decodeTcpMessage at hloop
  rw [TinyMqtt.decodeLoop] at hloop
  obtain ⟨⟨status, middle⟩, hround, hloop⟩ := Option.bind_eq_some_iff.mp hloop
  dsimp only at hloop hopen
  by_cases hrefuses : status.refuses
  · rw [if_pos (show status ≠ .decodeOk ∧ status ≠ .needMoreData from hrefuses)] at hloop
    obtain rfl := Option.some.inj hloop
    unfold TcpConn.close at hopen
    split at hopen
    · rename_i hclosed
      rw [hclosed] at hopen
      cases hopen
    · cases hopen
  · rw [if_neg (show ¬ (status ≠ .decodeOk ∧ status ≠ .needMoreData) from hrefuses)] at hloop
    rcases tunnelRound_decodeRound auth rfl rfl rfl rfl hround hrefuses with
      ⟨e, he, hforeign⟩ | htunnel
    · have hmiddle := decodeRound_advances rfl hround
      have hkept : e ∈ decoded.log := by
        split at hloop
        · obtain ⟨events, hlog, -⟩ := (decodeLoop_advances hmiddle.codecType hloop).events
          rw [hlog]
          exact List.mem_append_left _ he
        · obtain rfl := Option.some.inj hloop
          exact he
      rw [tunneledPublishes_foreign hkept hforeign] at hpkts
      cases hpkts
    · have hstop : middle.decodeAgain = false := by
        simp [TcpConn.decodeAgain, htunnel.connState]
      rw [hstop] at hloop
      obtain rfl := Option.some.inj hloop
      refine ⟨?_, rfl, htunnel.taken, ?_⟩
      · rw [← hopen, htunnel.state]
        rfl
      · rcases htunnel.log with hlog | ⟨pkt, hlog, hsize⟩
        · rw [hlog] at hpkts
          obtain rfl := Option.some.inj hpkts
          exact .inl (List.append_nil _)
        · rw [hlog] at hpkts
          obtain rfl := Option.some.inj hpkts
          exact .inr ⟨pkt, rfl, hsize⟩

end ClusterConn

end TinyMqtt
