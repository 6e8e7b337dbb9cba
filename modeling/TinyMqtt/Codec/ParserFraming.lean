import TinyMqtt.Codec.BodyFits

/-!
Framing of the parsers that read more than a packet identifier: each accepts
or refuses a body that fits on the strength of the body alone, and a body
that it always refuses or consumes exactly fits.
-/

namespace TinyMqtt

/-! ### PUBLISH -/

/-- Behind the topic the parser takes a packet identifier when the QoS asks for
one, and the rest of the body as the payload. A body too short for the
identifier is refused. -/
theorem parsePublishRest_framedAs (conn : TcpConn) (flags : UInt8) (topic tail : Bytes) :
    ∃ status next, FramedAs
      (fun buffer => parsePublishRest conn flags topic tail.length buffer) tail status next := by
  by_cases hqos : publishQos flags = 0
  · refine ⟨.decodeOk, deliverPublish conn ⟨flags, topic, 0, tail⟩,
      fun rest => ⟨rest, ?_, fun _ => rfl⟩⟩
    simp [parsePublishRest, hqos, tmqBufferReadStr_append tail rest _ le_rfl,
      deliverPublish_withInput]
  · rcases tail with _ | ⟨msb, _ | ⟨lsb, payload⟩⟩
    · exact ⟨.badPacketFormat, conn, fun rest => ⟨_, by simp [parsePublishRest, hqos]; rfl, by simp⟩⟩
    · exact ⟨.badPacketFormat, conn, fun rest => ⟨_, by simp [parsePublishRest, hqos]; rfl, by simp⟩⟩
    · refine ⟨.decodeOk, deliverPublish conn ⟨flags, topic, beUint16 msb lsb, payload⟩,
        fun rest => ⟨rest, ?_, fun _ => rfl⟩⟩
      have hlen : ((msb :: lsb :: payload).length : Int) - 2 = payload.length := by
        simp only [List.length_cons]
        omega
      have hnonneg : ¬ ((payload.length : Int) < 0) := by omega
      simp only [parsePublishRest, hqos, hlen, hnonneg, List.cons_append, ne_eq,
        not_false_eq_true, ↓reduceIte, tmqBufferRead16_cons_cons, Int.toNat_natCast,
        tmqBufferReadStr_append payload rest _ le_rfl]
      simp [deliverPublish_withInput]

@[simp] theorem deliverPublish_inBuffer (conn : TcpConn) (pkt : PublishPkt Bytes) :
    (deliverPublish conn pkt).inBuffer = conn.inBuffer := by
  have hbuffer := deliverPublish_withInput conn conn.inBuffer pkt
  rw [TcpConn.withInput_self] at hbuffer
  rw [hbuffer, TcpConn.withInput_inBuffer]

@[simp] theorem parsePublishRest_withInput (conn : TcpConn) (input : Bytes) (flags : UInt8)
    (topic : Bytes) (payloadLen : Int) (buffer : Bytes) :
    parsePublishRest (conn.withInput input) flags topic payloadLen buffer =
      parsePublishRest conn flags topic payloadLen buffer := rfl

/-- With nothing left in the buffer the rest of a PUBLISH is accepted all the
same, and nothing is left after it. -/
theorem parsePublishRest_nil {conn next : TcpConn} {flags : UInt8} {topic : Bytes}
    {payloadLen : Int} {status : DecodeStatus} (hlen : 2 ≤ payloadLen)
    (hparse : parsePublishRest conn flags topic payloadLen [] = some (status, next)) :
    status = .decodeOk ∧ next.inBuffer = [] := by
  have hnonneg : ¬ payloadLen < 0 := by omega
  have hnonneg' : ¬ payloadLen - 2 < 0 := by omega
  by_cases hqos : publishQos flags = 0
  · simp only [parsePublishRest, hqos, hnonneg, ne_eq, not_true_eq_false, ↓reduceIte,
      Option.bind_eq_bind, Option.bind_some, Option.pure_def, Option.some.injEq,
      Prod.mk.injEq] at hparse
    obtain ⟨rfl, rfl⟩ := hparse
    simp
  · simp only [parsePublishRest, hqos, hnonneg', ne_eq, not_false_eq_true, ↓reduceIte,
      tmqBufferRead16_nil, Option.bind_eq_bind, Option.bind_none, reduceCtorEq] at hparse

/-- A PUBLISH whose topic lies inside the body is read to the end of the body or
refused, whatever comes behind it. -/
theorem parsePublishPacket_framedAs (auth : BrokerAuth) (conn : TcpConn) {body : Bytes}
    (hlen : body.length < 2 ^ 32) (hfits : PublishBodyFits body) :
    ∃ status next, FramedAs
      (fun buffer => parsePublishPacket auth (conn.withInput buffer) body.length) body
      status next := by
  rcases body with _ | ⟨msb, _ | ⟨lsb, field⟩⟩
  · exact hfits.elim
  · exact hfits.elim
  · have hfield : (beUint16 msb lsb).toNat ≤ field.length := hfits
    simp only [List.length_cons] at hlen ⊢
    have hpayload : sub32 (sub32 (field.length + 1 + 1) 2) (beUint16 msb lsb).toNat =
        (field.drop (beUint16 msb lsb).toNat).length := by
      rw [sub32_of_le (by omega) hlen, sub32_of_le (by omega) (by omega), List.length_drop]
      omega
    obtain ⟨status, next, hrest⟩ := parsePublishRest_framedAs conn
      (flagsOf conn.parsing.typeFlags) (field.take (beUint16 msb lsb).toNat)
      (field.drop (beUint16 msb lsb).toNat)
    refine ⟨status, next, fun rest => ?_⟩
    obtain ⟨left, hparse, hleft⟩ := hrest rest
    refine ⟨left, ?_, hleft⟩
    simp only [parsePublishPacket, TcpConn.withInput_inBuffer, List.cons_append,
      tmqBufferRead16_cons_cons, Option.bind_eq_bind, Option.bind_some,
      tmqBufferReadStr_append _ _ _ hfield, hpayload, parsePublishRest_withInput]
    exact hparse

/-- The converse: a parser that stops at the end of the body whatever comes
behind it has found the topic inside. -/
theorem publishBodyFits_of_consumes (auth : BrokerAuth) (conn : TcpConn) {body : Bytes}
    (hlen : body.length < 2 ^ 32)
    (hconsumes : Consumes
      (fun buffer => parsePublishPacket auth (conn.withInput buffer) body.length) body) :
    PublishBodyFits body := by
  rcases body with _ | ⟨msb, _ | ⟨lsb, field⟩⟩
  · obtain ⟨status, next, hparse, -⟩ := hconsumes []
    simp [parsePublishPacket] at hparse
  · obtain ⟨status, next, hparse, -⟩ := hconsumes []
    simp [parsePublishPacket] at hparse
  · obtain ⟨status, next, hparse, hresult⟩ := hconsumes [0]
    by_contra hfits
    have hfield : field.length < (beUint16 msb lsb).toNat := by
      simpa [PublishBodyFits] using hfits
    have hsmall := (beUint16 msb lsb).toNat_lt
    have hdrop : (field ++ [0]).drop (beUint16 msb lsb).toNat = [] := by
      simp only [List.drop_eq_nil_iff, List.length_append, List.length_cons, List.length_nil]
      omega
    simp only [List.length_cons] at hlen hparse
    have hwrap : 2 ≤ sub32 (sub32 (field.length + 1 + 1) 2) (beUint16 msb lsb).toNat := by
      rw [sub32_of_le (by omega) hlen, sub32_of_lt (by omega)]
      omega
    simp only [parsePublishPacket, TcpConn.withInput_inBuffer, List.cons_append,
      tmqBufferRead16_cons_cons, tmqBufferReadStr_snd, hdrop, Option.bind_eq_bind,
      Option.bind_some] at hparse
    obtain ⟨hok, hempty⟩ := parsePublishRest_nil (by exact_mod_cast hwrap) hparse
    rcases hresult with hstatus | hinput
    · exact hstatus hok
    · simp [hempty] at hinput
/-! ### SUBSCRIBE, UNSUBSCRIBE and SUBACK -/

/-- The loop of `parse_subscribe_packet` ends at the end of a body that its
filters tile, or it refuses a QoS inside; what comes behind the body plays no
part. -/
theorem parseTopicFilters_of_fits {body : Bytes} (hlen : body.length < 2 ^ 32)
    (hfits : TopicFiltersFit body) :
    ∃ status topics, ∀ fuel rest, body.length < fuel →
      ∃ left, parseTopicFilters fuel body.length (body ++ rest) = some (status, topics, left) ∧
        (status = .decodeOk → left = rest) := by
  fun_induction TopicFiltersFit body with
  | case1 =>
      refine ⟨.decodeOk, [], fun fuel rest hfuel => ⟨rest, ?_, fun _ => rfl⟩⟩
      obtain ⟨fuel, rfl⟩ := Nat.exists_eq_add_one_of_ne_zero (Nat.ne_zero_of_lt hfuel)
      simp [parseTopicFilters]
  | case2 => exact hfits.elim
  | case3 msb lsb field hdrop => exact hfits.elim
  | case4 msb lsb field qos tail hdrop ih =>
      have hfieldLen := congrArg List.length hdrop
      simp only [List.length_drop, List.length_cons] at hfieldLen hlen
      have hnext : sub32 (field.length + 1 + 1) (2 + (beUint16 msb lsb).toNat + 1) =
          tail.length := by
        rw [sub32_of_le (by omega) hlen]
        omega
      have hread := fun rest => tmqBufferReadStr_append field rest (beUint16 msb lsb).toNat (by omega)
      by_cases hqos : qos > 2
      · refine ⟨.protocolError, [], fun fuel rest hfuel => ⟨tail ++ rest, ?_, by simp⟩⟩
        obtain ⟨fuel, rfl⟩ := Nat.exists_eq_add_one_of_ne_zero (Nat.ne_zero_of_lt hfuel)
        simp [-tmqBufferReadStr_snd, parseTopicFilters, hread, hdrop, hqos]
      · obtain ⟨status, topics, htail⟩ := ih (by omega) (hfits.resolve_left hqos)
        refine ⟨status, ⟨field.take (beUint16 msb lsb).toNat, qos⟩ :: topics, ?_⟩
        intro fuel rest hfuel
        obtain ⟨fuel, rfl⟩ := Nat.exists_eq_add_one_of_ne_zero (Nat.ne_zero_of_lt hfuel)
        simp only [List.length_cons] at hfuel
        obtain ⟨left, hparse, hleft⟩ := htail fuel rest (by omega)
        refine ⟨left, ?_, hleft⟩
        simp [-tmqBufferReadStr_snd, parseTopicFilters, hread, hdrop, hqos, hnext, hparse]

/-- The converse: on the body alone the loop has a result only when the filters
tile the body or one of them is refused. -/
theorem topicFiltersFit_of_parse {body : Bytes} (hlen : body.length < 2 ^ 32) {fuel : Nat}
    {result : DecodeStatus × List TopicFilterQos × Bytes}
    (hparse : parseTopicFilters fuel body.length body = some result) :
    TopicFiltersFit body := by
  induction fuel generalizing body result with
  | zero => simp [parseTopicFilters] at hparse
  | succ fuel ih =>
      rcases body with _ | ⟨msb, _ | ⟨lsb, field⟩⟩
      · simp [TopicFiltersFit]
      · simp [parseTopicFilters] at hparse
      · simp only [List.length_cons] at hlen
        rw [TopicFiltersFit]
        split
        · next hdrop =>
            have hfield : field.length ≤ (beUint16 msb lsb).toNat := by simpa using hdrop
            have hsmall := (beUint16 msb lsb).toNat_lt
            have hnext : sub32 (field.length + 1 + 1) (2 + (beUint16 msb lsb).toNat + 1) ≠ 0 := by
              rw [sub32_of_lt (by omega)]
              omega
            cases fuel with
            | zero => simp [parseTopicFilters, hdrop] at hparse
            | succ fuel => simp [parseTopicFilters, hdrop, hnext] at hparse
        · next qos tail hdrop =>
            by_cases hqos : qos > 2
            · exact Or.inl hqos
            · right
              have hfieldLen := congrArg List.length hdrop
              simp only [List.length_drop, List.length_cons] at hfieldLen
              have hnext : sub32 (field.length + 1 + 1) (2 + (beUint16 msb lsb).toNat + 1) =
                  tail.length := by
                rw [sub32_of_le (by omega) hlen]
                omega
              simp only [parseTopicFilters, List.length_cons, Nat.add_eq_zero_iff, one_ne_zero,
                and_false, ↓reduceIte, tmqBufferRead16_cons_cons, tmqBufferReadStr_snd, hdrop,
                tmqBufferRead8_cons, Option.getD_some, hqos, hnext, Option.bind_eq_bind,
                Option.bind_some] at hparse
              cases htail : parseTopicFilters fuel tail.length tail with
              | none => simp [htail] at hparse
              | some result => exact ih (by omega) htail

/-- The same for the loop of `parse_unsubscribe_packet`, whose filters have no
QoS. -/
theorem parseFilters_of_fits {body : Bytes} (hlen : body.length < 2 ^ 32)
    (hfits : FiltersFit body) :
    ∃ topics, ∀ fuel rest, body.length < fuel →
      parseFilters fuel body.length (body ++ rest) = some (topics, rest) := by
  fun_induction FiltersFit body with
  | case1 =>
      refine ⟨[], fun fuel rest hfuel => ?_⟩
      obtain ⟨fuel, rfl⟩ := Nat.exists_eq_add_one_of_ne_zero (Nat.ne_zero_of_lt hfuel)
      simp [parseFilters]
  | case2 => exact hfits.elim
  | case3 msb lsb field ih =>
      obtain ⟨hfield, htailFits⟩ := hfits
      simp only [List.length_cons] at hlen
      have hread := fun rest => tmqBufferReadStr_append field rest (beUint16 msb lsb).toNat hfield
      have hnext : sub32 (field.length + 1 + 1) (2 + (beUint16 msb lsb).toNat) =
          (field.drop (beUint16 msb lsb).toNat).length := by
        rw [sub32_of_le (by omega) hlen, List.length_drop]
        omega
      obtain ⟨topics, htail⟩ := ih (by rw [List.length_drop]; omega) htailFits
      refine ⟨field.take (beUint16 msb lsb).toNat :: topics, fun fuel rest hfuel => ?_⟩
      obtain ⟨fuel, rfl⟩ := Nat.exists_eq_add_one_of_ne_zero (Nat.ne_zero_of_lt hfuel)
      simp only [List.length_cons] at hfuel
      have hparse := htail fuel rest (by rw [List.length_drop]; omega)
      simp only [parseFilters, List.length_cons, Nat.add_eq_zero_iff, one_ne_zero, and_false,
        ↓reduceIte, List.cons_append, tmqBufferRead16_cons_cons, Option.bind_eq_bind,
        Option.bind_some, hread, hnext, hparse, Option.pure_def]

theorem filtersFit_of_parse {body : Bytes} (hlen : body.length < 2 ^ 32) {fuel : Nat}
    {result : List Bytes × Bytes}
    (hparse : parseFilters fuel body.length body = some result) :
    FiltersFit body := by
  induction fuel generalizing body result with
  | zero => simp [parseFilters] at hparse
  | succ fuel ih =>
      rcases body with _ | ⟨msb, _ | ⟨lsb, field⟩⟩
      · simp [FiltersFit]
      · simp [parseFilters] at hparse
      · simp only [List.length_cons] at hlen
        simp only [parseFilters, List.length_cons, Nat.add_eq_zero_iff, one_ne_zero, and_false,
          ↓reduceIte, tmqBufferRead16_cons_cons, tmqBufferReadStr_snd, Option.bind_eq_bind,
          Option.bind_some] at hparse
        by_cases hfield : (beUint16 msb lsb).toNat ≤ field.length
        · have hnext : sub32 (field.length + 1 + 1) (2 + (beUint16 msb lsb).toNat) =
              (field.drop (beUint16 msb lsb).toNat).length := by
            rw [sub32_of_le (by omega) hlen, List.length_drop]
            omega
          rw [hnext] at hparse
          rw [FiltersFit]
          refine ⟨hfield, ?_⟩
          cases htail : parseFilters fuel (field.drop (beUint16 msb lsb).toNat).length
              (field.drop (beUint16 msb lsb).toNat) with
          | none =>
              rw [htail] at hparse
              simp at hparse
          | some result => exact ih (by rw [List.length_drop]; omega) htail
        · have hsmall := (beUint16 msb lsb).toNat_lt
          have hdrop : field.drop (beUint16 msb lsb).toNat = [] := by
            rw [List.drop_eq_nil_iff]
            omega
          have hnext : sub32 (field.length + 1 + 1) (2 + (beUint16 msb lsb).toNat) ≠ 0 := by
            rw [sub32_of_lt (by omega)]
            omega
          cases fuel with
          | zero => simp [parseFilters] at hparse
          | succ fuel => simp [parseFilters, hdrop, hnext] at hparse

/-- The loop of `parse_suback_packet` takes one byte in every round, so it reads
as many bytes as it is told. -/
theorem parseReturnCodes_append (codes rest : Bytes) :
    parseReturnCodes codes.length (codes ++ rest) = some (codes, rest) := by
  induction codes with
  | nil => rfl
  | cons code codes ih => simp [parseReturnCodes, ih]

theorem length_le_of_parseReturnCodes {n : Nat} {buffer : Bytes} {result : List UInt8 × Bytes}
    (hparse : parseReturnCodes n buffer = some result) : n ≤ buffer.length := by
  induction n generalizing buffer result with
  | zero => exact Nat.zero_le _
  | succ n ih =>
      cases buffer with
      | nil => simp [parseReturnCodes] at hparse
      | cons code buffer =>
          simp only [parseReturnCodes, tmqBufferRead8_cons, Option.bind_eq_bind,
            Option.bind_some] at hparse
          cases htail : parseReturnCodes n buffer with
          | none => simp [htail] at hparse
          | some result => exact Nat.succ_le_succ (ih htail)

/-- A broker reads a SUBSCRIBE whose filters fit to the end of its body or
refuses a QoS. A client looks at none of it. -/
theorem parseSubscribePacket_framedAs (auth : BrokerAuth) (conn : TcpConn) {body : Bytes}
    (hlen : body.length < 2 ^ 32)
    (hfits : conn.codecType = .server → 2 ≤ body.length ∧ TopicFiltersFit (body.drop 2)) :
    ∃ status next, FramedAs
      (fun buffer => parseSubscribePacket auth (conn.withInput buffer) body.length) body
      status next := by
  by_cases hserver : conn.codecType = .server
  · obtain ⟨hid, htopicsFit⟩ := hfits hserver
    rcases body with _ | ⟨msb, _ | ⟨lsb, filters⟩⟩
    · simp at hid
    · simp at hid
    · simp only [List.length_cons, List.drop_succ_cons, List.drop_zero] at hlen htopicsFit ⊢
      have hfiltersLen : sub32 (filters.length + 1 + 1) 2 = filters.length := by
        rw [sub32_of_le (by omega) hlen]
        omega
      obtain ⟨status, topics, hparse⟩ := parseTopicFilters_of_fits (by omega) htopicsFit
      by_cases hok : status = .decodeOk
      · refine ⟨.decodeOk, conn.call (.onSubscribe conn.upstream ⟨beUint16 msb lsb, topics⟩),
          fun rest => ⟨rest, ?_, fun _ => rfl⟩⟩
        obtain ⟨left, hread, hleft⟩ := hparse ((filters ++ rest).length + 1) rest
          (by simp)
        obtain rfl := hleft hok
        simp [-List.length_append, parseSubscribePacket, hserver, hfiltersLen, hread, hok,
          TcpConn.call_withInput]
      · refine ⟨status, conn, fun rest => ?_⟩
        obtain ⟨left, hread, -⟩ := hparse ((filters ++ rest).length + 1) rest
          (by simp)
        refine ⟨left, ?_, fun h => (hok h).elim⟩
        simp [-List.length_append, parseSubscribePacket, hserver, hfiltersLen, hread, hok]
  · exact ⟨.unexpectedPacket, conn, fun rest => ⟨body ++ rest,
      by simp [parseSubscribePacket, hserver], by simp⟩⟩

/-- A SUBSCRIBE that is read to the end of its body or refused, whatever comes
behind it, is an identifier and filters that fit. -/
theorem topicFiltersFit_of_consumes (auth : BrokerAuth) (conn : TcpConn) {body : Bytes}
    (hlen : body.length < 2 ^ 32) (hserver : conn.codecType = .server)
    (hconsumes : Consumes
      (fun buffer => parseSubscribePacket auth (conn.withInput buffer) body.length) body) :
    2 ≤ body.length ∧ TopicFiltersFit (body.drop 2) := by
  obtain ⟨status, next, hparse, -⟩ := hconsumes []
  rcases body with _ | ⟨msb, _ | ⟨lsb, filters⟩⟩
  · simp [parseSubscribePacket, hserver, parseTopicFilters, sub32] at hparse
  · simp [parseSubscribePacket, hserver, parseTopicFilters, sub32] at hparse
  · simp only [List.length_cons, List.drop_succ_cons, List.drop_zero] at hlen hparse ⊢
    have hfiltersLen : sub32 (filters.length + 1 + 1) 2 = filters.length := by
      rw [sub32_of_le (by omega) hlen]
      omega
    refine ⟨by omega, ?_⟩
    cases hread : parseTopicFilters (filters.length + 1) filters.length filters with
    | none => simp [parseSubscribePacket, hserver, hfiltersLen, hread] at hparse
    | some result => exact topicFiltersFit_of_parse (by omega) hread

/-- A broker reads an UNSUBSCRIBE of whole filters to the end of its body. A
client looks at none of it. -/
theorem parseUnsubscribePacket_framedAs (auth : BrokerAuth) (conn : TcpConn) {body : Bytes}
    (hlen : body.length < 2 ^ 32)
    (hfits : conn.codecType = .server → 2 ≤ body.length ∧ FiltersFit (body.drop 2)) :
    ∃ status next, FramedAs
      (fun buffer => parseUnsubscribePacket auth (conn.withInput buffer) body.length) body
      status next := by
  by_cases hserver : conn.codecType = .server
  · obtain ⟨hid, hfiltersFit⟩ := hfits hserver
    rcases body with _ | ⟨msb, _ | ⟨lsb, filters⟩⟩
    · simp at hid
    · simp at hid
    · simp only [List.length_cons, List.drop_succ_cons, List.drop_zero] at hlen hfiltersFit ⊢
      have hfiltersLen : sub32 (filters.length + 1 + 1) 2 = filters.length := by
        rw [sub32_of_le (by omega) hlen]
        omega
      obtain ⟨topics, hparse⟩ := parseFilters_of_fits (by omega) hfiltersFit
      refine ⟨.decodeOk, conn.call (.onUnsubscribe conn.upstream ⟨beUint16 msb lsb, topics⟩),
        fun rest => ⟨rest, ?_, fun _ => rfl⟩⟩
      have hread := hparse ((filters ++ rest).length + 1) rest (by simp)
      simp [-List.length_append, parseUnsubscribePacket, hserver, hfiltersLen, hread,
        TcpConn.call_withInput]
  · exact ⟨.unexpectedPacket, conn, fun rest => ⟨body ++ rest,
      by simp [parseUnsubscribePacket, hserver], by simp⟩⟩

theorem filtersFit_of_consumes (auth : BrokerAuth) (conn : TcpConn) {body : Bytes}
    (hlen : body.length < 2 ^ 32) (hserver : conn.codecType = .server)
    (hconsumes : Consumes
      (fun buffer => parseUnsubscribePacket auth (conn.withInput buffer) body.length) body) :
    2 ≤ body.length ∧ FiltersFit (body.drop 2) := by
  obtain ⟨status, next, hparse, -⟩ := hconsumes []
  rcases body with _ | ⟨msb, _ | ⟨lsb, filters⟩⟩
  · simp [parseUnsubscribePacket, hserver, parseFilters, sub32] at hparse
  · simp [parseUnsubscribePacket, hserver, parseFilters, sub32] at hparse
  · simp only [List.length_cons, List.drop_succ_cons, List.drop_zero] at hlen hparse ⊢
    have hfiltersLen : sub32 (filters.length + 1 + 1) 2 = filters.length := by
      rw [sub32_of_le (by omega) hlen]
      omega
    refine ⟨by omega, ?_⟩
    cases hread : parseFilters (filters.length + 1) filters.length filters with
    | none => simp [parseUnsubscribePacket, hserver, hfiltersLen, hread] at hparse
    | some result => exact filtersFit_of_parse (by omega) hread

/-- A client reads a SUBACK to the end of its body when the identifier lies
inside; a broker refuses it. -/
theorem parseSubackPacket_framedAs (auth : BrokerAuth) (conn : TcpConn) {body : Bytes}
    (hlen : body.length < 2 ^ 32) (hfits : conn.codecType = .client → 2 ≤ body.length) :
    ∃ status next, FramedAs
      (fun buffer => parseSubackPacket auth (conn.withInput buffer) body.length) body
      status next := by
  by_cases hclient : conn.codecType = .client
  · have hid := hfits hclient
    rcases body with _ | ⟨msb, _ | ⟨lsb, codes⟩⟩
    · simp at hid
    · simp at hid
    · simp only [List.length_cons] at hlen ⊢
      have hcodesLen : sub32 (codes.length + 1 + 1) 2 = codes.length := by
        rw [sub32_of_le (by omega) hlen]
        omega
      refine ⟨.decodeOk, conn.call (.onSubAck conn.upstream ⟨beUint16 msb lsb, codes⟩),
        fun rest => ⟨rest, ?_, fun _ => rfl⟩⟩
      simp [parseSubackPacket, hclient, hcodesLen, parseReturnCodes_append,
        TcpConn.call_withInput]
  · exact ⟨.unexpectedPacket, conn, fun rest => ⟨body ++ rest,
      by simp [parseSubackPacket, hclient], by simp⟩⟩

theorem length_of_parseSubackPacket_consumes (auth : BrokerAuth) (conn : TcpConn) {body : Bytes}
    (hclient : conn.codecType = .client)
    (hconsumes : Consumes
      (fun buffer => parseSubackPacket auth (conn.withInput buffer) body.length) body) :
    2 ≤ body.length := by
  obtain ⟨status, next, hparse, -⟩ := hconsumes []
  rcases body with _ | ⟨msb, _ | ⟨lsb, codes⟩⟩
  · cases hread : parseReturnCodes (sub32 0 2) [] with
    | none => simp [parseSubackPacket, hclient, hread] at hparse
    | some result =>
        have hle := length_le_of_parseReturnCodes hread
        simp [sub32] at hle
  · cases hread : parseReturnCodes (sub32 1 2) [] with
    | none => simp [parseSubackPacket, hclient, hread] at hparse
    | some result =>
        have hle := length_le_of_parseReturnCodes hread
        simp [sub32] at hle
  · simp

/-! ### CONNECT -/

theorem skipFields_add (j k : Nat) (body : Bytes) :
    skipFields (j + k) body = (skipFields j body).bind (skipFields k) := by
  induction j generalizing body with
  | zero => simp [skipFields]
  | succ j ih =>
      rw [Nat.add_right_comm]
      rcases body with _ | ⟨msb, _ | ⟨lsb, rest⟩⟩
      · rfl
      · rfl
      · simp only [skipFields]
        split
        · exact ih _
        · rfl

/-- A field that can be skipped in the body is read from it, also with more
bytes behind the body. -/
theorem skipFields_one_append {body tail : Bytes} (hskip : skipFields 1 body = some tail) :
    ∃ field, ∀ rest, readLengthPrefixed (body ++ rest) = some (field, tail ++ rest) := by
  rcases body with _ | ⟨msb, _ | ⟨lsb, field⟩⟩
  · simp [skipFields] at hskip
  · simp [skipFields] at hskip
  · by_cases hfield : (beUint16 msb lsb).toNat ≤ field.length
    · simp only [skipFields, hfield, ↓reduceIte, Option.some.injEq] at hskip
      subst hskip
      exact ⟨field.take (beUint16 msb lsb).toNat, fun rest => by
        simp [-tmqBufferReadStr_snd, readLengthPrefixed, tmqBufferReadStr_append _ _ _ hfield]⟩
    · simp [skipFields, hfield] at hskip

theorem readLengthPrefixedIf_append {flag : Bool} {body tail : Bytes}
    (hskip : skipFields (if flag then 1 else 0) body = some tail) :
    ∃ field, ∀ rest, readLengthPrefixedIf flag (body ++ rest) = some (field, tail ++ rest) := by
  cases flag with
  | false =>
      simp only [Bool.false_eq_true, ↓reduceIte, skipFields, Option.some.injEq] at hskip
      subst hskip
      exact ⟨none, fun rest => rfl⟩
  | true =>
      obtain ⟨field, hread⟩ := skipFields_one_append hskip
      exact ⟨some field, fun rest => by simp [readLengthPrefixedIf, hread]⟩

theorem readWillIf_append {flag : Bool} {body tail : Bytes}
    (hskip : skipFields (if flag then 2 else 0) body = some tail) :
    ∃ fields, ∀ rest, readWillIf flag (body ++ rest) = some (fields, tail ++ rest) := by
  cases flag with
  | false =>
      simp only [Bool.false_eq_true, ↓reduceIte, skipFields, Option.some.injEq] at hskip
      subst hskip
      exact ⟨(none, none), fun rest => rfl⟩
  | true =>
      rcases body with _ | ⟨msb, _ | ⟨lsb, field⟩⟩
      · simp [skipFields] at hskip
      · simp [skipFields] at hskip
      · by_cases htopic : (beUint16 msb lsb).toNat ≤ field.length
        · simp only [skipFields, htopic, ↓reduceIte] at hskip
          generalize hmessage : field.drop (beUint16 msb lsb).toNat = message at hskip
          rcases message with _ | ⟨msb', _ | ⟨lsb', field'⟩⟩
          · simp [skipFields] at hskip
          · simp [skipFields] at hskip
          · by_cases hfield : (beUint16 msb' lsb').toNat ≤ field'.length
            · simp only [skipFields, hfield, ↓reduceIte, Option.some.injEq] at hskip
              subst hskip
              refine ⟨(some (field.take (beUint16 msb lsb).toNat),
                some (field'.take (beUint16 msb' lsb').toNat)), fun rest => ?_⟩
              simp [-tmqBufferReadStr_snd, readWillIf, tmqBufferReadStr_append _ _ _ htopic,
                hmessage, tmqBufferRead16Into, tmqBufferReadStr_append _ _ _ hfield]
            · simp [skipFields, hfield] at hskip
        · simp [skipFields, htopic] at hskip

/-- When the fields that the flags announce end with the body, they are read
from it, and what comes behind the body stays. -/
theorem parseConnectFields_append {flags : UInt8} (keepAlive : UInt16) {clientIdLen : UInt16}
    {body : Bytes}
    (hclientId : clientIdLen.toNat ≤ body.length)
    (hskip : skipFields (connectFieldCount flags) (body.drop clientIdLen.toNat) = some []) :
    ∃ pkt, ∀ rest,
      parseConnectFields flags (some keepAlive) clientIdLen (body ++ rest) = some (pkt, rest) := by
  unfold connectFieldCount at hskip
  rw [skipFields_add, skipFields_add] at hskip
  obtain ⟨afterUsername, hskip, hpassword⟩ := Option.bind_eq_some_iff.mp hskip
  obtain ⟨afterWill, hwill, husername⟩ := Option.bind_eq_some_iff.mp hskip
  obtain ⟨will, hreadWill⟩ := readWillIf_append hwill
  obtain ⟨username, hreadUsername⟩ := readLengthPrefixedIf_append husername
  obtain ⟨password, hreadPassword⟩ := readLengthPrefixedIf_append hpassword
  by_cases hempty : clientIdLen.toNat > 0
  · refine ⟨⟨flags, keepAlive, some (body.take clientIdLen.toNat), will.1, will.2, username,
      password⟩, fun rest => ?_⟩
    simp [-tmqBufferReadStr_snd, parseConnectFields, hempty,
      tmqBufferReadStr_append _ _ _ hclientId, hreadWill, hreadUsername, hreadPassword]
  · refine ⟨⟨flags, keepAlive, none, will.1, will.2, username, password⟩, fun rest => ?_⟩
    have hzero : clientIdLen.toNat = 0 := by omega
    simp only [hzero, List.drop_zero] at hreadWill
    simp [parseConnectFields, hzero, hreadWill, hreadUsername, hreadPassword]

/-- What a read may leave of `start ++ [0]`: nothing, or a part of `start`
with the last byte in place. -/
def LeavesOf (start : Option Bytes) (left : Bytes) : Prop :=
  left = [] ∨ ∃ tail, start = some tail ∧ left = tail ++ [0]

/-- Reading one more field: its length stood at the front, or the buffer was
too short for it and is empty now. -/
theorem LeavesOf.field {start : Option Bytes} {left rest : Bytes} {n : Nat}
    (hleaves : LeavesOf start left)
    (hlength : rest = [] ∨ ∃ msb lsb, left = msb :: lsb :: rest ∧ n = (beUint16 msb lsb).toNat) :
    LeavesOf (start.bind (skipFields 1)) (rest.drop n) := by
  rcases hlength with rfl | ⟨msb, lsb, hleft, rfl⟩
  · exact Or.inl List.drop_nil
  · rcases hleaves with rfl | ⟨tail, rfl, rfl⟩
    · simp at hleft
    · rcases tail with _ | ⟨msb', _ | ⟨lsb', field⟩⟩
      · simp at hleft
      · simp only [List.cons_append, List.nil_append, List.cons.injEq] at hleft
        obtain ⟨-, -, rfl⟩ := hleft
        exact Or.inl List.drop_nil
      · simp only [List.cons_append, List.cons.injEq] at hleft
        obtain ⟨rfl, rfl, rfl⟩ := hleft
        by_cases hfield : (beUint16 msb' lsb').toNat ≤ field.length
        · right
          exact ⟨field.drop (beUint16 msb' lsb').toNat, by simp [skipFields, hfield],
            List.drop_append_of_le_length hfield⟩
        · left
          simp only [List.drop_eq_nil_iff, List.length_append, List.length_cons,
            List.length_nil]
          omega

theorem skipFields_zero : skipFields 0 = some := funext fun _ => rfl

/-- Reading a field that may be absent leaves nothing, or what skipping the
field leaves with the last byte in place. -/
theorem LeavesOf.readLengthPrefixedIf {start : Option Bytes} {left left' : Bytes} {flag : Bool}
    {field : Option Bytes} (hleaves : LeavesOf start left)
    (hread : readLengthPrefixedIf flag left = some (field, left')) :
    LeavesOf (start.bind (skipFields (if flag then 1 else 0))) left' := by
  cases flag with
  | false =>
      simp only [TinyMqtt.readLengthPrefixedIf, Bool.false_eq_true, ↓reduceIte, Option.some.injEq,
        Prod.mk.injEq] at hread
      obtain ⟨-, rfl⟩ := hread
      simpa [skipFields_zero] using hleaves
  | true =>
      rcases left with _ | ⟨msb, _ | ⟨lsb, rest⟩⟩
      · simp [TinyMqtt.readLengthPrefixedIf, readLengthPrefixed] at hread
      · simp [TinyMqtt.readLengthPrefixedIf, readLengthPrefixed] at hread
      · simp only [TinyMqtt.readLengthPrefixedIf, readLengthPrefixed, ↓reduceIte,
          tmqBufferRead16_cons_cons, Option.bind_eq_bind, Option.bind_some, Option.pure_def,
          Option.some.injEq, Prod.mk.injEq, tmqBufferReadStr_snd] at hread
        obtain ⟨-, rfl⟩ := hread
        exact hleaves.field (Or.inr ⟨msb, lsb, rfl, rfl⟩)

theorem LeavesOf.readWillIf {start : Option Bytes} {left left' : Bytes} {flag : Bool}
    {fields : Option Bytes × Option Bytes} (hleaves : LeavesOf start left)
    (hread : readWillIf flag left = some (fields, left')) :
    LeavesOf (start.bind (skipFields (if flag then 2 else 0))) left' := by
  cases flag with
  | false =>
      simp only [TinyMqtt.readWillIf, Bool.false_eq_true, ↓reduceIte, Option.some.injEq,
        Prod.mk.injEq] at hread
      obtain ⟨-, rfl⟩ := hread
      simpa [skipFields_zero] using hleaves
  | true =>
      have htwo : skipFields 2 = fun body => (skipFields 1 body).bind (skipFields 1) :=
        funext fun body => skipFields_add 1 1 body
      rcases left with _ | ⟨msb, _ | ⟨lsb, rest⟩⟩
      · simp [TinyMqtt.readWillIf] at hread
      · simp [TinyMqtt.readWillIf] at hread
      · have htopic := hleaves.field (Or.inr ⟨msb, lsb, rfl, rfl⟩)
        simp only [TinyMqtt.readWillIf, ↓reduceIte, tmqBufferRead16_cons_cons,
          Option.bind_eq_bind, Option.bind_some, Option.pure_def, Option.some.injEq,
          Prod.mk.injEq, tmqBufferReadStr_snd] at hread
        obtain ⟨-, rfl⟩ := hread
        simp only [↓reduceIte, htwo, ← Option.bind_assoc]
        refine htopic.field ?_
        generalize rest.drop (beUint16 msb lsb).toNat = message
        rcases message with _ | ⟨msb', _ | ⟨lsb', message⟩⟩
        · exact Or.inl rfl
        · exact Or.inl rfl
        · exact Or.inr ⟨msb', lsb', rfl, rfl⟩

/-- The same for all the fields of a CONNECT behind the client identifier. -/
theorem parseConnectFields_leavesOf {flags : UInt8} {keepAlive : Option UInt16}
    {clientIdLen : UInt16} {start : Option Bytes} {buffer left : Bytes} {pkt : ConnectPkt}
    (hleaves : LeavesOf start (buffer.drop clientIdLen.toNat))
    (hparse : parseConnectFields flags keepAlive clientIdLen buffer = some (pkt, left)) :
    LeavesOf (start.bind (skipFields (connectFieldCount flags))) left := by
  have hclientId : ∀ buffer' clientId',
      (if clientIdLen.toNat > 0 then
        (some (tmqBufferReadStr buffer clientIdLen.toNat).1,
          (tmqBufferReadStr buffer clientIdLen.toNat).2)
      else (none, buffer)) = (clientId', buffer') → buffer' = buffer.drop clientIdLen.toNat := by
    intro buffer' clientId' hif
    split at hif
    · simp only [Prod.mk.injEq] at hif
      exact hif.2.symm
    · simp only [Prod.mk.injEq] at hif
      have hzero : clientIdLen.toNat = 0 := by omega
      rw [hzero, List.drop_zero, hif.2]
  unfold parseConnectFields at hparse
  split at hparse
  next clientId afterClientId hif =>
    obtain rfl := hclientId _ _ hif
    simp only [Option.bind_eq_bind, Option.bind_eq_some_iff, Option.pure_def, Option.some.injEq,
      Prod.mk.injEq] at hparse
    obtain ⟨⟨will, afterWill⟩, hwill, ⟨username, afterUsername⟩, husername,
      ⟨password, afterPassword⟩, hpassword, keepAlive', -, -, rfl⟩ := hparse
    have hleavesWill := hleaves.readWillIf hwill
    have hleavesUsername := hleavesWill.readLengthPrefixedIf husername
    have hleavesPassword := hleavesUsername.readLengthPrefixedIf hpassword
    have hcount : skipFields (connectFieldCount flags) = fun body =>
        ((skipFields (if connectWillFlag flags then 2 else 0) body).bind
          (skipFields (if connectUsernameFlag flags then 1 else 0))).bind
          (skipFields (if connectPasswordFlag flags then 1 else 0)) := by
      funext body
      rw [connectFieldCount, skipFields_add, skipFields_add]
    rw [hcount]
    simpa only [Option.bind_assoc] using hleavesPassword

/-- A CONNECT that leaves just the byte behind its body has its fields end with
the body. One byte more is enough to tell. -/
theorem skipFields_of_parseConnectFields {flags : UInt8} {keepAlive : Option UInt16}
    {clientIdLen : UInt16} {body : Bytes} {pkt : ConnectPkt}
    (hparse : parseConnectFields flags keepAlive clientIdLen (body ++ [0]) = some (pkt, [0])) :
    clientIdLen.toNat ≤ body.length ∧
      skipFields (connectFieldCount flags) (body.drop clientIdLen.toNat) = some [] := by
  have hleaves : LeavesOf
      (if clientIdLen.toNat ≤ body.length then some (body.drop clientIdLen.toNat) else none)
      ((body ++ [0]).drop clientIdLen.toNat) := by
    by_cases hlen : clientIdLen.toNat ≤ body.length
    · right
      exact ⟨_, if_pos hlen, List.drop_append_of_le_length hlen⟩
    · left
      simp only [List.drop_eq_nil_iff, List.length_append, List.length_cons, List.length_nil]
      omega
  rcases parseConnectFields_leavesOf hleaves hparse with hnil | ⟨tail, htail, hzero⟩
  · simp at hnil
  · have htailNil : tail = [] := by simpa using hzero
    subst htailNil
    by_cases hlen : clientIdLen.toNat ≤ body.length
    · rw [if_pos hlen, Option.bind_some] at htail
      exact ⟨hlen, htail⟩
    · simp [hlen] at htail

/-- From the connect flags on: when the flags are refused or the payload fits,
the body alone determines what the parser does. -/
theorem parseConnectPayload_framedAs (auth : BrokerAuth) (conn : TcpConn) (flags : UInt8)
    {body : Bytes} (hfits : !connectFlagsValid flags ∨ ConnectPayloadFits flags body) :
    ∃ status next, FramedAs (parseConnectPayload auth conn flags) body status next := by
  by_cases hvalid : connectFlagsValid flags
  · have hpayload : ConnectPayloadFits flags body := by simpa [hvalid] using hfits
    rcases body with _ | ⟨ka, _ | ⟨ka', _ | ⟨msb, _ | ⟨lsb, fields⟩⟩⟩⟩
    · exact hpayload.elim
    · exact hpayload.elim
    · exact hpayload.elim
    · exact hpayload.elim
    · by_cases hrejected : (beUint16 msb lsb).toNat = 0 ∧ !connectCleanSession flags
      · refine ⟨.protocolError, conn.send (.connack ⟨0, identifierRejected⟩),
          fun rest => ⟨fields ++ rest, ?_, by simp⟩⟩
        simp [parseConnectPayload, hvalid, hrejected, TcpConn.send_withInput]
      · obtain ⟨hlen, hskip⟩ := hpayload.resolve_left hrejected
        obtain ⟨pkt, hfields⟩ := parseConnectFields_append (beUint16 ka ka') hlen hskip
        refine ⟨.decodeOk, mqttConnect auth
          ({ conn with connState := .startingSession }.call (.onConnect conn.upstream pkt)) pkt,
          fun rest => ⟨rest, ?_, fun _ => rfl⟩⟩
        simp [parseConnectPayload, hvalid, hfields, TcpConn.call_withInput,
          mqttConnect_withInput]
        simpa using hrejected
  · refine ⟨.protocolError, conn, fun rest => ⟨body ++ rest, ?_, by simp⟩⟩
    simp [parseConnectPayload, hvalid]

theorem connectPayloadFits_of_consumes (auth : BrokerAuth) (conn : TcpConn) (flags : UInt8)
    {body : Bytes} (hvalid : connectFlagsValid flags)
    (hconsumes : Consumes (parseConnectPayload auth conn flags) body) :
    ConnectPayloadFits flags body := by
  rcases body with _ | ⟨ka, _ | ⟨ka', _ | ⟨msb, _ | ⟨lsb, fields⟩⟩⟩⟩
  · obtain ⟨status, next, hparse, -⟩ := hconsumes []
    simp [parseConnectPayload, hvalid] at hparse
  · obtain ⟨status, next, hparse, -⟩ := hconsumes []
    simp [parseConnectPayload, hvalid] at hparse
  · obtain ⟨status, next, hparse, -⟩ := hconsumes []
    simp [parseConnectPayload, hvalid] at hparse
  · obtain ⟨status, next, hparse, -⟩ := hconsumes []
    simp [parseConnectPayload, hvalid] at hparse
  · obtain ⟨status, next, hparse, hresult⟩ := hconsumes [0]
    by_cases hrejected : (beUint16 msb lsb).toNat = 0 ∧ !connectCleanSession flags
    · exact Or.inl hrejected
    · right
      cases hfields : parseConnectFields flags (some (beUint16 ka ka')) (beUint16 msb lsb)
          (fields ++ [0]) with
      | none =>
          simp only [parseConnectPayload, hvalid, hrejected, hfields, List.cons_append,
            tmqBufferRead16_cons_cons, Bool.not_true, Bool.false_eq_true, ↓reduceIte,
            Option.bind_eq_bind, Option.bind_some, Option.bind_none, reduceCtorEq] at hparse
      | some result =>
          obtain ⟨pkt, left⟩ := result
          simp only [parseConnectPayload, hvalid, hrejected, hfields, List.cons_append,
            tmqBufferRead16_cons_cons, Bool.not_true, Bool.false_eq_true, ↓reduceIte,
            Option.bind_eq_bind, Option.bind_some, Option.pure_def, Option.some.injEq,
            Prod.mk.injEq, TcpConn.call_withInput, mqttConnect_withInput] at hparse
          obtain ⟨rfl, rfl⟩ := hparse
          have hleft : left = [0] := by simpa using hresult
          subst hleft
          exact skipFields_of_parseConnectFields hfields

@[simp] theorem parseConnectLevel_withInput (auth : BrokerAuth) (conn : TcpConn)
    (input buffer : Bytes) :
    parseConnectLevel auth (conn.withInput input) buffer =
      parseConnectLevel auth conn buffer := rfl

theorem parseConnectLevel_framedAs (auth : BrokerAuth) (conn : TcpConn) {body : Bytes}
    (hfits : ConnectLevelFits body) :
    ∃ status next, FramedAs (parseConnectLevel auth conn) body status next := by
  rcases body with _ | ⟨level, rest⟩
  · exact hfits.elim
  · by_cases hlevel : level = 4
    · rcases rest with _ | ⟨flags, payload⟩
      · exact (hfits hlevel).elim
      · obtain ⟨status, next, hpayload⟩ :=
          parseConnectPayload_framedAs auth conn flags (hfits.resolve_left (not_not.mpr hlevel))
        refine ⟨status, next, fun rest => ?_⟩
        obtain ⟨left, hparse, hleft⟩ := hpayload rest
        exact ⟨left, by simpa [parseConnectLevel, hlevel] using hparse, hleft⟩
    · refine ⟨.protocolError, conn.send (.connack ⟨0, unacceptableProtocolVersion⟩),
        fun tail => ⟨rest ++ tail, ?_, by simp⟩⟩
      simp [parseConnectLevel, hlevel, TcpConn.send_withInput]

/-- From the protocol level on: what is taken exactly or refused, whatever comes
behind it, has a level or flags that are refused, or a payload that fits. -/
theorem connectLevelFits_of_consumes (auth : BrokerAuth) (conn : TcpConn) {body : Bytes}
    (hconsumes : Consumes (parseConnectLevel auth conn) body) : ConnectLevelFits body := by
  rcases body with _ | ⟨level, _ | ⟨flags, payload⟩⟩
  · obtain ⟨status, next, hparse, -⟩ := hconsumes []
    simp [parseConnectLevel] at hparse
  · intro hlevel
    obtain ⟨status, next, hparse, -⟩ := hconsumes []
    simp [parseConnectLevel, hlevel] at hparse
  · by_cases hlevel : level = 4
    · by_cases hvalid : connectFlagsValid flags
      · refine Or.inr (Or.inr (connectPayloadFits_of_consumes auth conn flags hvalid ?_))
        intro rest
        obtain ⟨status, next, hparse, hresult⟩ := hconsumes rest
        exact ⟨status, next, by simpa [parseConnectLevel, hlevel] using hparse, hresult⟩
      · exact Or.inr (Or.inl (by simpa using hvalid))
    · exact Or.inl hlevel

theorem readName_ne {body : Bytes} (hname : ¬ body.take 4 <+: protocolName) (rest : Bytes) :
    (tmqBufferReadStr (body ++ rest) 4).1 ≠ protocolName := by
  intro heq
  apply hname
  rw [← heq]
  have htake : body.take 4 <+: (body ++ rest).take 4 := by
    rw [List.take_append]
    exact List.prefix_append _ _
  exact htake.trans (List.prefix_append _ _)

/-- A broker reads a CONNECT to the end of its body when its name, its level,
its flags and its fields ask for that; a client refuses it. -/
theorem parseConnectPacket_framedAs (auth : BrokerAuth) (conn : TcpConn) {body : Bytes}
    (hfits : conn.codecType = .server → ConnectBodyFits body) :
    ∃ status next, FramedAs
      (fun buffer => parseConnectPacket auth (conn.withInput buffer) body.length) body
      status next := by
  by_cases hserver : conn.codecType = .server
  · have hbody := hfits hserver
    rcases body with _ | ⟨msb, _ | ⟨lsb, field⟩⟩
    · exact hbody.elim
    · exact hbody.elim
    · by_cases hnameLen : beUint16 msb lsb = 4
      · by_cases hname : field.take 4 <+: protocolName
        · have hlevel : ConnectLevelFits (field.drop 4) := by
            simpa [ConnectBodyFits, hnameLen, hname] using hbody
          have hlen : 4 ≤ field.length := by
            by_contra hshort
            rw [List.drop_eq_nil_of_le (by omega)] at hlevel
            exact hlevel
          have hfull : field.take 4 = protocolName :=
            hname.eq_of_length (by simp [protocolName, hlen])
          obtain ⟨status, next, hrest⟩ := parseConnectLevel_framedAs auth conn hlevel
          refine ⟨status, next, fun rest => ?_⟩
          obtain ⟨left, hparse, hleft⟩ := hrest rest
          refine ⟨left, ?_, hleft⟩
          simpa [-tmqBufferReadStr_snd, parseConnectPacket, hserver, hnameLen,
            tmqBufferReadStr_append _ _ _ hlen, hfull] using hparse
        · refine ⟨.protocolError, conn, fun rest => ⟨(field ++ rest).drop 4, ?_, by simp⟩⟩
          simp [parseConnectPacket, hserver, hnameLen, readName_ne hname rest]
      · refine ⟨.protocolError, conn, fun rest => ⟨field ++ rest, ?_, by simp⟩⟩
        simp [parseConnectPacket, hserver, hnameLen]
  · exact ⟨.unexpectedPacket, conn, fun rest => ⟨body ++ rest,
      by simp [parseConnectPacket, hserver], by simp⟩⟩

/-- The converse for the whole CONNECT, put together from the name, the level
and the payload. -/
theorem connectBodyFits_of_consumes (auth : BrokerAuth) (conn : TcpConn) {body : Bytes}
    (hserver : conn.codecType = .server)
    (hconsumes : Consumes
      (fun buffer => parseConnectPacket auth (conn.withInput buffer) body.length) body) :
    ConnectBodyFits body := by
  rcases body with _ | ⟨msb, _ | ⟨lsb, field⟩⟩
  · obtain ⟨status, next, hparse, -⟩ := hconsumes []
    simp [parseConnectPacket, hserver] at hparse
  · obtain ⟨status, next, hparse, -⟩ := hconsumes []
    simp [parseConnectPacket, hserver] at hparse
  · by_contra hfits
    simp only [ConnectBodyFits, not_or, not_not] at hfits
    obtain ⟨hnameLen, hname, hlevel⟩ := hfits
    by_cases hlen : 4 ≤ field.length
    · have hfull : field.take 4 = protocolName :=
        hname.eq_of_length (by simp [protocolName, hlen])
      apply hlevel
      apply connectLevelFits_of_consumes auth conn
      intro rest
      obtain ⟨status, next, hparse, hresult⟩ := hconsumes rest
      refine ⟨status, next, ?_, hresult⟩
      simpa [-tmqBufferReadStr_snd, parseConnectPacket, hserver, hnameLen,
        tmqBufferReadStr_append _ _ _ hlen, hfull] using hparse
    · rw [List.take_of_length_le (by omega)] at hname
      obtain ⟨missing, hmissing⟩ := hname
      obtain ⟨status, next, hparse, -⟩ := hconsumes missing
      simp only [List.cons_append, hmissing] at hparse
      simp [parseConnectPacket, hserver, hnameLen, protocolName, tmqBufferReadStr,
        tmqBufferRead, parseConnectLevel] at hparse

end TinyMqtt
