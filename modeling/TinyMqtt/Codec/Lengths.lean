import TinyMqtt.Codec.PacketStream

/-!
The length arithmetic of the parsers. Lengths are unsigned 32-bit values that
the source decreases by what the packet itself says, without a check. Where the
inner lengths of a packet are too large for it, the value wraps around: the
payload of a PUBLISH becomes gigabytes long, and the loops over the entries of a
list go on behind the packet.
-/

namespace TinyMqtt

/-! ### PUBLISH -/

theorem received_close (conn : TcpConn) : received conn.close.log = received conn.log := by
  unfold TcpConn.close TcpConn.onClose
  split
  · rfl
  · split
    · rfl
    · by_cases hsession : conn.connState = .inSession <;>
        simp [hsession, received, Event.packet?]

theorem received_tick (conn : TcpConn) : received conn.tick.log = received conn.log := by
  unfold TcpConn.tick
  split
  · rfl
  · exact received_close _
  · rfl

theorem received_call (conn : TcpConn) (e : Event Bytes) :
    received (conn.call e).log = received conn.log ++ e.packet?.toList := by
  rw [TcpConn.call, received_tick, TcpConn.record_log, received, List.filterMap_append]
  cases hpacket : e.packet? <;> simp [received, hpacket]

theorem received_send (conn : TcpConn) (pkt : Packet Bytes) :
    received (conn.send pkt).log = received conn.log := by
  unfold TcpConn.send
  split
  · rfl
  · rw [received_tick]
    simp [received, Event.packet?]

/-- The packet that was read is handed on, and nothing else. -/
theorem received_deliverPublish (conn : TcpConn) (pkt : PublishPkt Bytes) :
    received (deliverPublish conn pkt).log = received conn.log ++ [.publish pkt] := by
  unfold deliverPublish
  split
  · rw [received_call]
    rfl
  · cases publishAck pkt with
    | none => rw [received_call]; rfl
    | some ack => rw [received_call, received_send]; rfl

def packetIdLen (flags : UInt8) : Nat := if publishQos flags ≠ 0 then 2 else 0

/-- A PUBLISH is refused just when its fields do not fit into it. Otherwise its
topic and its payload are cut out of it as its lengths say. No payload is longer
than the packet. The packet is the two bytes of the topic length and `fields`,
and other bytes may follow it in the buffer. -/
structure PublishLengthsExact (auth : BrokerAuth) (conn : TcpConn) (msb lsb : UInt8)
    (fields rest : Bytes) : Prop where
  refused_iff : (∃ next, parsePublishPacket auth (conn.withInput (msb :: lsb :: fields ++ rest))
      (fields.length + 2) = some (.badPacketFormat, next)) ↔
    fields.length + 2
      < 2 + (beUint16 msb lsb).toNat + packetIdLen (flagsOf conn.parsing.typeFlags)
  handed : 2 + (beUint16 msb lsb).toNat + packetIdLen (flagsOf conn.parsing.typeFlags)
      ≤ fields.length + 2 →
    ∃ pkt, parsePublishPacket auth (conn.withInput (msb :: lsb :: fields ++ rest))
        (fields.length + 2) = some (.decodeOk, deliverPublish (conn.withInput rest) pkt) ∧
      pkt.topic = fields.take (beUint16 msb lsb).toNat ∧
      pkt.topic.length = (beUint16 msb lsb).toNat ∧
      pkt.payload = fields.drop
        ((beUint16 msb lsb).toNat + packetIdLen (flagsOf conn.parsing.typeFlags)) ∧
      pkt.payload.length = fields.length + 2 - 2 - (beUint16 msb lsb).toNat
        - packetIdLen (flagsOf conn.parsing.typeFlags)
  payload_le : ∀ status next, parsePublishPacket auth
      (conn.withInput (msb :: lsb :: fields ++ rest)) (fields.length + 2) = some (status, next) →
    ∃ pkts, received next.log = received conn.log ++ pkts ∧
      ∀ pkt, .publish pkt ∈ pkts → pkt.payload.length ≤ fields.length + 2

/-- A payload length of two or more is not refused. -/
theorem parsePublishRest_not_refused {conn next : TcpConn} {flags : UInt8} {topic : Bytes}
    {payloadLen : Int} (hlen : 2 ≤ payloadLen) {buffer : Bytes} :
    parsePublishRest conn flags topic payloadLen buffer ≠ some (.badPacketFormat, next) := by
  have hnonneg : ¬ payloadLen < 0 := by omega
  have hnonneg' : ¬ payloadLen - 2 < 0 := by omega
  by_cases hqos : publishQos flags = 0
  · simp [parsePublishRest, hqos, hnonneg]
  · simp only [parsePublishRest, ne_eq, hqos, not_false_eq_true, if_true, if_neg hnonneg']
    cases (tmqBufferRead16 buffer).1 <;> simp

/-- What becomes of the part behind the topic when it has `tail.length` bytes. -/
theorem parsePublishRest_tail (conn : TcpConn) (flags : UInt8) (topic tail rest : Bytes) :
    (tail.length < packetIdLen flags ∧ ∃ left,
        parsePublishRest conn flags topic tail.length (tail ++ rest)
          = some (.badPacketFormat, conn.withInput left)) ∨
      (packetIdLen flags ≤ tail.length ∧ ∃ packetId,
        parsePublishRest conn flags topic tail.length (tail ++ rest)
          = some (.decodeOk, deliverPublish (conn.withInput rest)
              ⟨flags, topic, packetId, tail.drop (packetIdLen flags)⟩)) := by
  by_cases hqos : publishQos flags = 0
  · right
    refine ⟨by simp [packetIdLen, hqos], 0, ?_⟩
    simp [parsePublishRest, hqos, packetIdLen, tmqBufferReadStr_append tail rest _ le_rfl]
  · rcases tail with _ | ⟨msb, _ | ⟨lsb, payload⟩⟩
    · left
      exact ⟨by simp [packetIdLen, hqos], _, by simp [parsePublishRest, hqos]; rfl⟩
    · left
      exact ⟨by simp [packetIdLen, hqos], _, by simp [parsePublishRest, hqos]; rfl⟩
    · right
      refine ⟨by simp [packetIdLen, hqos], beUint16 msb lsb, ?_⟩
      have hlen : ((msb :: lsb :: payload).length : Int) - 2 = payload.length := by
        simp only [List.length_cons]
        omega
      have hnonneg : ¬ ((payload.length : Int) < 0) := by omega
      simp only [parsePublishRest, hqos, hlen, hnonneg, List.cons_append, ne_eq,
        not_false_eq_true, ↓reduceIte, tmqBufferRead16_cons_cons, Int.toNat_natCast,
        tmqBufferReadStr_append payload rest _ le_rfl]
      simp [packetIdLen, hqos]

/-- A topic that fits leaves what is behind it to the rest of the parser. -/
theorem parsePublishPacket_of_le (auth : BrokerAuth) (conn : TcpConn) (msb lsb : UInt8)
    {fields : Bytes} (rest : Bytes) (hlen : fields.length + 2 < 2 ^ 32)
    (htopic : (beUint16 msb lsb).toNat ≤ fields.length) :
    parsePublishPacket auth (conn.withInput (msb :: lsb :: fields ++ rest)) (fields.length + 2)
      = parsePublishRest conn (flagsOf conn.parsing.typeFlags)
          (fields.take (beUint16 msb lsb).toNat) (fields.drop (beUint16 msb lsb).toNat).length
          (fields.drop (beUint16 msb lsb).toNat ++ rest) := by
  have hpayload : sub32 (sub32 (fields.length + 2) 2) (beUint16 msb lsb).toNat
      = (fields.drop (beUint16 msb lsb).toNat).length := by
    rw [sub32_of_le (by omega) hlen, sub32_of_le (by omega) (by omega), List.length_drop]
    omega
  simp only [parsePublishPacket, TcpConn.withInput_inBuffer, List.cons_append,
    tmqBufferRead16_cons_cons, Option.bind_eq_bind, Option.bind_some,
    tmqBufferReadStr_append _ _ _ htopic, hpayload, parsePublishRest_withInput,
    TcpConn.withInput_parsing]

/-- A topic that does not fit is not noticed: the payload length wraps around. -/
theorem parsePublishPacket_not_refused (auth : BrokerAuth) (conn : TcpConn) {msb lsb : UInt8}
    {fields : Bytes} (rest : Bytes) (hlen : fields.length + 2 < 2 ^ 32)
    (htopic : fields.length < (beUint16 msb lsb).toNat) (next : TcpConn) :
    parsePublishPacket auth (conn.withInput (msb :: lsb :: fields ++ rest)) (fields.length + 2)
      ≠ some (.badPacketFormat, next) := by
  have hsmall := (beUint16 msb lsb).toNat_lt
  have hwrap : 2 ≤ sub32 (sub32 (fields.length + 2) 2) (beUint16 msb lsb).toNat := by
    rw [sub32_of_le (by omega) hlen, sub32_of_lt (by omega)]
    omega
  simp only [parsePublishPacket, TcpConn.withInput_inBuffer, List.cons_append,
    tmqBufferRead16_cons_cons, Option.bind_eq_bind, Option.bind_some]
  exact parsePublishRest_not_refused (by exact_mod_cast hwrap)

/-- The lengths of a PUBLISH are handled exactly just when its topic fits. -/
theorem publishLengthsExact_iff (auth : BrokerAuth) (conn : TcpConn) (msb lsb : UInt8)
    (fields rest : Bytes) (hlen : fields.length + 2 < 2 ^ 32) :
    PublishLengthsExact auth conn msb lsb fields rest ↔
      2 + (beUint16 msb lsb).toNat ≤ fields.length + 2 := by
  constructor
  · intro hexact
    by_contra htopic
    obtain ⟨next, hrefused⟩ := hexact.refused_iff.mpr (by omega)
    exact parsePublishPacket_not_refused auth conn rest hlen (by omega) next hrefused
  · intro htopic
    have hparse := parsePublishPacket_of_le auth conn msb lsb rest hlen (by omega)
    have htail : (fields.drop (beUint16 msb lsb).toNat).length
        = fields.length - (beUint16 msb lsb).toNat := List.length_drop ..
    rcases parsePublishRest_tail conn (flagsOf conn.parsing.typeFlags)
        (fields.take (beUint16 msb lsb).toNat) (fields.drop (beUint16 msb lsb).toNat) rest with
      ⟨hshort, left, hrest⟩ | ⟨hfits, packetId, hrest⟩
    · rw [hrest] at hparse
      refine ⟨⟨fun _ => by omega, fun _ => ⟨_, hparse⟩⟩, by omega, ?_⟩
      intro status next hnext
      rw [hparse] at hnext
      obtain ⟨-, rfl⟩ := Prod.mk.inj (Option.some.inj hnext)
      exact ⟨[], by simp, by simp⟩
    · rw [hrest] at hparse
      refine ⟨⟨?_, by omega⟩, fun _ => ⟨_, hparse, rfl, ?_, ?_, ?_⟩, ?_⟩
      · rintro ⟨next, hnext⟩
        rw [hparse] at hnext
        cases (Prod.mk.inj (Option.some.inj hnext)).1
      · rw [List.length_take]
        omega
      · rw [List.drop_drop]
      · rw [List.length_drop, htail]
        omega
      · intro status next hnext
        rw [hparse] at hnext
        obtain ⟨-, rfl⟩ := Prod.mk.inj (Option.some.inj hnext)
        refine ⟨_, received_deliverPublish .., ?_⟩
        intro pkt hpkt
        obtain rfl := Packet.publish.inj (List.mem_singleton.mp hpkt)
        rw [List.length_drop, htail]
        omega

/-- A PUBLISH on the topic `a` with the payload `b`. -/
theorem publishLengthsExact_sample :
    PublishLengthsExact ⟨true, false, fun _ => false⟩ newConn 0 1 [97, 98] [] :=
  (publishLengthsExact_iff _ newConn 0 1 [97, 98] [] (by decide)).mpr (by decide)

/-- A PUBLISH of two bytes that announces a topic of one byte is not refused. -/
theorem not_publishLengthsExact_short :
    ¬ ∀ auth conn msb lsb fields rest, List.length fields + 2 < 2 ^ 32 →
      PublishLengthsExact auth conn msb lsb fields rest := by
  intro hall
  have hexact := hall ⟨true, false, fun _ => false⟩ newConn 0 1 [] [] (by decide)
  obtain ⟨next, hrefused⟩ := hexact.refused_iff.mpr (by decide)
  exact parsePublishPacket_not_refused _ newConn [] (by decide) (by decide) next hrefused

/-! ### The loops over lists -/

/-- What one round of a loop does: how much it takes from the counter, whether it
refuses the packet, and the bytes it leaves. -/
structure ListRound where
  used : Nat
  refused : Bool
  left : Bytes

/-- A round of `parse_subscribe_packet`. The length it uses must be there. -/
def topicFilterRound (buffer : Bytes) : Option ListRound := do
  let (filterLen, buffer) := tmqBufferRead16 buffer
  let filterLen ← filterLen
  let (_, buffer) := tmqBufferReadStr buffer filterLen.toNat
  let (qos, buffer) := tmqBufferRead8 buffer
  return ⟨2 + filterLen.toNat + 1, qos.getD 0 > 2, buffer⟩

/-- A round of `parse_unsubscribe_packet`. -/
def filterRound (buffer : Bytes) : Option ListRound := do
  let (filterLen, buffer) := tmqBufferRead16 buffer
  let filterLen ← filterLen
  let (_, buffer) := tmqBufferReadStr buffer filterLen.toNat
  return ⟨2 + filterLen.toNat, false, buffer⟩

/-- A round of `parse_suback_packet`. -/
def returnCodeRound (buffer : Bytes) : Option ListRound :=
  some ⟨1, false, (tmqBufferRead8 buffer).2⟩

/-- Where a round began: the counter `len`, the bytes that the packet has been
taken to have before it, and what it took. -/
structure RoundMark where
  counter : Nat
  offset : Nat
  used : Nat
  deriving DecidableEq, Repr

/-- `while(len > 0)` over a list: the rounds, and whether the last one refused
the packet. -/
def listLoop (round : Bytes → Option ListRound) :
    Nat → Nat → Nat → Bytes → Option (List RoundMark × Bool)
  | 0, _, _, _ => none
  | fuel + 1, len, offset, buffer =>
      if len = 0 then some ([], false)
      else do
        let next ← round buffer
        let mark := ⟨len, offset, next.used⟩
        if next.refused then some ([mark], true)
        else do
          let (marks, refused) ←
            listLoop round fuel (sub32 len next.used) (offset + next.used) next.left
          some (mark :: marks, refused)

/-- A round that accepts hands on to the next. -/
theorem listLoop_accepted {round : Bytes → Option ListRound} {len : Nat} {buffer : Bytes}
    {next : ListRound} (hlen : len ≠ 0) (hround : round buffer = some next)
    (haccepted : next.refused = false) (fuel offset : Nat) :
    listLoop round (fuel + 1) len offset buffer
      = (listLoop round fuel (sub32 len next.used) (offset + next.used) next.left).bind
          fun result => some (⟨len, offset, next.used⟩ :: result.1, result.2) := by
  simp only [listLoop, hlen, if_false, hround, Option.bind_eq_bind, Option.bind_some, haccepted,
    Bool.false_eq_true]

/-! The rounds are those of the parsers. -/

theorem parseTopicFilters_rounds (fuel len offset : Nat) (buffer : Bytes) :
    (parseTopicFilters fuel len buffer).map
        (fun result => (result.1, result.2.1.length + if result.1 = .decodeOk then 0 else 1))
      = (listLoop topicFilterRound fuel len offset buffer).map
          fun result => (if result.2 then .protocolError else .decodeOk, result.1.length) := by
  induction fuel generalizing len offset buffer with
  | zero => rfl
  | succ fuel ih =>
      by_cases hlen : len = 0
      · simp [parseTopicFilters, listLoop, hlen]
      · cases hfield : (tmqBufferRead16 buffer).1 with
        | none => simp [parseTopicFilters, listLoop, topicFilterRound, hlen, hfield]
        | some filterLen =>
            have hnext := ih (sub32 len (2 + filterLen.toNat + 1))
              (offset + (2 + filterLen.toNat + 1))
              (tmqBufferRead8 ((tmqBufferRead16 buffer).2.drop filterLen.toNat)).2
            by_cases hqos :
                (tmqBufferRead8 ((tmqBufferRead16 buffer).2.drop filterLen.toNat)).1.getD 0 > 2
            · simp [parseTopicFilters, listLoop, topicFilterRound, hlen, hfield, hqos]
            · simp only [parseTopicFilters, listLoop, topicFilterRound, hlen, hfield, hqos, if_false,
                Option.bind_eq_bind, Option.bind_some, tmqBufferReadStr_snd, Option.pure_def,
                decide_false, Bool.false_eq_true]
              have hnext := congrArg (Option.map fun pair => (pair.1, pair.2 + 1)) hnext
              simpa [Function.comp_def, Option.map_eq_bind, Option.bind_assoc,
                Nat.add_right_comm] using hnext

theorem parseFilters_rounds (fuel len offset : Nat) (buffer : Bytes) :
    (parseFilters fuel len buffer).map (·.1.length)
      = (listLoop filterRound fuel len offset buffer).map (·.1.length) := by
  induction fuel generalizing len offset buffer with
  | zero => rfl
  | succ fuel ih =>
      by_cases hlen : len = 0
      · simp [parseFilters, listLoop, hlen]
      · cases hfield : (tmqBufferRead16 buffer).1 with
        | none => simp [parseFilters, listLoop, filterRound, hlen, hfield]
        | some filterLen =>
            have hnext := ih (sub32 len (2 + filterLen.toNat)) (offset + (2 + filterLen.toNat))
              ((tmqBufferRead16 buffer).2.drop filterLen.toNat)
            have hnext := congrArg (Option.map (· + 1)) hnext
            simpa [parseFilters, listLoop, filterRound, hlen, hfield, Function.comp_def,
              Option.map_eq_bind, Option.bind_assoc] using hnext

theorem parseReturnCodes_rounds {len : Nat} (hsmall : len < 2 ^ 32) (offset : Nat)
    {buffer : Bytes} (hlen : len ≤ buffer.length) :
    (parseReturnCodes len buffer).map (·.1.length)
      = (listLoop returnCodeRound (len + 1) len offset buffer).map (·.1.length) := by
  induction len generalizing offset buffer with
  | zero => rfl
  | succ len ih =>
      cases buffer with
      | nil => simp at hlen
      | cons code buffer =>
          have hcounter : sub32 (len + 1) 1 = len := by
            rw [sub32_of_le (by omega) hsmall]
            omega
          have hnext := congrArg (Option.map (· + 1))
            (ih (by omega) (offset + 1) (Nat.le_of_succ_le_succ hlen))
          have hloop := listLoop_accepted (Nat.succ_ne_zero len)
            (show returnCodeRound (code :: buffer) = some ⟨1, false, buffer⟩ from rfl) rfl (len + 1)
            offset
          rw [hloop, hcounter]
          simpa [parseReturnCodes, Function.comp_def, Option.map_eq_bind, Option.bind_assoc]
            using hnext

/-- The loop behind the packet identifier ends. The counter comes down to zero
without ever wrapping around, or the packet is refused; there are no more rounds
than bytes, and the length that a round uses (of `lengthBytes` bytes) lies inside
the packet. -/
def ListLoopEnds (round : Bytes → Option ListRound) (lengthBytes len : Nat) (buffer : Bytes) :
    Prop :=
  ∃ fuel marks refused, listLoop round fuel (sub32 len 2) 2 (buffer.drop 2) = some (marks, refused) ∧
    (refused = true ∨ 2 ≤ len ∧ ∀ mark ∈ marks, mark.used ≤ mark.counter) ∧
    marks.length ≤ len ∧ ∀ mark ∈ marks, mark.offset + lengthBytes ≤ len

/-! ### One round -/

section Rounds

variable {round : Bytes → Option ListRound} {lengthBytes : Nat}

/-- A loop that is entered has a round at its offset. -/
theorem exists_mark_of_listLoop {fuel len offset : Nat} {buffer : Bytes} {marks : List RoundMark}
    {refused : Bool} (hloop : listLoop round fuel len offset buffer = some (marks, refused))
    (hlen : len ≠ 0) : ∃ mark ∈ marks, mark.offset = offset := by
  cases fuel with
  | zero => cases hloop
  | succ fuel =>
      simp only [listLoop, hlen, if_false, Option.bind_eq_bind, Option.bind_eq_some_iff] at hloop
      obtain ⟨next, -, hloop⟩ := hloop
      by_cases hrefused : next.refused = true
      · rw [if_pos hrefused] at hloop
        obtain ⟨rfl, -⟩ := Prod.mk.inj (Option.some.inj hloop)
        exact ⟨_, List.mem_singleton_self _, rfl⟩
      · rw [if_neg hrefused, Option.bind_eq_some_iff] at hloop
        obtain ⟨⟨later, last⟩, -, hloop⟩ := hloop
        obtain ⟨rfl, -⟩ := Prod.mk.inj (Option.some.inj hloop)
        exact ⟨_, List.mem_cons_self, rfl⟩

/-- The loop ends as it should with `body` left of the packet, in at most
`bound` rounds. -/
def LoopFits (round : Bytes → Option ListRound) (lengthBytes bound offset : Nat)
    (body rest : Bytes) : Prop :=
  ∃ fuel marks refused, listLoop round fuel body.length offset (body ++ rest)
      = some (marks, refused) ∧
    (refused = true ∨ ∀ mark ∈ marks, mark.used ≤ mark.counter) ∧
    marks.length ≤ bound ∧ ∀ mark ∈ marks, mark.offset + lengthBytes ≤ offset + body.length

theorem loopFits_nil (bound offset : Nat) (rest : Bytes) :
    LoopFits round lengthBytes bound offset [] rest :=
  ⟨1, [], false, rfl, .inr (by simp), by simp, by simp⟩

/-- No round begins with fewer bytes left than its length has. -/
theorem lengthBytes_le_of_loopFits {bound offset : Nat} {body rest : Bytes} (hbody : body ≠ [])
    (hfits : LoopFits round lengthBytes bound offset body rest) : lengthBytes ≤ body.length := by
  obtain ⟨fuel, marks, refused, hloop, -, -, hoffsets⟩ := hfits
  obtain ⟨mark, hmem, rfl⟩ := exists_mark_of_listLoop hloop (by simpa using hbody)
  have hoffset := hoffsets mark hmem
  omega

theorem loopFits_of_refused {bound offset : Nat} {body rest : Bytes} {next : ListRound}
    (hbody : body ≠ []) (hround : round (body ++ rest) = some next) (hrefused : next.refused = true)
    (hbytes : lengthBytes ≤ body.length) :
    LoopFits round lengthBytes (bound + 1) offset body rest := by
  refine ⟨1, [⟨body.length, offset, next.used⟩], true, ?_, .inl rfl, by simp, ?_⟩
  · simp [listLoop, hbody, hround, hrefused]
  · intro mark hmem
    obtain rfl := List.mem_singleton.mp hmem
    exact Nat.add_le_add_left hbytes offset

/-- A round that takes more than there is wraps the counter around, and the next
one begins behind the packet. -/
theorem not_loopFits_of_overrun {bound offset : Nat} {body rest : Bytes} {next : ListRound}
    (hbody : body ≠ []) (hround : round (body ++ rest) = some next)
    (haccepted : next.refused = false) (hover : body.length < next.used)
    (hsmall : next.used < 2 ^ 32) : ¬ LoopFits round lengthBytes bound offset body rest := by
  rintro ⟨fuel, marks, refused, hloop, -, -, hoffsets⟩
  cases fuel with
  | zero => cases hloop
  | succ fuel =>
      rw [listLoop_accepted (by simpa using hbody) hround haccepted, Option.bind_eq_some_iff]
        at hloop
      obtain ⟨⟨later, last⟩, hlater, hloop⟩ := hloop
      obtain ⟨rfl, -⟩ := Prod.mk.inj (Option.some.inj hloop)
      have hwrapped : sub32 body.length next.used ≠ 0 := by
        rw [sub32_of_lt hover]
        omega
      obtain ⟨mark, hmem, hmark⟩ := exists_mark_of_listLoop hlater hwrapped
      have hoffset := hoffsets mark (List.mem_cons_of_mem _ hmem)
      omega

/-- A round that stays inside the packet hands on to the next. -/
theorem loopFits_step {bound offset : Nat} {body rest left : Bytes} {next : ListRound}
    (hlen : body.length < 2 ^ 32) (hround : round (body ++ rest) = some next)
    (haccepted : next.refused = false) (hused : 0 < next.used)
    (hinside : next.used + left.length = body.length) (hleft : next.left = left ++ rest) :
    LoopFits round lengthBytes (bound + 1) offset body rest ↔
      lengthBytes ≤ body.length ∧
        LoopFits round lengthBytes bound (offset + next.used) left rest := by
  have hbody : body ≠ [] := by
    rintro rfl
    rw [List.length_nil] at hinside
    omega
  have hcounter : sub32 body.length next.used = left.length := by
    rw [sub32_of_le (by omega) hlen]
    omega
  constructor
  · intro hfits
    refine ⟨lengthBytes_le_of_loopFits hbody hfits, ?_⟩
    obtain ⟨fuel, marks, refused, hloop, hend, hbound, hoffsets⟩ := hfits
    cases fuel with
    | zero => cases hloop
    | succ fuel =>
        rw [listLoop_accepted (by simpa using hbody) hround haccepted, hcounter, hleft,
          Option.bind_eq_some_iff] at hloop
        obtain ⟨⟨later, last⟩, hlater, hloop⟩ := hloop
        obtain ⟨rfl, rfl⟩ := Prod.mk.inj (Option.some.inj hloop)
        refine ⟨fuel, later, last, hlater, ?_, Nat.le_of_succ_le_succ hbound, ?_⟩
        · exact hend.imp_right fun h mark hmem => h mark (List.mem_cons_of_mem _ hmem)
        · intro mark hmem
          have hoffset := hoffsets mark (List.mem_cons_of_mem _ hmem)
          omega
  · rintro ⟨hbytes, fuel, marks, refused, hloop, hend, hbound, hoffsets⟩
    refine ⟨fuel + 1, ⟨body.length, offset, next.used⟩ :: marks, refused, ?_, ?_,
      Nat.succ_le_succ hbound, ?_⟩
    · rw [listLoop_accepted (by simpa using hbody) hround haccepted, hcounter, hleft, hloop]
      rfl
    · refine hend.imp_right fun h mark hmem => ?_
      rcases List.mem_cons.mp hmem with rfl | hmem
      · change next.used ≤ body.length
        omega
      · exact h mark hmem
    · intro mark hmem
      rcases List.mem_cons.mp hmem with rfl | hmem
      · exact Nat.add_le_add_left hbytes offset
      · have hoffset := hoffsets mark hmem
        omega

end Rounds

/-! ### Which packets the loops can end for -/

/-- The topic filters of a SUBSCRIBE tile the bytes, or one whose length lies
inside them asks for a QoS above 2; that byte may come from behind the packet. -/
def TopicFiltersEnd (rest : Bytes) : Bytes → Prop
  | [] => True
  | [_] => False
  | msb :: lsb :: field =>
      (∃ qos, (field ++ rest)[(beUint16 msb lsb).toNat]? = some qos ∧ qos > 2) ∨
        (beUint16 msb lsb).toNat < field.length ∧
          TopicFiltersEnd rest (field.drop ((beUint16 msb lsb).toNat + 1))
termination_by body => body.length

theorem tmqBufferRead8_eq (buffer : Bytes) : tmqBufferRead8 buffer = (buffer.head?, buffer.tail) := by
  cases buffer <;> rfl

theorem topicFilterRound_cons_cons (msb lsb : UInt8) (buffer : Bytes) :
    topicFilterRound (msb :: lsb :: buffer)
      = some ⟨2 + (beUint16 msb lsb).toNat + 1,
          (buffer[(beUint16 msb lsb).toNat]?.getD 0 > 2),
          buffer.drop ((beUint16 msb lsb).toNat + 1)⟩ := by
  simp only [topicFilterRound, tmqBufferRead16_cons_cons, Option.bind_eq_bind, Option.bind_some,
    Option.pure_def, tmqBufferReadStr_snd, tmqBufferRead8_eq, List.head?_drop, List.tail_drop]

theorem loopFits_topicFilterRound_iff {body rest : Bytes} (hlen : body.length < 2 ^ 32)
    {bound : Nat} (hbound : body.length ≤ bound) (offset : Nat) :
    LoopFits topicFilterRound 2 bound offset body rest ↔ TopicFiltersEnd rest body := by
  fun_induction TopicFiltersEnd rest body generalizing bound offset with
  | case1 => exact iff_of_true (loopFits_nil ..) trivial
  | case2 byte =>
      rw [iff_false]
      intro hfits
      have htwo := lengthBytes_le_of_loopFits (by simp) hfits
      simp at htwo
  | case3 msb lsb field ih =>
      have hround := topicFilterRound_cons_cons msb lsb (field ++ rest)
      simp only [List.length_cons] at hlen hbound
      obtain ⟨bound, rfl⟩ : ∃ k, bound = k + 1 := ⟨bound - 1, by omega⟩
      by_cases hqos : (field ++ rest)[(beUint16 msb lsb).toNat]?.getD 0 > 2
      · refine iff_of_true (loopFits_of_refused (by simp) hround (by simpa using hqos) (by simp))
          (.inl ?_)
        cases hread : (field ++ rest)[(beUint16 msb lsb).toNat]? with
        | none => simp [hread] at hqos
        | some qos => exact ⟨qos, rfl, by simpa [hread] using hqos⟩
      · have hnone : ¬ ∃ qos, (field ++ rest)[(beUint16 msb lsb).toNat]? = some qos ∧ qos > 2 := by
          rintro ⟨qos, hread, hlarge⟩
          rw [hread] at hqos
          exact hqos hlarge
        have hsmall := (beUint16 msb lsb).toNat_lt
        by_cases hinside : (beUint16 msb lsb).toNat < field.length
        · have hleft : (field ++ rest).drop ((beUint16 msb lsb).toNat + 1)
              = field.drop ((beUint16 msb lsb).toNat + 1) ++ rest :=
            List.drop_append_of_le_length hinside
          rw [loopFits_step (by simpa using hlen) hround (by simpa using hqos) (by simp)
            (by simp only [List.length_drop, List.length_cons]; omega) hleft,
            ih (by rw [List.length_drop]; omega) (by rw [List.length_drop]; omega),
            or_iff_right hnone]
          simp [hinside]
        · refine iff_of_false ?_ (by rw [or_iff_right hnone]; simp [hinside])
          exact not_loopFits_of_overrun (by simp) hround (by simpa using hqos)
            (by simp only [List.length_cons]; omega) (by simp only; omega)

theorem loopFits_filterRound_iff {body rest : Bytes} (hlen : body.length < 2 ^ 32)
    {bound : Nat} (hbound : body.length ≤ bound) (offset : Nat) :
    LoopFits filterRound 2 bound offset body rest ↔ FiltersFit body := by
  fun_induction FiltersFit body generalizing bound offset with
  | case1 => exact iff_of_true (loopFits_nil ..) trivial
  | case2 byte =>
      rw [iff_false]
      intro hfits
      have htwo := lengthBytes_le_of_loopFits (by simp) hfits
      simp at htwo
  | case3 msb lsb field ih =>
      have hround : filterRound (msb :: lsb :: (field ++ rest))
          = some ⟨2 + (beUint16 msb lsb).toNat, false,
              (field ++ rest).drop (beUint16 msb lsb).toNat⟩ := rfl
      have hsmall := (beUint16 msb lsb).toNat_lt
      simp only [List.length_cons] at hlen hbound
      obtain ⟨bound, rfl⟩ : ∃ k, bound = k + 1 := ⟨bound - 1, by omega⟩
      by_cases hinside : (beUint16 msb lsb).toNat ≤ field.length
      · have hleft : (field ++ rest).drop (beUint16 msb lsb).toNat
            = field.drop (beUint16 msb lsb).toNat ++ rest :=
          List.drop_append_of_le_length hinside
        rw [loopFits_step (by simpa using hlen) hround rfl (by simp)
          (by simp only [List.length_drop, List.length_cons]; omega) hleft,
          ih (by rw [List.length_drop]; omega) (by rw [List.length_drop]; omega)]
        simp [hinside]
      · refine iff_of_false ?_ (by simp [hinside])
        exact not_loopFits_of_overrun (by simp) hround rfl
          (by simp only [List.length_cons]; omega) (by simp only; omega)

theorem loopFits_returnCodeRound {body : Bytes} (hlen : body.length < 2 ^ 32) (rest : Bytes)
    {bound : Nat} (hbound : body.length ≤ bound) (offset : Nat) :
    LoopFits returnCodeRound 0 bound offset body rest := by
  induction body generalizing bound offset with
  | nil => exact loopFits_nil ..
  | cons code body ih =>
      rw [List.length_cons] at hlen hbound
      obtain ⟨bound, rfl⟩ : ∃ k, bound = k + 1 := ⟨bound - 1, by omega⟩
      have hround : returnCodeRound (code :: body ++ rest) = some ⟨1, false, body ++ rest⟩ := rfl
      rw [loopFits_step (by simpa using hlen) hround rfl Nat.one_pos
        (by simp only [List.length_cons]; omega) rfl]
      exact ⟨Nat.zero_le _, ih (by omega) (by omega) (offset + 1)⟩

/-- The loop ends where it should behind a packet identifier that lies inside
the packet; without one the first round begins behind the packet. -/
theorem listLoopEnds_iff {round : Bytes → Option ListRound} {lengthBytes : Nat} {body : Bytes}
    (hlen : body.length < 2 ^ 32) (rest : Bytes) :
    ListLoopEnds round lengthBytes body.length (body ++ rest) ↔
      2 ≤ body.length ∧ LoopFits round lengthBytes body.length 2 (body.drop 2) rest := by
  by_cases hid : 2 ≤ body.length
  · have hcounter : sub32 body.length 2 = (body.drop 2).length := by
      rw [sub32_of_le hid hlen, List.length_drop]
    have hdrop : (body ++ rest).drop 2 = body.drop 2 ++ rest := List.drop_append_of_le_length hid
    have hstop : 2 + (body.drop 2).length = body.length := by
      rw [List.length_drop]
      omega
    simp only [ListLoopEnds, LoopFits, hcounter, hdrop, hstop, hid, true_and]
  · refine iff_of_false ?_ (fun h => hid h.1)
    rintro ⟨fuel, marks, refused, hloop, -, -, hoffsets⟩
    have hcounter : sub32 body.length 2 ≠ 0 := by
      rw [sub32_of_lt (by omega)]
      omega
    obtain ⟨mark, hmem, hmark⟩ := exists_mark_of_listLoop hloop hcounter
    have hoffset := hoffsets mark hmem
    omega

/-- The loop of a parser of a list ends. A codec that does not expect the packet
refuses it before. -/
def ListParserEnds (conn : TcpConn) (len : Nat) : PacketType → Prop
  | .subscribe => conn.codecType = .server → ListLoopEnds topicFilterRound 2 len conn.inBuffer
  | .unsubscribe => conn.codecType = .server → ListLoopEnds filterRound 2 len conn.inBuffer
  | .suback => conn.codecType = .client → ListLoopEnds returnCodeRound 0 len conn.inBuffer
  | _ => True

/-- The packet identifier and the entries tile the packet, or a SUBSCRIBE asks
for a QoS above 2 in time. -/
def ListTiles (codecType : CodecType) (body rest : Bytes) : PacketType → Prop
  | .subscribe => codecType = .server → 2 ≤ body.length ∧ TopicFiltersEnd rest (body.drop 2)
  | .unsubscribe => codecType = .server → 2 ≤ body.length ∧ FiltersFit (body.drop 2)
  | .suback => codecType = .client → 2 ≤ body.length
  | _ => True

/-- The loops over lists end just for the packets that their entries tile. -/
theorem listParserEnds_iff (conn : TcpConn) (type : PacketType) (body rest : Bytes)
    (hlen : body.length < 2 ^ 32) :
    ListParserEnds (conn.withInput (body ++ rest)) body.length type ↔
      ListTiles conn.codecType body rest type := by
  have hdrop : (body.drop 2).length ≤ body.length := by
    rw [List.length_drop]
    omega
  cases type with
  | subscribe =>
      refine imp_congr_right fun _ => ?_
      rw [TcpConn.withInput_inBuffer, listLoopEnds_iff hlen,
        loopFits_topicFilterRound_iff (by omega) hdrop]
  | unsubscribe =>
      refine imp_congr_right fun _ => ?_
      rw [TcpConn.withInput_inBuffer, listLoopEnds_iff hlen,
        loopFits_filterRound_iff (by omega) hdrop]
  | suback =>
      refine imp_congr_right fun _ => ?_
      rw [TcpConn.withInput_inBuffer, listLoopEnds_iff hlen]
      exact and_iff_left (loopFits_returnCodeRound (by omega) rest hdrop 2)
  | _ => exact Iff.rfl

/-- A SUBSCRIBE for the filters `a` and `bc`, with a PINGREQ behind it. -/
theorem listParserEnds_subscribe :
    ListParserEnds (newConn.withInput
      ([0, 1, 0, 1, 97, 1, 0, 2, 98, 99, 0] ++ [0xC0, 0])) 11 .subscribe :=
  (listParserEnds_iff newConn .subscribe [0, 1, 0, 1, 97, 1, 0, 2, 98, 99, 0] [0xC0, 0]
    (by decide)).mpr (fun _ => ⟨by decide, by simp [TopicFiltersEnd, beUint16]⟩)

/-- A SUBSCRIBE without a body wraps the counter around at once. -/
theorem not_listParserEnds_empty :
    ¬ ∀ conn type body rest, List.length body < 2 ^ 32 →
      ListParserEnds (TcpConn.withInput conn (body ++ rest)) body.length type := by
  intro hall
  have hends : ListLoopEnds topicFilterRound 2 0 [] :=
    hall newConn .subscribe [] [] (by decide) rfl
  obtain ⟨hid, -⟩ := (listLoopEnds_iff (show ([] : Bytes).length < 2 ^ 32 by decide) []).mp hends
  exact absurd hid (by decide)

end TinyMqtt
