import TinyMqtt.Codec.Lengths

/-!
What holds of the packets that the decoder accepts. A packet is accepted when a
decoder hands it to a callback, whatever the connection was in before. The
checks of a parser then hold of every packet of its type; a PUBLISH is accepted
with any flags.
-/

namespace TinyMqtt

variable {auth : BrokerAuth} {conn next : TcpConn} {P : Packet Bytes → Prop}

/-- Some decoder hands the packet on. -/
def Accepted (pkt : Packet Bytes) : Prop :=
  ∃ (auth : BrokerAuth) (conn next : TcpConn), received conn.log = [] ∧
    decodeTcpMessage auth conn = some next ∧ pkt ∈ received next.log

theorem accepted_of_decoded {pkt : Packet Bytes} (hnone : received conn.log = [])
    (hdecode : (decodeTcpMessage auth conn).map (fun next => received next.log) = some [pkt]) :
    Accepted pkt := by
  obtain ⟨next, hnext, hreceived⟩ := Option.map_eq_some_iff.mp hdecode
  exact ⟨auth, conn, next, hnone, hnext, by simp [hreceived]⟩

def HandsOn (P : Packet Bytes → Prop) (conn : TcpConn) : Prop := ∀ pkt ∈ received conn.log, P pkt

theorem HandsOn.of_received (h : HandsOn P conn) (hreceived : received next.log = received conn.log) :
    HandsOn P next := by
  unfold HandsOn
  rw [hreceived]
  exact h

theorem HandsOn.withInput (h : HandsOn P conn) (buffer : Bytes) : HandsOn P (conn.withInput buffer) := h

theorem HandsOn.call (h : HandsOn P conn) {e : Event Bytes}
    (he : ∀ pkt, e.packet? = some pkt → P pkt) : HandsOn P (conn.call e) := by
  intro pkt hmem
  rw [received_call] at hmem
  rcases List.mem_append.mp hmem with hold | hnew
  · exact h pkt hold
  · exact he pkt (Option.mem_toList.mp hnew)

theorem HandsOn.send (h : HandsOn P conn) (pkt : Packet Bytes) : HandsOn P (conn.send pkt) :=
  h.of_received (received_send conn pkt)

theorem HandsOn.close (h : HandsOn P conn) : HandsOn P conn.close :=
  h.of_received (received_close conn)

theorem HandsOn.mqttConnect (h : HandsOn P conn) (auth : BrokerAuth) (pkt : ConnectPkt) :
    HandsOn P (mqttConnect auth conn pkt) := by
  have hrecord : HandsOn P (conn.record (.sessionConnect pkt)) := by
    apply h.of_received
    simp [received, Event.packet?]
  unfold TinyMqtt.mqttConnect
  cases auth.validate pkt with
  | inProgress => exact hrecord
  | failure => exact h.send _
  | success => exact hrecord

/-- A parser other than that of CONNECT hands on a packet of its own type. -/
theorem HandsOn.handles (h : HandsOn P conn) {type : PacketType} (hconnect : type ≠ .connect)
    (hhandles : Handles auth conn type next) (hP : ∀ pkt, pkt.packetType = type → P pkt) :
    HandsOn P next := by
  have hcall : ∀ {caller : TcpConn} {e : Event Bytes}, HandsOn P caller →
      (∀ pkt, e.packet? = some pkt → pkt.packetType = type) → HandsOn P (caller.call e) :=
    fun hcaller he => hcaller.call fun pkt hpkt => hP pkt (he pkt hpkt)
  cases hhandles with
  | connect => exact absurd rfl hconnect
  | publish pkt =>
      intro handed hmem
      rw [received_deliverPublish] at hmem
      rcases List.mem_append.mp hmem with hold | hnew
      · exact h handed hold
      · exact hP handed (by rw [List.mem_singleton.mp hnew]; rfl)
  | pubrel | pingreq =>
      apply hcall (h.send _)
      rintro pkt ⟨⟩
      rfl
  | disconnect =>
      unfold handleDisconnect
      dsimp only
      split
      · have hleft : HandsOn P { conn with connState := .noSession, upstream := .broker } := h
        refine (hcall hleft (e := .onDisconnect .broker conn.upstream) ?_).of_received ?_
        · rintro pkt ⟨⟩
          rfl
        · simp [received, Event.packet?]
      · exact h
  | _ =>
      apply hcall h
      rintro pkt ⟨⟩
      rfl

/-! ### The checks of the connect flags -/

def FlagsChecked (pkt : Packet Bytes) : Prop :=
  ∀ connect, pkt = .connect connect → connectFlagsValid connect.flags = true

theorem flags_parseConnectFields {flags : UInt8} {keepAlive : Option UInt16} {clientIdLen : UInt16}
    {buffer left : Bytes} {pkt : ConnectPkt}
    (hparse : parseConnectFields flags keepAlive clientIdLen buffer = some (pkt, left)) :
    pkt.flags = flags := by
  simp only [parseConnectFields, Option.bind_eq_bind, Option.bind_eq_some_iff, Option.pure_def,
    Option.some.injEq, Prod.mk.injEq] at hparse
  obtain ⟨_, -, _, -, _, -, _, -, rfl, -⟩ := hparse
  rfl

theorem HandsOn.parseConnectPayload (h : HandsOn FlagsChecked conn) {flags : UInt8} {buffer : Bytes}
    {status : DecodeStatus}
    (hparse : parseConnectPayload auth conn flags buffer = some (status, next)) :
    HandsOn FlagsChecked next := by
  simp only [TinyMqtt.parseConnectPayload, Option.bind_eq_bind, Option.pure_def] at hparse
  split at hparse
  · obtain ⟨-, rfl⟩ := Prod.mk.inj (Option.some.inj hparse)
    exact h
  · rename_i hvalid
    simp only [Option.bind_eq_some_iff] at hparse
    obtain ⟨clientIdLen, -, hparse⟩ := hparse
    split at hparse
    · obtain ⟨-, rfl⟩ := Prod.mk.inj (Option.some.inj hparse)
      exact (h.withInput _).send _
    · obtain ⟨⟨pkt, left⟩, hfields, hparse⟩ := Option.bind_eq_some_iff.mp hparse
      obtain ⟨-, rfl⟩ := Prod.mk.inj (Option.some.inj hparse)
      have hstarting : HandsOn FlagsChecked { conn with connState := .startingSession } := h
      refine ((hstarting.withInput left).call ?_).mqttConnect auth pkt
      rintro handed ⟨⟩ connect hconnect
      obtain rfl := Packet.connect.inj hconnect
      rw [flags_parseConnectFields hfields]
      simpa using hvalid

theorem HandsOn.parseConnectPacket (h : HandsOn FlagsChecked conn) {len : Nat}
    {status : DecodeStatus} (hparse : parseConnectPacket auth conn len = some (status, next)) :
    HandsOn FlagsChecked next := by
  simp only [TinyMqtt.parseConnectPacket, Option.bind_eq_bind, Option.pure_def] at hparse
  split at hparse
  · obtain ⟨-, rfl⟩ := Prod.mk.inj (Option.some.inj hparse)
    exact h
  · obtain ⟨nameLen, -, hparse⟩ := Option.bind_eq_some_iff.mp hparse
    split at hparse
    · obtain ⟨-, rfl⟩ := Prod.mk.inj (Option.some.inj hparse)
      exact h
    · split at hparse
      · obtain ⟨-, rfl⟩ := Prod.mk.inj (Option.some.inj hparse)
        exact h
      · simp only [parseConnectLevel, Option.bind_eq_bind, Option.pure_def] at hparse
        obtain ⟨level, -, hparse⟩ := Option.bind_eq_some_iff.mp hparse
        split at hparse
        · obtain ⟨-, rfl⟩ := Prod.mk.inj (Option.some.inj hparse)
          exact (h.withInput _).send _
        · obtain ⟨flags, -, hparse⟩ := Option.bind_eq_some_iff.mp hparse
          exact h.parseConnectPayload hparse

theorem HandsOn.packetParsers (h : HandsOn FlagsChecked conn) {type : PacketType} {len : Nat}
    {status : DecodeStatus} (hparse : packetParsers type auth conn len = some (status, next)) :
    HandsOn FlagsChecked next := by
  by_cases htype : type = .connect
  · subst htype
    have hconnect : TinyMqtt.parseConnectPacket auth conn len = some (status, next) := hparse
    exact h.parseConnectPacket hconnect
  · cases packetParsers_outcome hparse with
    | handled buffer next hhandles =>
        refine (h.withInput buffer).handles htype hhandles ?_
        rintro pkt hpkt connect rfl
        exact absurd hpkt.symm htype
    | refused buffer status hrefuses => exact h
    | answered buffer code hconnect hserver => exact absurd hconnect htype

/-! ### The decoder -/

theorem HandsOn.onParsingBody (h : HandsOn FlagsChecked conn) {status : DecodeStatus}
    (hround : onParsingBody auth conn = some (status, next)) : HandsOn FlagsChecked next := by
  simp only [TinyMqtt.onParsingBody, Option.bind_eq_bind, Option.pure_def] at hround
  split at hround
  · obtain ⟨-, rfl⟩ := Prod.mk.inj (Option.some.inj hround)
    exact h
  · obtain ⟨type, -, hround⟩ := Option.bind_eq_some_iff.mp hround
    obtain ⟨⟨status', parsed⟩, hparse, hround⟩ := Option.bind_eq_some_iff.mp hround
    have hentered : HandsOn FlagsChecked (conn.record (.parse type conn.state conn.connState)) := by
      apply h.of_received
      simp [received, Event.packet?]
    have hparsed := hentered.packetParsers hparse
    dsimp only at hround
    split at hround
    · obtain ⟨-, rfl⟩ := Prod.mk.inj (Option.some.inj hround)
      exact hparsed
    · obtain ⟨-, rfl⟩ := Prod.mk.inj (Option.some.inj hround)
      exact hparsed

theorem HandsOn.onParsingRemainLength (h : HandsOn FlagsChecked conn) {entry : Option DecodeStatus}
    {status : DecodeStatus}
    (hround : onParsingRemainLength auth entry conn = some (status, next)) :
    HandsOn FlagsChecked next := by
  unfold TinyMqtt.onParsingRemainLength at hround
  split at hround
  · obtain ⟨status', -, hpair⟩ := Option.map_eq_some_iff.mp hround
    obtain ⟨-, rfl⟩ := Prod.mk.inj hpair
    exact h
  · dsimp only at hround
    split at hround
    · refine HandsOn.onParsingBody ?_ hround
      exact h
    · obtain ⟨-, rfl⟩ := Prod.mk.inj (Option.some.inj hround)
      exact h

theorem HandsOn.decodeRound (h : HandsOn FlagsChecked conn) {status : DecodeStatus}
    (hround : decodeRound auth conn = some (status, next)) : HandsOn FlagsChecked next := by
  unfold TinyMqtt.decodeRound at hround
  split at hround
  · simp only [onParsingFixedHeader, Option.bind_eq_bind, Option.pure_def] at hround
    obtain ⟨byte, -, hround⟩ := Option.bind_eq_some_iff.mp hround
    split at hround
    · obtain ⟨-, rfl⟩ := Prod.mk.inj (Option.some.inj hround)
      exact h
    · split at hround
      · obtain ⟨-, rfl⟩ := Prod.mk.inj (Option.some.inj hround)
        exact h
      · split at hround
        · obtain ⟨-, rfl⟩ := Prod.mk.inj (Option.some.inj hround)
          exact h
        · refine HandsOn.onParsingRemainLength ?_ hround
          exact h
  · exact h.onParsingRemainLength hround
  · exact h.onParsingBody hround

theorem HandsOn.decodeLoop (h : HandsOn FlagsChecked conn) {fuel : Nat}
    (hdecode : decodeLoop auth fuel conn = some next) : HandsOn FlagsChecked next := by
  induction fuel generalizing conn with
  | zero => cases hdecode
  | succ fuel ih =>
      obtain ⟨⟨status, middle⟩, hround, hdecode⟩ := Option.bind_eq_some_iff.mp hdecode
      have hmiddle := h.decodeRound hround
      dsimp only at hdecode
      split at hdecode
      · obtain rfl := Option.some.inj hdecode
        exact hmiddle.close
      · split at hdecode
        · exact ih hmiddle hdecode
        · obtain rfl := Option.some.inj hdecode
          exact hmiddle

/-- A CONNECT that is accepted has flags that passed the checks. -/
theorem connectFlagsValid_of_accepted {pkt : ConnectPkt} (h : Accepted (.connect pkt)) :
    connectFlagsValid pkt.flags = true := by
  obtain ⟨auth, conn, next, hnone, hdecode, hmem⟩ := h
  have hstart : HandsOn FlagsChecked conn := by
    unfold HandsOn
    rw [hnone]
    nofun
  exact hstart.decodeLoop hdecode _ hmem pkt rfl

end TinyMqtt
