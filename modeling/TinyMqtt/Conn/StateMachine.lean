import TinyMqtt.Codec.Dispatch
import TinyMqtt.Codec.Framing
import Mathlib.Logic.Relation

/-!
The state machine of a broker connection. `conn_state` says which member of
the union `upstream` was written last; it is changed by the packet parsers, by
`connect_complete_handler` when the broker answers a CONNECT, and by the close
callback. A run interleaves received chunks, answers, packets written for
other reasons, closing and socket errors in any order.

The decoder checks the state for `NO_SESSION` only. The union is used as
written in every run in which each packet other than CONNECT and DISCONNECT is
decoded in a session and each CONNECT outside one.
-/

namespace TinyMqtt

/-- The broker's answer to a CONNECT (`session_connect_resp`). A refusal
carries no session. -/
inductive ConnectResp where
  | accepted (session : Nat) (sessionPresent : Bool)
  | refused (returnCode : ConnackReturnCode) (hcode : returnCode ≠ connectionAccepted)

def ConnectResp.session : ConnectResp → Option Upstream
  | .accepted session _ => some (.session session)
  | .refused _ _ => none

def connectCompleteHandler (conn : TcpConn) (resp : ConnectResp) : TcpConn :=
  if (resp.session.isSome ∧ conn.connState = .noSession) ∨ conn.state ≠ .connected then
    conn.record (.sessionClose
      (if conn.connState = .noSession then .sessionDisconnect else .sessionForceClose)
      resp.session)
  else
    match resp with
    | .accepted session sessionPresent =>
        let conn := { conn with upstream := .session session, connState := .inSession }
        let conn := conn.send (.connack ⟨if sessionPresent then 1 else 0, connectionAccepted⟩)
        conn.call (.sessionStart (.session session))
    | .refused returnCode _ => conn.send (.connack ⟨0, returnCode⟩)

def connectsTaken (log : List (Event Bytes)) : Nat :=
  log.countP fun
    | .sessionConnect _ => true
    | _ => false

/-- A broker connection and how many of its CONNECT packets were answered. -/
structure BrokerConn where
  conn : TcpConn
  answered : Nat

def BrokerConn.new : BrokerConn := ⟨newConn, 0⟩

inductive ConnStep (auth : BrokerAuth) : BrokerConn → BrokerConn → Prop where
  | receive {b : BrokerConn} {chunk : Bytes} {next : TcpConn} (hchunk : chunk ≠ [])
      (hread : readCb auth b.conn chunk = some next) : ConnStep auth b ⟨next, b.answered⟩
  | answer {b : BrokerConn} (resp : ConnectResp) (hpending : b.answered < connectsTaken b.conn.log) :
      ConnStep auth b ⟨connectCompleteHandler b.conn resp, b.answered + 1⟩
  | write {b : BrokerConn} (pkt : Packet Bytes) : ConnStep auth b ⟨b.conn.send pkt, b.answered⟩
  | close {b : BrokerConn} : ConnStep auth b ⟨b.conn.close, b.answered⟩
  | socketError {b : BrokerConn} (n : Nat) :
      ConnStep auth b ⟨{ b.conn with writeErrorIn := some n }, b.answered⟩

def ConnReachable (auth : BrokerAuth) (b : BrokerConn) : Prop :=
  Relation.ReflTransGen (ConnStep auth) .new b

/-! ### What the union must hold -/

def Upstream.isSession : Upstream → Bool
  | .session _ => true
  | _ => false

/-- A callback is handed the member of the union it expects. -/
def Event.UnionOk : Event Bytes → Prop
  | .onConnect upstream _ => upstream = .broker
  | .onPublish session _ => session.isSession
  | .onPubAck session _ | .onPubRec session _ | .onPubRel session _ | .onPubComp session _ =>
      session.isSession
  | .onSubscribe session _ => session.isSession
  | .onUnsubscribe session _ => session.isSession
  | .onPingReq session => session.isSession
  | .onDisconnect upstream session => upstream = .broker ∧ session.isSession
  | _ => True

/-- A packet was handed to a session or answered. -/
def Event.servesSession : Event Bytes → Bool
  | .onPublish _ _ | .onPubAck _ _ | .onPubRec _ _ | .onPubRel _ _ | .onPubComp _ _
  | .onSubscribe _ _ | .onUnsubscribe _ _ | .onPingReq _ | .send _ => true
  | _ => false

def Event.isOnConnect : Event Bytes → Bool
  | .onConnect _ _ => true
  | _ => false

/-- The union is used as it was written, packets that arrive before the
session is there are neither handed on nor answered, and a CONNECT inside a
session does not reach the broker. -/
structure UnionSafe (log : List (Event Bytes)) : Prop where
  handed : ∀ e ∈ log, e.UnionOk
  starting : ∀ before after type state e,
    log = before ++ .parse type state .startingSession :: e :: after →
    type ≠ .connect → type ≠ .disconnect → ¬ e.servesSession
  connected : ∀ before after state e,
    log = before ++ .parse .connect state .inSession :: e :: after → ¬ e.isOnConnect

/-- The condition on the state a parser is entered in. -/
def ParsePermitted (type : PacketType) (state : TcpConnState) (connState : ConnState) : Prop :=
  match type with
  | .connect => state = .connected ∧ connState ≠ .inSession
  | .disconnect => True
  | _ => connState = .inSession

/-- All packets were decoded in a state that permits them. -/
def LogPermitted (log : List (Event Bytes)) : Prop :=
  ∀ type state connState, .parse type state connState ∈ log → ParsePermitted type state connState

/-! ### The invariant -/

/-- The union holds a session in a session, and the broker while the
connection is open and has none. -/
structure TcpConn.Tagged (conn : TcpConn) : Prop where
  session : conn.connState = .inSession → conn.upstream.isSession
  broker : conn.state ≠ .disconnected → conn.connState ≠ .inSession → conn.upstream = .broker

/-- `next` comes from `conn` by events that use the union well, as long as `P`
holds and the packets among them are permitted. -/
structure Advances (P : Prop) (conn next : TcpConn) : Prop where
  codecType : next.codecType = conn.codecType
  events : ∃ events, next.log = conn.log ++ events ∧
    (P → LogPermitted events → conn.Tagged → next.Tagged ∧ ∀ e ∈ events, e.UnionOk)

theorem LogPermitted.of_append {first second : List (Event Bytes)}
    (hpermitted : LogPermitted (first ++ second)) : LogPermitted first ∧ LogPermitted second :=
  ⟨fun type state connState h => hpermitted type state connState (List.mem_append_left _ h),
    fun type state connState h => hpermitted type state connState (List.mem_append_right _ h)⟩

section Advances

variable {P : Prop} {conn next : TcpConn} {e : Event Bytes}

/-- An action that records nothing and keeps the tag. -/
theorem Advances.silent (hcodec : next.codecType = conn.codecType) (hlog : next.log = conn.log)
    (htagged : P → conn.Tagged → next.Tagged) : Advances P conn next :=
  ⟨hcodec, [], by simpa using hlog, fun hP _ h => ⟨htagged hP h, by simp⟩⟩

theorem Advances.refl (conn : TcpConn) : Advances P conn conn :=
  .silent rfl rfl fun _ htagged => htagged

theorem Advances.trans {middle : TcpConn} (hfirst : Advances P conn middle)
    (hsecond : Advances P middle next) : Advances P conn next := by
  obtain ⟨hcodec, events, hlog, hstep⟩ := hfirst
  obtain ⟨hcodec', events', hlog', hstep'⟩ := hsecond
  refine ⟨hcodec'.trans hcodec, events ++ events', by rw [hlog', hlog, List.append_assoc], ?_⟩
  intro hP hpermitted htagged
  obtain ⟨hleft, hright⟩ := hpermitted.of_append
  obtain ⟨hmiddle, hevents⟩ := hstep hP hleft htagged
  obtain ⟨hlast, hevents'⟩ := hstep' hP hright hmiddle
  refine ⟨hlast, fun e he => ?_⟩
  rcases List.mem_append.mp he with h | h
  · exact hevents e h
  · exact hevents' e h

theorem Advances.record (hevent : P → conn.Tagged → e.UnionOk) :
    Advances P conn (conn.record e) := by
  refine ⟨rfl, [e], rfl, fun hP _ htagged => ⟨⟨htagged.session, htagged.broker⟩, ?_⟩⟩
  intro e' he
  obtain rfl := List.mem_singleton.mp he
  exact hevent hP htagged

/-- A consequence of the tag may be used along the way. -/
theorem Advances.assume {Q : Prop} (hQ : P → conn.Tagged → Q) (hnext : Advances (P ∧ Q) conn next) :
    Advances P conn next := by
  obtain ⟨hcodec, events, hlog, hstep⟩ := hnext
  exact ⟨hcodec, events, hlog, fun hP hpermitted htagged =>
    hstep ⟨hP, hQ hP htagged⟩ hpermitted htagged⟩

theorem advances_close (conn : TcpConn) : Advances P conn conn.close := by
  unfold TcpConn.close
  split
  · exact .refl conn
  · unfold TcpConn.onClose
    split
    · exact .silent rfl rfl fun _ htagged => ⟨htagged.session, fun h => (h rfl).elim⟩
    · split
      · refine ⟨rfl, [.sessionClose .sessionForceClose (some conn.upstream)], rfl, ?_⟩
        intro _ _ _
        refine ⟨⟨?_, fun h => (h rfl).elim⟩, ?_⟩
        · intro h
          cases h
        · intro e he
          obtain rfl := List.mem_singleton.mp he
          trivial
      · exact .silent rfl rfl fun _ htagged => ⟨htagged.session, fun h => (h rfl).elim⟩

theorem advances_tick (conn : TcpConn) : Advances P conn conn.tick := by
  unfold TcpConn.tick
  split
  · exact .refl conn
  · have hhealthy : Advances P conn { conn with writeErrorIn := none } :=
      .silent rfl rfl fun _ htagged => ⟨htagged.session, htagged.broker⟩
    exact hhealthy.trans (advances_close _)
  · exact .silent rfl rfl fun _ htagged => ⟨htagged.session, htagged.broker⟩

theorem advances_call (hevent : P → conn.Tagged → e.UnionOk) : Advances P conn (conn.call e) :=
  (Advances.record hevent).trans (advances_tick _)

theorem advances_send (conn : TcpConn) (pkt : Packet Bytes) : Advances P conn (conn.send pkt) := by
  unfold TcpConn.send
  split
  · exact .refl conn
  · have hrecord : Advances P conn (conn.record (.send pkt)) := .record fun _ _ => trivial
    exact hrecord.trans (advances_tick _)

theorem advances_withInput (conn : TcpConn) (buffer : Bytes) :
    Advances P conn (conn.withInput buffer) :=
  .silent rfl rfl fun _ htagged => ⟨htagged.session, htagged.broker⟩

theorem advances_parsing (conn : TcpConn) (parsing : ParsingCtx) :
    Advances P conn { conn with parsing := parsing } :=
  .silent rfl rfl fun _ htagged => ⟨htagged.session, htagged.broker⟩

end Advances

/-! ### Packets -/

@[simp] theorem TcpConn.close_upstream (conn : TcpConn) : conn.close.upstream = conn.upstream := by
  unfold close onClose
  split
  · rfl
  · cases conn.codecType <;> simp only
    split <;> rfl

@[simp] theorem TcpConn.tick_upstream (conn : TcpConn) : conn.tick.upstream = conn.upstream := by
  unfold tick
  split <;> simp

@[simp] theorem TcpConn.send_upstream (conn : TcpConn) (pkt : Packet Bytes) :
    (conn.send pkt).upstream = conn.upstream := by
  unfold send
  split <;> simp [record]

theorem mqttConnect_advances {P : Prop} (auth : BrokerAuth) (conn : TcpConn) (pkt : ConnectPkt) :
    Advances P conn (mqttConnect auth conn pkt) := by
  unfold mqttConnect
  cases auth.validate pkt with
  | inProgress => exact .record fun _ _ => trivial
  | failure => exact advances_send conn _
  | success => exact .record fun _ _ => trivial

/-- A packet handed to the session, possibly after an answer. -/
theorem advances_session {P : Prop} {conn : TcpConn} {e : Event Bytes}
    (hsession : P → conn.connState = .inSession) (hevent : conn.upstream.isSession → e.UnionOk) :
    Advances P conn (conn.call e) ∧ ∀ ack, Advances P conn ((conn.send ack).call e) := by
  refine ⟨.assume (fun hP htagged => htagged.session (hsession hP))
    (advances_call fun hP _ => hevent hP.2), fun ack => ?_⟩
  exact .assume (fun hP htagged => htagged.session (hsession hP))
    ((advances_send conn ack).trans (advances_call fun hP _ => hevent hP.2))

theorem deliverPublish_advances {P : Prop} {conn : TcpConn} (pkt : PublishPkt Bytes)
    (hsession : P → conn.connState = .inSession) : Advances P conn (deliverPublish conn pkt) := by
  unfold deliverPublish
  split
  · exact advances_call fun _ _ => trivial
  · cases publishAck pkt with
    | none => exact (advances_session hsession id).1
    | some ack =>
        simp only [TcpConn.send_upstream]
        exact (advances_session hsession id).2 ack

theorem handleDisconnect_advances {P : Prop} (conn : TcpConn) :
    Advances P conn (handleDisconnect conn) := by
  have hleave : ∀ {Q : Prop}, Advances Q conn
      { conn with connState := .noSession, upstream := .broker } := by
    refine .silent rfl rfl fun _ _ => ⟨?_, fun _ _ => rfl⟩
    intro h
    cases h
  simp only [handleDisconnect]
  split
  · next hsession =>
    refine .assume (fun _ htagged => htagged.session hsession) ?_
    refine Advances.trans ?_ (.record fun _ _ => trivial)
    refine hleave.trans ?_
    exact advances_call fun hP _ => ⟨rfl, hP.2⟩
  · exact hleave

/-- An accepted packet uses the union as it was written, if its type is
permitted in the state it is parsed in. -/
theorem Handles.advances {auth : BrokerAuth} {conn next : TcpConn} {type : PacketType}
    (hhandles : Handles auth conn type next) (hserver : conn.codecType = .server) :
    Advances (ParsePermitted type conn.state conn.connState) conn next := by
  have hclient : conn.codecType ≠ .client := by simp [hserver]
  cases hhandles with
  | connect pkt _ =>
      refine .assume (fun hP htagged => htagged.broker (by simp [hP.1]) hP.2) ?_
      have hstart : Advances (ParsePermitted .connect conn.state conn.connState ∧
          conn.upstream = .broker) conn { conn with connState := .startingSession } := by
        refine .silent rfl rfl fun hP _ => ⟨?_, fun _ _ => hP.2⟩
        intro h
        cases h
      refine Advances.trans ?_ (mqttConnect_advances auth _ pkt)
      refine hstart.trans ?_
      exact advances_call fun hP _ => hP.2
  | connack pkt hside => exact (hclient hside).elim
  | publish pkt => exact deliverPublish_advances pkt id
  | puback packetId => exact (advances_session id id).1
  | pubrec packetId => exact (advances_session id id).1
  | pubrel packetId =>
      simp only [handlePubRel, handlePacketId, TcpConn.send_upstream]
      exact (advances_session id id).2 _
  | pubcomp packetId => exact (advances_session id id).1
  | subscribe pkt _ => exact (advances_session id id).1
  | suback pkt hside => exact (hclient hside).elim
  | unsubscribe pkt _ => exact (advances_session id id).1
  | unsuback packetId hside => exact (hclient hside).elim
  | pingreq _ =>
      simp only [handlePingReq, TcpConn.send_upstream]
      exact (advances_session id id).2 _
  | pingresp hside => exact (hclient hside).elim
  | disconnect _ => exact handleDisconnect_advances conn

theorem Outcome.advances {auth : BrokerAuth} {conn next : TcpConn} {type : PacketType}
    {status : DecodeStatus} (houtcome : Outcome auth conn type status next)
    (hserver : conn.codecType = .server) :
    Advances (ParsePermitted type conn.state conn.connState) conn next := by
  cases houtcome with
  | handled buffer next hhandles =>
      exact (advances_withInput conn buffer).trans (hhandles.advances hserver)
  | refused buffer status hrefuses => exact advances_withInput conn buffer
  | answered buffer code htype _ =>
      exact (advances_withInput conn buffer).trans (advances_send _ _)

/-! ### Rounds, calls and runs -/

/-- The marker a parser leaves in the log supplies the permission. -/
theorem advances_enter {conn next : TcpConn} {type : PacketType}
    (hnext : Advances (ParsePermitted type conn.state conn.connState)
      (conn.record (.parse type conn.state conn.connState)) next) : Advances True conn next := by
  obtain ⟨hcodec, events, hlog, hstep⟩ := hnext
  refine ⟨hcodec, .parse type conn.state conn.connState :: events, by simp [hlog], ?_⟩
  intro _ hpermitted htagged
  have hmarker := hpermitted _ _ _ List.mem_cons_self
  have hrest : LogPermitted events :=
    fun type state connState h => hpermitted type state connState (List.mem_cons_of_mem _ h)
  obtain ⟨hlast, hevents⟩ := hstep hmarker hrest ⟨htagged.session, htagged.broker⟩
  refine ⟨hlast, fun e he => ?_⟩
  rcases List.mem_cons.mp he with rfl | h
  · trivial
  · exact hevents e h

section Decoder

variable {auth : BrokerAuth} {conn next : TcpConn} {status : DecodeStatus}

theorem onParsingBody_advances (hserver : conn.codecType = .server)
    (hround : onParsingBody auth conn = some (status, next)) : Advances True conn next := by
  simp only [onParsingBody, Option.bind_eq_bind, Option.pure_def] at hround
  split at hround
  · simp only [Option.some.injEq, Prod.mk.injEq] at hround
    obtain ⟨-, rfl⟩ := hround
    exact .refl conn
  · simp only [Option.bind_eq_some_iff] at hround
    obtain ⟨type, htype, ⟨status', parsed⟩, hparse, hround⟩ := hround
    have houtcome : Advances (ParsePermitted type conn.state conn.connState)
        (conn.record (.parse type conn.state conn.connState)) parsed :=
      (packetParsers_outcome hparse).advances hserver
    have hparsed := advances_enter houtcome
    split at hround
    · simp only [Option.some.injEq, Prod.mk.injEq] at hround
      obtain ⟨-, rfl⟩ := hround
      exact hparsed.trans (advances_parsing _ _)
    · simp only [Option.some.injEq, Prod.mk.injEq] at hround
      obtain ⟨-, rfl⟩ := hround
      exact hparsed

theorem onParsingRemainLength_advances {entry : Option DecodeStatus}
    (hserver : conn.codecType = .server)
    (hround : onParsingRemainLength auth entry conn = some (status, next)) :
    Advances True conn next := by
  simp only [onParsingRemainLength] at hround
  split at hround
  · obtain ⟨status', -, heq⟩ := Option.map_eq_some_iff.mp hround
    simp only [Prod.mk.injEq] at heq
    obtain ⟨-, rfl⟩ := heq
    exact .refl conn
  · have hread := (advances_parsing (P := True) conn
      (parseRemainLength conn.parsing conn.inBuffer).2.1).trans
        (advances_withInput _ (parseRemainLength conn.parsing conn.inBuffer).2.2)
    split at hround
    · exact (hread.trans (advances_parsing _ _)).trans (onParsingBody_advances hserver hround)
    · simp only [Option.some.injEq, Prod.mk.injEq] at hround
      obtain ⟨-, rfl⟩ := hround
      exact hread

theorem onParsingFixedHeader_advances (hserver : conn.codecType = .server)
    (hround : onParsingFixedHeader auth conn = some (status, next)) : Advances True conn next := by
  simp only [onParsingFixedHeader, Option.bind_eq_bind, Option.bind_eq_some_iff,
    Option.pure_def] at hround
  obtain ⟨byte, -, hround⟩ := hround
  have hread := advances_withInput (P := True) conn (tmqBufferRead8 conn.inBuffer).2
  split at hround
  · simp only [Option.some.injEq, Prod.mk.injEq] at hround
    obtain ⟨-, rfl⟩ := hround
    exact hread
  · have hheader := hread.trans (advances_parsing _ ⟨.parsingRemainLength, byte, 0, 1⟩)
    split at hround
    · simp only [Option.some.injEq, Prod.mk.injEq] at hround
      obtain ⟨-, rfl⟩ := hround
      exact hheader
    · split at hround
      · simp only [Option.some.injEq, Prod.mk.injEq] at hround
        obtain ⟨-, rfl⟩ := hround
        exact hheader
      · exact hheader.trans (onParsingRemainLength_advances hserver hround)

theorem decodeRound_advances (hserver : conn.codecType = .server)
    (hround : decodeRound auth conn = some (status, next)) : Advances True conn next := by
  unfold decodeRound at hround
  split at hround
  · exact onParsingFixedHeader_advances hserver hround
  · exact onParsingRemainLength_advances hserver hround
  · exact onParsingBody_advances hserver hround

theorem decodeLoop_advances {fuel : Nat} (hserver : conn.codecType = .server)
    (hloop : decodeLoop auth fuel conn = some next) : Advances True conn next := by
  induction fuel generalizing conn with
  | zero => simp [decodeLoop] at hloop
  | succ fuel ih =>
      simp only [decodeLoop, Option.bind_eq_bind, Option.bind_eq_some_iff,
        Option.pure_def] at hloop
      obtain ⟨⟨status, middle⟩, hround, hloop⟩ := hloop
      have hmiddle := decodeRound_advances hserver hround
      dsimp only at hloop
      split at hloop
      · obtain rfl := Option.some.inj hloop
        exact hmiddle.trans (advances_close middle)
      · split at hloop
        · exact hmiddle.trans (ih (hmiddle.codecType.trans hserver) hloop)
        · obtain rfl := Option.some.inj hloop
          exact hmiddle

theorem readCb_advances {chunk : Bytes} (hserver : conn.codecType = .server)
    (hread : readCb auth conn chunk = some next) : Advances True conn next := by
  unfold readCb at hread
  split at hread
  · exact (advances_withInput conn (conn.inBuffer ++ chunk)).trans
      (decodeLoop_advances hserver hread)
  · obtain rfl := Option.some.inj hread
    exact .refl conn

end Decoder

theorem connectCompleteHandler_advances (conn : TcpConn) (resp : ConnectResp) :
    Advances True conn (connectCompleteHandler conn resp) := by
  unfold connectCompleteHandler
  split
  · exact .record fun _ _ => trivial
  · cases resp with
    | accepted session sessionPresent =>
        have henter : Advances True conn
            { conn with upstream := .session session, connState := .inSession } :=
          .silent rfl rfl fun _ _ => ⟨fun _ => rfl, fun _ h => (h rfl).elim⟩
        exact (henter.trans (advances_send _ _)).trans (advances_call fun _ _ => trivial)
    | refused returnCode hcode => exact advances_send conn _

theorem ConnStep.advances {auth : BrokerAuth} {b next : BrokerConn} (hstep : ConnStep auth b next)
    (hserver : b.conn.codecType = .server) : Advances True b.conn next.conn := by
  cases hstep with
  | receive hchunk hread => exact readCb_advances hserver hread
  | answer resp hpending => exact connectCompleteHandler_advances b.conn resp
  | write pkt => exact advances_send b.conn pkt
  | close => exact advances_close b.conn
  | socketError n =>
      exact .silent rfl rfl fun _ htagged => ⟨htagged.session, htagged.broker⟩

/-- A whole run advances from the new connection. -/
theorem ConnReachable.advances {auth : BrokerAuth} {b : BrokerConn} (hreach : ConnReachable auth b) :
    Advances True newConn b.conn := by
  induction hreach with
  | refl => exact .refl newConn
  | tail _ hstep ih => exact ih.trans (hstep.advances ih.codecType)

/-- In every run whose packets are all decoded in a state that permits them,
the union is used as it was written. -/
theorem unionSafe_of_permitted (auth : BrokerAuth) (b : BrokerConn)
    (hreach : ConnReachable auth b) (hpermitted : LogPermitted b.conn.log) :
    UnionSafe b.conn.log := by
  obtain ⟨-, events, hlog, hstep⟩ := hreach.advances
  have htagged : newConn.Tagged := by
    refine ⟨fun h => ?_, fun _ _ => rfl⟩
    cases h
  have hevents : b.conn.log = events := hlog
  rw [hevents] at hpermitted ⊢
  refine ⟨(hstep trivial hpermitted htagged).2, ?_, ?_⟩
  · rintro before after type state e rfl hconnect hdisconnect
    have hmarker := hpermitted type state .startingSession (by simp)
    cases type <;> first | exact (hconnect rfl).elim | exact (hdisconnect rfl).elim | cases hmarker
  · rintro before after state e rfl
    have hmarker := hpermitted .connect state .inSession (by simp)
    exact (hmarker.2 rfl).elim

def connectBytes : Bytes :=
  [0x10, 0x0C, 0x00, 0x04, 0x4D, 0x51, 0x54, 0x54, 0x04, 0x02, 0x00, 0x3C, 0x00, 0x00]

def connectedConn : TcpConn :=
  { newConn with
    connState := .startingSession, parsing := ⟨.parsingFixedHeader, 0x10, 12, 128⟩
    log := [.parse .connect .connected .noSession,
      .onConnect .broker ⟨0x02, 60, none, none, none, none, none⟩,
      .sessionConnect ⟨0x02, 60, none, none, none, none, none⟩] }

theorem readCb_connect : readCb openAuth newConn connectBytes = some connectedConn := by
  decide

/-- It is taken into the session 7, and a PINGREQ is handed to that session. -/
theorem unionSafe_session :
    ∃ b, ConnReachable openAuth b ∧ LogPermitted b.conn.log ∧
      .onPingReq (.session 7) ∈ b.conn.log ∧ UnionSafe b.conn.log := by
  have hsession : ConnReachable openAuth
      ⟨connectCompleteHandler connectedConn (.accepted 7 false), 1⟩ :=
    .tail (.single (.receive (b := .new) (by decide) readCb_connect))
      (.answer (b := ⟨connectedConn, 0⟩) (.accepted 7 false) (by decide))
  have hlog : (readCb openAuth (connectCompleteHandler connectedConn (.accepted 7 false))
      [0xC0, 0x00]).map TcpConn.log = some [.parse .connect .connected .noSession,
        .onConnect .broker ⟨0x02, 60, none, none, none, none, none⟩,
        .sessionConnect ⟨0x02, 60, none, none, none, none, none⟩,
        .send (.connack ⟨0, connectionAccepted⟩), .sessionStart (.session 7),
        .parse .pingreq .connected .inSession, .send .pingresp, .onPingReq (.session 7)] := by
    decide
  obtain ⟨next, hread, hlog⟩ := Option.map_eq_some_iff.mp hlog
  have hreach : ConnReachable openAuth ⟨next, 1⟩ :=
    hsession.tail (.receive (by decide) hread)
  have hpermitted : LogPermitted next.log := by
    intro type state connState hmember
    rw [hlog] at hmember
    simp only [List.mem_cons, List.not_mem_nil, or_false, reduceCtorEq, false_or,
      Event.parse.injEq] at hmember
    rcases hmember with ⟨rfl, rfl, rfl⟩ | ⟨rfl, rfl, rfl⟩
    · exact ⟨rfl, by decide⟩
    · rfl
  refine ⟨⟨next, 1⟩, hreach, hpermitted, ?_, unionSafe_of_permitted openAuth _ hreach hpermitted⟩
  change _ ∈ next.log
  rw [hlog]
  simp

/-- A PINGREQ pipelined behind the CONNECT is answered and handed to the
session handler with the broker in the union. -/
theorem not_unionSafe_pipelined :
    ¬ ∀ b : BrokerConn, ConnReachable openAuth b → UnionSafe b.conn.log := by
  intro hsafe
  have hread : readCb openAuth newConn (connectBytes ++ [0xC0, 0x00]) = some { newConn with
      connState := .startingSession, parsing := ⟨.parsingFixedHeader, 0xC0, 0, 128⟩,
      log := [.parse .connect .connected .noSession,
        .onConnect .broker ⟨0x02, 60, none, none, none, none, none⟩,
        .sessionConnect ⟨0x02, 60, none, none, none, none, none⟩,
        .parse .pingreq .connected .startingSession, .send .pingresp, .onPingReq .broker] } := by
    decide
  have hreach := Relation.ReflTransGen.single
    (ConnStep.receive (b := .new) (show connectBytes ++ [0xC0, 0x00] ≠ [] by decide) hread)
  have hhanded := (hsafe _ hreach).handed (.onPingReq .broker) (by simp)
  cases hhanded

end TinyMqtt
