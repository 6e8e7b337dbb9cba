import TinyMqtt.Broker.Coherence
import TinyMqtt.Broker.Sessions
import TinyMqtt.Server.Server
import TinyMqtt.Session.Progress

/-!
Packets in flight. An open session is still being answered, or it is being
closed on a connection out of session, or what it has in flight was written to
its connection. A task that was queued for a closed session only stores the
message, so it breaks this when the session is back by the time the task is
handled.
-/

namespace TinyMqtt

open LinkedList

variable {π J : Type}

def Awaited (responses : List ConnectMail) (s : Nat) : Prop :=
  ∃ mail ∈ responses, mail.resp.address = some s

def Closing (requests : List (Request π)) (s : Nat) : Prop :=
  ∃ request ∈ requests, request.closes = some s

def InSession (conns : Nat → Option ClientConn) (k : Nat) : Prop :=
  ∃ conn, conns k = some conn ∧ conn.connState = .inSession

theorem connected_iff (conns : Nat → Option ClientConn) (k : Nat) :
    connected conns k = true ↔ ∃ conn, conns k = some conn ∧ conn.state = .connected := by
  cases hconn : conns k <;> simp [connected, hconn]

theorem isSome_update {α β : Type} [DecidableEq α] {f : α → Option β} {a' : α}
    (h : (f a').isSome) (a : α) (b : β) : (Function.update f a (some b) a').isSome := by
  by_cases ha : a' = a
  · simp [ha]
  · rwa [Function.update_of_ne ha]

variable [TmqString π]

/-- Copies of the first `inflight_packets` packets of the store are among the
packets written. -/
def Flushed (written : List (Packet π)) (flow : Session π) : Prop :=
  ∀ queue, Segment flow.heap flow.messageStore.sendingQueueHead queue none →
    ∀ queued ∈ queue.take flow.inflightPackets.toNat, cloneForSending queued.2.packet ∈ written

theorem flushed_iff {flow : Session π} {window : Nat} {queue : List (QueuedPacket π)}
    (h : Represents flow window queue) (written : List (Packet π)) :
    Flushed written flow ↔
      ∀ queued ∈ queue.take window, cloneForSending queued.2.packet ∈ written := by
  constructor
  · intro hflushed queued hmem
    rw [← h.take_inflight] at hmem
    exact hflushed queue h.linked queued hmem
  · intro hwritten found hfound queued hmem
    obtain rfl := segment_unique hfound h.linked
    rw [h.take_inflight] at hmem
    exact hwritten queued hmem

theorem Flushed.progress {flow next : Session π} {window : Nat}
    {queue fresh after : List (QueuedPacket π)} {packets written : List (Packet π)}
    (hflushed : Flushed written flow) (h : Represents flow window queue)
    (h' : Represents next window after) (hprogress : Progress window queue fresh after packets) :
    Flushed (written ++ packets) next := by
  rw [flushed_iff h']
  intro queued hmem
  rcases hprogress.sent queued hmem with hold | hsent
  · exact List.mem_append_left _ ((flushed_iff h written).mp hflushed queued hold)
  · exact List.mem_append_right _ hsent

theorem Flushed.append {flow : Session π} {written : List (Packet π)} (h : Flushed written flow)
    (packets : List (Packet π)) : Flushed (written ++ packets) flow := by
  intro queue hqueue queued hmem
  exact List.mem_append_left _ (h queue hqueue queued hmem)

/-- A flow works with the queue that its store represents. -/
def Sound (flow : Session π) : Prop :=
  ∃ queue, Represents flow flow.inflightWindowSize.toNat queue

omit [TmqString π] in
theorem Represents.sound {flow : Session π} {window : Nat} {queue : List (QueuedPacket π)}
    (h : Represents flow window queue) : Sound flow :=
  ⟨queue, by rw [h.windowSize]; exact h⟩

/-! ### The invariant -/

/-- What is known of an open session. -/
def Delivers (conns : Nat → Option ClientConn) (responses : List ConnectMail)
    (requests : List (Request π)) (written : Nat → List (Packet π)) (s k : Nat)
    (flow : Session π) : Prop :=
  Awaited responses s ∨ (Closing requests s ∧ ¬ InSession conns k) ∨
    (connected conns k → Flushed (written k) flow)

structure Delivering (conns : Nat → Option ClientConn) (heap : Nat → Option (SessionRecord π))
    (responses : List ConnectMail) (requests : List (Request π))
    (flows : Nat → Option (Session π)) (written : Nat → List (Packet π)) : Prop where
  connected : ∀ k conn, conns k = some conn → conn.connState = .inSession →
    conn.state = .connected
  located : ∀ s session, heap s = some session → (conns session.conn).isSome
  flow : ∀ s session, heap s = some session → ∃ flow, flows s = some flow ∧ Sound flow ∧
    (session.state = .opened → Delivers conns responses requests written s session.conn flow)

namespace Delivering

variable {conns : Nat → Option ClientConn} {heap : Nat → Option (SessionRecord π)}
  {responses : List ConnectMail} {requests : List (Request π)} {flows : Nat → Option (Session π)}
  {written : Nat → List (Packet π)} {k s : Nat}

theorem weaken (h : Delivering conns heap responses requests flows written)
    {responses' : List ConnectMail} {requests' : List (Request π)}
    (hresponses : ∀ s, Awaited responses s → Awaited responses' s)
    (hrequests : ∀ s session, heap s = some session → session.state = .opened →
      Closing requests s → Closing requests' s) :
    Delivering conns heap responses' requests' flows written := by
  refine ⟨h.connected, h.located, ?_⟩
  intro s session hsession
  obtain ⟨flow, hflow, hsound, hdelivers⟩ := h.flow s session hsession
  refine ⟨flow, hflow, hsound, ?_⟩
  intro hopened
  rcases hdelivers hopened with hawaited | ⟨hclosing, hout⟩ | hflushed
  · exact .inl (hresponses s hawaited)
  · exact .inr (.inl ⟨hrequests s session hsession hopened hclosing, hout⟩)
  · exact .inr (.inr hflushed)

theorem post (h : Delivering conns heap responses requests flows written) (request : Request π) :
    Delivering conns heap responses (requests ++ [request]) flows written := by
  refine h.weaken (fun s hawaited => hawaited) ?_
  rintro s session - - ⟨found, hfound, hcloses⟩
  exact ⟨found, List.mem_append_left _ hfound, hcloses⟩

theorem respond (h : Delivering conns heap responses requests flows written) (mail : ConnectMail) :
    Delivering conns heap (responses ++ [mail]) requests flows written := by
  refine h.weaken ?_ (fun s session _ _ hclosing => hclosing)
  rintro s ⟨found, hfound, haddress⟩
  exact ⟨found, List.mem_append_left _ hfound, haddress⟩

/-- A request leaves the queue once the session it closes is closed. -/
theorem dequeue {request : Request π}
    (h : Delivering conns heap responses (request :: requests) flows written)
    (hclosed : ∀ s session, request.closes = some s → heap s = some session →
      session.state = .closed) :
    Delivering conns heap responses requests flows written := by
  refine h.weaken (fun s hawaited => hawaited) ?_
  rintro s session hsession hopened ⟨found, hfound, hcloses⟩
  rcases List.mem_cons.mp hfound with rfl | hrest
  · have hstate := hclosed s session hcloses hsession
    rw [hopened] at hstate
    cases hstate
  · exact ⟨found, hrest, hcloses⟩

/-- A connection changes without being opened or taken into a session. -/
theorem setConn (h : Delivering conns heap responses requests flows written)
    {conn changed : ClientConn} (hconn : conns k = some conn)
    (hin : changed.connState = .inSession →
      conn.connState = .inSession ∧ changed.state = .connected)
    (hopen : changed.state = .connected → conn.state = .connected) :
    Delivering (Function.update conns k (some changed)) heap responses requests flows written := by
  have hsession : ∀ k', InSession (Function.update conns k (some changed)) k' →
      InSession conns k' := by
    rintro k' ⟨found, hfound, hstate⟩
    rcases update_cases hfound with ⟨rfl, rfl⟩ | ⟨-, hbefore⟩
    · exact ⟨conn, hconn, (hin hstate).1⟩
    · exact ⟨found, hbefore, hstate⟩
  have hconnected : ∀ k', TinyMqtt.connected (Function.update conns k (some changed)) k' = true →
      TinyMqtt.connected conns k' = true := by
    intro k' htakes
    rw [connected_iff] at htakes ⊢
    obtain ⟨found, hfound, hstate⟩ := htakes
    rcases update_cases hfound with ⟨rfl, rfl⟩ | ⟨-, hbefore⟩
    · exact ⟨conn, hconn, hopen hstate⟩
    · exact ⟨found, hbefore, hstate⟩
  constructor
  · intro k' found hfound hstate
    rcases update_cases hfound with ⟨rfl, rfl⟩ | ⟨-, hbefore⟩
    · exact (hin hstate).2
    · exact h.connected k' found hbefore hstate
  · intro s session hfound
    exact isSome_update (h.located s session hfound) _ _
  · intro s session hfound
    obtain ⟨flow, hflow, hsound, hdelivers⟩ := h.flow s session hfound
    refine ⟨flow, hflow, hsound, ?_⟩
    intro hopened
    rcases hdelivers hopened with hawaited | ⟨hclosing, hout⟩ | hflushed
    · exact .inl hawaited
    · exact .inr (.inl ⟨hclosing, fun hstate => hout (hsession _ hstate)⟩)
    · exact .inr (.inr fun htakes => hflushed (hconnected _ htakes))

/-- A connection that is in no session afterwards. -/
theorem setOut (h : Delivering conns heap responses requests flows written)
    {conn changed : ClientConn} (hconn : conns k = some conn)
    (hout : changed.connState ≠ .inSession)
    (hopen : changed.state = .connected → conn.state = .connected) :
    Delivering (Function.update conns k (some changed)) heap responses requests flows written :=
  h.setConn hconn (fun hin => (hout hin).elim) hopen

/-- A new connection is the connection of no session yet. -/
theorem accept (h : Delivering conns heap responses requests flows written) {conn : ClientConn}
    (hnew : conns k = none) (hidle : conn.connState = .noSession) :
    Delivering (Function.update conns k (some conn)) heap responses requests flows written := by
  have hother : ∀ s session, heap s = some session → session.conn ≠ k := by
    rintro s session hsession rfl
    have hsome := h.located s session hsession
    rw [hnew] at hsome
    cases hsome
  constructor
  · intro k' found hfound hstate
    rcases update_cases hfound with ⟨rfl, rfl⟩ | ⟨-, hbefore⟩
    · rw [hidle] at hstate
      cases hstate
    · exact h.connected k' found hbefore hstate
  · intro s session hsession
    rw [Function.update_of_ne (hother s session hsession)]
    exact h.located s session hsession
  · intro s session hsession
    obtain ⟨flow, hflow, hsound, hdelivers⟩ := h.flow s session hsession
    refine ⟨flow, hflow, hsound, ?_⟩
    have hsame := Function.update_of_ne (hother s session hsession) (some conn) conns
    simpa only [Delivers, InSession, TinyMqtt.connected, hsame] using hdelivers

/-- A session that is open after a change is awaited or was open on the same
connection. -/
theorem setSession (h : Delivering conns heap responses requests flows written)
    {session changed : SessionRecord π} (hsession : heap s = some session)
    (hconn : (conns changed.conn).isSome)
    (hopened : changed.state = .opened → Awaited responses s ∨
      (session.state = .opened ∧ changed.conn = session.conn)) :
    Delivering conns (Function.update heap s (some changed)) responses requests flows written := by
  refine ⟨h.connected, ?_, ?_⟩
  · intro s' found hfound
    rcases update_cases hfound with ⟨rfl, rfl⟩ | ⟨-, hbefore⟩
    · exact hconn
    · exact h.located s' found hbefore
  · intro s' found hfound
    rcases update_cases hfound with ⟨rfl, rfl⟩ | ⟨-, hbefore⟩
    · obtain ⟨flow, hflow, hsound, hdelivers⟩ := h.flow s' session hsession
      refine ⟨flow, hflow, hsound, ?_⟩
      intro hstate
      rcases hopened hstate with hawaited | ⟨hwas, hsame⟩
      · exact .inl hawaited
      · rw [hsame]
        exact hdelivers hwas
    · exact h.flow s' found hbefore

theorem setFields (h : Delivering conns heap responses requests flows written)
    {session changed : SessionRecord π} (hsession : heap s = some session)
    (hconn : changed.conn = session.conn)
    (hstate : changed.state = .opened → session.state = .opened) :
    Delivering conns (Function.update heap s (some changed)) responses requests flows written := by
  refine h.setSession hsession ?_ ?_
  · rw [hconn]
    exact h.located s session hsession
  · intro hopened
    exact .inr ⟨hstate hopened, hconn⟩

/-- A close request is carried out. -/
theorem close {op : SessionReqOp}
    (h : Delivering conns heap responses (.close op (some s) :: requests) flows written)
    {session changed : SessionRecord π} (hsession : heap s = some session)
    (hconn : changed.conn = session.conn) (hclosed : changed.state = .closed) :
    Delivering conns (Function.update heap s (some changed)) responses requests flows written := by
  have hchanged := h.setFields hsession hconn (by simp [hclosed])
  apply hchanged.dequeue
  intro s' found hcloses hfound
  obtain rfl := Option.some.inj hcloses
  rw [Function.update_self] at hfound
  obtain rfl := Option.some.inj hfound
  exact hclosed

/-- A new session is awaited. -/
theorem insert (h : Delivering conns heap responses requests flows written)
    {session : SessionRecord π} {flow : Session π} (hfree : heap s = none)
    (hconn : (conns session.conn).isSome) (hawaited : Awaited responses s) (hsound : Sound flow) :
    Delivering conns (Function.update heap s (some session)) responses requests
      (Function.update flows s (some flow)) written := by
  refine ⟨h.connected, ?_, ?_⟩
  · intro s' found hfound
    rcases update_cases hfound with ⟨rfl, rfl⟩ | ⟨-, hbefore⟩
    · exact hconn
    · exact h.located s' found hbefore
  · intro s' found hfound
    rcases update_cases hfound with ⟨rfl, rfl⟩ | ⟨hs, hbefore⟩
    · exact ⟨flow, Function.update_self .., hsound, fun _ => .inl hawaited⟩
    · rw [Function.update_of_ne hs]
      exact h.flow s' found hbefore

/-- The flow of a session moves on, and the connections are written to. -/
theorem setFlow (h : Delivering conns heap responses requests flows written) {flow : Session π}
    {written' : Nat → List (Packet π)} (hsound : Sound flow)
    (hwritten : ∀ k, ∃ packets, written' k = written k ++ packets)
    (hdelivers : ∀ session, heap s = some session → session.state = .opened →
      Delivers conns responses requests written' s session.conn flow) :
    Delivering conns heap responses requests (Function.update flows s (some flow)) written' := by
  refine ⟨h.connected, h.located, ?_⟩
  intro s' session hsession
  by_cases hs : s' = s
  · subst hs
    exact ⟨flow, Function.update_self .., hsound, hdelivers session hsession⟩
  · rw [Function.update_of_ne hs]
    obtain ⟨found, hfound, hsound', hdelivers'⟩ := h.flow s' session hsession
    refine ⟨found, hfound, hsound', ?_⟩
    intro hopened
    rcases hdelivers' hopened with hawaited | hclosing | hflushed
    · exact .inl hawaited
    · exact .inr (.inl hclosing)
    · refine .inr (.inr fun htakes => ?_)
      obtain ⟨packets, hpackets⟩ := hwritten session.conn
      rw [hpackets]
      exact (hflushed htakes).append packets

/-- A connect response leaves the mailbox. The session it carries has by then
a close request on its way, or has written what it has in flight. -/
theorem take {before after : List ConnectMail} {mail : ConnectMail}
    (h : Delivering conns heap (before ++ mail :: after) requests flows written)
    (hdone : ∀ s session flow, mail.resp.address = some s → heap s = some session →
      flows s = some flow → (Closing requests s ∧ ¬ InSession conns session.conn) ∨
        (TinyMqtt.connected conns session.conn → Flushed (written session.conn) flow)) :
    Delivering conns heap (before ++ after) requests flows written := by
  refine ⟨h.connected, h.located, ?_⟩
  intro s session hsession
  obtain ⟨flow, hflow, hsound, hdelivers⟩ := h.flow s session hsession
  refine ⟨flow, hflow, hsound, ?_⟩
  intro hopened
  rcases hdelivers hopened with ⟨found, hfound, haddress⟩ | hother
  · rcases List.mem_append.mp hfound with hbefore | hrest
    · exact .inl ⟨found, List.mem_append_left _ hbefore, haddress⟩
    · rcases List.mem_cons.mp hrest with rfl | hafter
      · exact .inr (hdone s session flow haddress hsession hflow)
      · exact .inl ⟨found, List.mem_append_right _ hafter, haddress⟩
  · exact .inr hother

/-- A connection enters a session. The sessions on it that are being closed
have nothing in flight. -/
theorem enter (h : Delivering conns heap responses requests flows written)
    {conn changed : ClientConn} (hconn : conns k = some conn) (hopen : conn.state = .connected)
    (hstate : changed.state = conn.state)
    (hclear : ∀ s session flow, heap s = some session → session.conn = k →
      session.state = .opened → Closing requests s → flows s = some flow →
      flow.inflightPackets = 0) :
    Delivering (Function.update conns k (some changed)) heap responses requests flows written := by
  have hconnected : ∀ k', TinyMqtt.connected (Function.update conns k (some changed)) k' =
      TinyMqtt.connected conns k' := by
    intro k'
    by_cases hk : k' = k
    · subst hk
      simp [TinyMqtt.connected, hconn, hstate]
    · simp [TinyMqtt.connected, hk]
  constructor
  · intro k' found hfound hin
    rcases update_cases hfound with ⟨rfl, rfl⟩ | ⟨-, hbefore⟩
    · exact hstate.trans hopen
    · exact h.connected k' found hbefore hin
  · intro s session hsession
    exact isSome_update (h.located s session hsession) _ _
  · intro s session hsession
    obtain ⟨flow, hflow, hsound, hdelivers⟩ := h.flow s session hsession
    refine ⟨flow, hflow, hsound, ?_⟩
    intro hopened
    rcases hdelivers hopened with hawaited | ⟨hclosing, hout⟩ | hflushed
    · exact .inl hawaited
    · by_cases hk : session.conn = k
      · have hnone := hclear s session flow hsession hk hopened hclosing hflow
        refine .inr (.inr fun _ queue _ queued hmem => ?_)
        rw [hnone] at hmem
        cases hmem
      · refine .inr (.inl ⟨hclosing, ?_⟩)
        rintro ⟨found, hfound, hin⟩
        rw [Function.update_of_ne hk] at hfound
        exact hout ⟨found, hfound, hin⟩
    · refine .inr (.inr fun htakes => ?_)
      rw [hconnected] at htakes
      exact hflushed htakes

end Delivering

namespace Server

variable {config : BrokerConfig π J} {server next : Server π} {s : Nat}

def Delivering (server : Server π) : Prop :=
  TinyMqtt.Delivering server.broker.conns server.broker.heap server.broker.mqttConnectResponses
    server.broker.requests server.flows server.written

/-- The session is open on a connection that takes packets and no longer being
answered, and not on its way to be closed either. -/
structure Settled (server : Server π) (s : Nat) (session : SessionRecord π) : Prop where
  opened : session.state = .opened
  takes : connected server.broker.conns session.conn = true
  answered : ¬ Awaited server.broker.mqttConnectResponses s
  kept : Closing server.broker.requests s → InSession server.broker.conns session.conn

/-- What a session hands to its connection reaches it when the connection is
open. -/
theorem Delivering.run (h : server.Delivering) {session : SessionRecord π} {flow after : Session π}
    (hrun : FlowRun server next s session flow after) {packets : List (Packet π)}
    (hsent : after.sent = flow.sent ++ packets) (hsound : Sound after)
    (hflushed : server.Settled s session → ∀ written, Flushed written flow →
      Flushed (written ++ packets) after) : next.Delivering := by
  have hdrop : after.sent.drop flow.sent.length = packets := by
    rw [hsent, List.drop_left]
  unfold Delivering
  rw [hrun.broker, hrun.flows, hrun.written, hdrop]
  refine h.setFlow hsound ?_ ?_
  · intro k
    exact ⟨_, written_write server session.conn k packets⟩
  · intro found hfound hopened
    obtain rfl := Option.some.inj (hrun.found.symm.trans hfound)
    obtain ⟨current, hcurrent, -, hdelivers⟩ := h.flow s session hfound
    obtain rfl := Option.some.inj (hrun.current.symm.trans hcurrent)
    by_cases hsettled : server.Settled s session
    · refine .inr (.inr fun htakes => ?_)
      rw [written_write, if_pos ⟨rfl, htakes⟩]
      apply hflushed hsettled
      rcases hdelivers hopened with hawaited | ⟨hclosing, hout⟩ | hwritten
      · exact (hsettled.answered hawaited).elim
      · exact (hout (hsettled.kept hclosing)).elim
      · exact hwritten htakes
    · by_cases hawaited : Awaited server.broker.mqttConnectResponses s
      · exact .inl hawaited
      · by_cases hleaving : Closing server.broker.requests s ∧
            ¬ InSession server.broker.conns session.conn
        · exact .inr (.inl hleaving)
        · refine .inr (.inr fun htakes => (hsettled ⟨hopened, htakes, hawaited, ?_⟩).elim)
          intro hclosing
          by_contra hout
          exact hleaving ⟨hclosing, hout⟩

/-! ### The functions of a session -/

theorem Delivering.write (h : server.Delivering) (k : Nat) (packets : List (Packet π)) :
    (server.write k packets).Delivering := by
  obtain ⟨hbroker, hflows, -⟩ := server.write_frame k packets
  unfold Delivering
  rw [hbroker, hflows]
  refine ⟨h.connected, h.located, ?_⟩
  intro s session hsession
  obtain ⟨flow, hflow, hsound, hdelivers⟩ := h.flow s session hsession
  refine ⟨flow, hflow, hsound, ?_⟩
  intro hopened
  rcases hdelivers hopened with hawaited | hclosing | hflushed
  · exact .inl hawaited
  · exact .inr (.inl hclosing)
  · refine .inr (.inr fun htakes => ?_)
    rw [written_write]
    exact (hflushed htakes).append _

/-- A packet is handled on behalf of a session. -/
theorem Delivering.handleEvent (h : server.Delivering) {k : Nat} {malloc : Addr} {event : Event π}
    (hhandle : server.handleEvent config k s malloc event = some next) :
    next.Delivering ∧ next.broker = server.broker := by
  rcases handleEvent_eq_some hhandle with
    ⟨pkt, rfl, rfl⟩ | ⟨hsend, session, flow, after, hafter, hfree, hrun⟩
  · exact ⟨h.write k [pkt], (server.write_frame k [pkt]).1⟩
  · obtain ⟨current, hcurrent, ⟨queue, hqueue⟩, -⟩ := h.flow s session hrun.found
    obtain rfl := Option.some.inj (hrun.current.symm.trans hcurrent)
    obtain ⟨fresh, queue', packets, hqueue', hsent, hprogress, -, -⟩ :=
      handleEvent_progress hqueue hsend hfree hafter
    refine ⟨h.run hrun hsent hqueue'.sound ?_, hrun.broker⟩
    intro _ written hflushed
    exact hflushed.progress hqueue hqueue' hprogress

theorem Delivering.handleEvents (h : server.Delivering) {k : Nat} {malloc : Addr}
    {events : List (Event π)}
    (hhandle : events.foldlM (Server.handleEvent config k s malloc) server = some next) :
    next.Delivering ∧ next.broker = server.broker := by
  induction events generalizing server with
  | nil =>
      obtain rfl := Option.some.inj hhandle
      exact ⟨h, rfl⟩
  | cons event events ih =>
      rw [List.foldlM_cons] at hhandle
      obtain ⟨middle, hfirst, hrest⟩ := Option.bind_eq_some_iff.mp hhandle
      obtain ⟨hmiddle, hbroker⟩ := h.handleEvent hfirst
      obtain ⟨hnext, hbroker'⟩ := ih hmiddle hrest
      exact ⟨hnext, hbroker'.trans hbroker⟩

/-! ### Broadcast tasks -/

/-- A subscriber that was closed when the task was queued is not settled by
now, unless nothing would be sent to it at once: the delivery is at QoS 0 or
the window is full. -/
def UpToDate (server : Server π) (message : MqttMessage π) (entry : BroadcastEntry) : Prop :=
  entry.isSessionClosed = true → ∀ session flow, server.broker.heap entry.session = some session →
    server.flows entry.session = some flow → server.Settled entry.session session →
    deliveryQos entry message = 0 ∨ flow.inflightWindowSize ≤ flow.inflightPackets

def KeepsFull (server next : Server π) : Prop :=
  ∀ s after, next.flows s = some after → ∃ flow, server.flows s = some flow ∧
    (flow.inflightWindowSize ≤ flow.inflightPackets →
      after.inflightWindowSize ≤ after.inflightPackets)

omit [TmqString π] in
theorem FlowRun.keepsFull {session : SessionRecord π} {flow after : Session π}
    (hrun : FlowRun server next s session flow after) {window : Nat}
    {queue queue' : List (QueuedPacket π)} (hqueue : Represents flow window queue)
    (hqueue' : Represents after window queue') (hlonger : queue.length ≤ queue'.length) :
    KeepsFull server next := by
  intro s' found hfound
  rw [hrun.flows] at hfound
  rcases update_cases hfound with ⟨rfl, rfl⟩ | ⟨-, hbefore⟩
  · refine ⟨flow, hrun.current, ?_⟩
    intro hfull
    have hlong : ¬ queue.length < window := by
      rw [← hqueue.sendNow_iff]
      exact UInt8.not_lt.mpr hfull
    apply UInt8.not_lt.mp
    rw [hqueue'.sendNow_iff]
    omega
  · exact ⟨found, hbefore, fun hfull => hfull⟩

omit [TmqString π] in
theorem UpToDate.keep {message : MqttMessage π} {entry : BroadcastEntry}
    (h : server.UpToDate message entry) (hbroker : next.broker = server.broker)
    (hfull : KeepsFull server next) : next.UpToDate message entry := by
  intro hclosed session after hsession hafter hsettled
  obtain ⟨flow, hflow, hkeeps⟩ := hfull entry.session after hafter
  rw [hbroker] at hsession
  have hsettled' : server.Settled entry.session session := by
    obtain ⟨hopened, htakes, hanswered, hkept⟩ := hsettled
    rw [hbroker] at htakes hanswered hkept
    exact ⟨hopened, htakes, hanswered, hkept⟩
  rcases h hclosed session flow hsession hflow hsettled' with hqos | hwindow
  · exact .inl hqos
  · exact .inr (hkeeps hwindow)

/-- A task is handled for one subscriber. -/
theorem Delivering.deliverTo (hcopy : ∀ p : π, tmqStrNew (tmqStrNew p) = tmqStrNew p)
    (h : server.Delivering) {task : BroadcastTask π} {mallocs : Nat → Addr}
    {entry : BroadcastEntry × Nat} (hcurrent : server.UpToDate task.message entry.1)
    (hdeliver : server.deliverTo config task mallocs entry = some next) :
    next.Delivering ∧ next.broker = server.broker ∧ KeepsFull server next := by
  obtain ⟨session, flow, after, hfree, hafter, hrun⟩ := deliverTo_eq_some hdeliver
  obtain ⟨found, hfound, ⟨queue, hqueue⟩, -⟩ := h.flow _ session hrun.found
  obtain rfl := Option.some.inj (hrun.current.symm.trans hfound)
  by_cases hqos : 0 < deliveryQos entry.1 task.message
  · obtain ⟨pkt, packets, -, hqueue', hsent, -, hprogress, -⟩ :=
      tmqSessionPublish_progress hqueue hfree hqos hcopy hafter
    refine ⟨h.run hrun hsent hqueue'.sound ?_, hrun.broker,
      hrun.keepsFull hqueue hqueue' (by simp)⟩
    intro hsettled written hflushed
    refine hflushed.progress hqueue hqueue' (hprogress fun hclosed => ?_)
    rcases hcurrent hclosed session flow hrun.found hrun.current hsettled with hzero | hfull
    · rw [hzero] at hqos
      exact absurd hqos (by decide)
    · rw [← Nat.not_lt, ← hqueue.sendNow_iff]
      exact UInt8.not_lt.mpr hfull
  · obtain ⟨found', hfound', hqueue', hsent, -⟩ := tmqSessionPublish_unstored hqueue
      (mallocs entry.2) task.topic task.message.message hqos (if task.retain then 1 else 0)
      entry.1.isSessionClosed
    obtain rfl := Option.some.inj (hafter.symm.trans hfound')
    refine ⟨h.run hrun hsent hqueue'.sound ?_, hrun.broker, hrun.keepsFull hqueue hqueue' le_rfl⟩
    intro _ written hflushed
    apply Flushed.append
    rw [flushed_iff hqueue']
    exact (flushed_iff hqueue written).mp hflushed

theorem Delivering.deliverAll (hcopy : ∀ p : π, tmqStrNew (tmqStrNew p) = tmqStrNew p)
    {task : BroadcastTask π} {mallocs : Nat → Addr} {entries : List (BroadcastEntry × Nat)}
    (h : server.Delivering) (hcurrent : ∀ entry ∈ entries, server.UpToDate task.message entry.1)
    (hdeliver : entries.foldlM (Server.deliverTo config task mallocs) server = some next) :
    next.Delivering ∧ next.broker = server.broker := by
  induction entries generalizing server with
  | nil =>
      obtain rfl := Option.some.inj hdeliver
      exact ⟨h, rfl⟩
  | cons entry entries ih =>
      rw [List.foldlM_cons] at hdeliver
      obtain ⟨middle, hfirst, hrest⟩ := Option.bind_eq_some_iff.mp hdeliver
      obtain ⟨hmiddle, hbroker, hfull⟩ :=
        h.deliverTo hcopy (hcurrent entry List.mem_cons_self) hfirst
      obtain ⟨hnext, hbroker'⟩ := ih hmiddle (fun other hother =>
        (hcurrent other (List.mem_cons_of_mem _ hother)).keep hbroker hfull) hrest
      exact ⟨hnext, hbroker'.trans hbroker⟩

/-! ### The handlers of the broker -/

end Server

def BrokerEvent.isCall : BrokerEvent π → Bool
  | .sessionNew _ | .sessionStart _ => true
  | _ => false

def callsOf (broker next : Broker π) : List (BrokerEvent π) :=
  (next.log.drop broker.log.length).filter BrokerEvent.isCall

theorem Server.foldlM_follow (config : BrokerConfig π J) (nextPacketId : UInt16)
    (events : List (BrokerEvent π)) (server : Server π) :
    events.foldlM (Server.follow config nextPacketId) server
      = (events.filter BrokerEvent.isCall).foldlM (Server.follow config nextPacketId) server := by
  induction events generalizing server with
  | nil => rfl
  | cons event events ih =>
      rw [List.foldlM_cons, funext ih]
      cases event <;> simp [List.filter_cons, BrokerEvent.isCall, Server.follow]

/-- The invariant once the calls of a step of the broker are made. -/
inductive Handled (next : Broker π) (flows : Nat → Option (Session π))
    (written : Nat → List (Packet π)) : List (BrokerEvent π) → Prop where
  | quiet (h : Delivering next.conns next.heap next.mqttConnectResponses next.requests flows written) :
      Handled next flows written []
  | new (s : Nat)
      (h : ∀ flow, Sound flow → Delivering next.conns next.heap next.mqttConnectResponses
        next.requests (Function.update flows s (some flow)) written) :
      Handled next flows written [.sessionNew s]
  | start (s : Nat)
      (hsound : ∀ flow, flows s = some flow → Sound flow)
      (hopen : ∀ session, next.heap s = some session → connected next.conns session.conn = true)
      (h : ∀ flow session written', Sound flow → next.heap s = some session →
        (∀ k, ∃ packets, written' k = written k ++ packets) →
        Flushed (written' session.conn) flow →
        Delivering next.conns next.heap next.mqttConnectResponses next.requests
          (Function.update flows s (some flow)) written') :
      Handled next flows written [.sessionStart s]

namespace Broker

variable {config : BrokerConfig π J} {broker next : Broker π} {label : Label π}
  {flows : Nat → Option (Session π)} {written : Nat → List (Packet π)}

/-- When a connect response takes its connection into a session, the sessions
of that connection that are being closed have nothing in flight. -/
def EntersClear (broker : Broker π) (flows : Nat → Option (Session π)) : Label π → Prop
  | .connectComplete ioContext => ∀ mail rest conn,
      Mailbox.take? ConnectMail.ioContext ioContext broker.mqttConnectResponses
        = some (mail, rest) →
      broker.conns mail.conn = some conn → mail.resp.address ≠ none → conn.state = .connected →
      conn.connState ≠ .noSession →
      ∀ s session flow, broker.heap s = some session → session.conn = mail.conn →
        session.state = .opened → Closing broker.requests s → flows s = some flow →
        flow.inflightPackets = 0
  | _ => True

omit [TmqString π] in
theorem any_isCall_map {α : Type} {f : α → BrokerEvent π} (hf : ∀ x, (f x).isCall = false)
    (xs : List α) : (xs.map f).any BrokerEvent.isCall = false := by
  rw [List.any_map]
  refine List.any_eq_false.mpr fun x _ => ?_
  simp [hf x]

theorem callsOf_publishesWill {session : SessionRecord π} {op : SessionReqOp} {topics : Topics π}
    {tasks : List (BroadcastTask π)} {events : List (BrokerEvent π)}
    (hwill : PublishesWill config broker session op topics tasks events) :
    events.any BrokerEvent.isCall = false := by
  cases hwill with
  | silent => rfl
  | publish => exact any_isCall_map (fun _ => rfl) _

omit [TmqString π] in
theorem callsOf_eq {events : List (BrokerEvent π)} (hlog : next.log = broker.log ++ events) :
    callsOf broker next = events.filter BrokerEvent.isCall := by
  rw [callsOf, hlog, List.drop_left]

/-- A step that calls no session. -/
theorem handled_quiet {events : List (BrokerEvent π)} (hlog : next.log = broker.log ++ events)
    (hquiet : events.any BrokerEvent.isCall = false)
    (h : Delivering next.conns next.heap next.mqttConnectResponses next.requests flows written) :
    Handled next flows written (callsOf broker next) := by
  have hnone : events.filter BrokerEvent.isCall = [] := by
    rw [List.filter_eq_nil_iff]
    exact List.any_eq_false.mp hquiet
  rw [callsOf_eq hlog, hnone]
  exact .quiet h

/-- A session in an answer that its connection does not take is to be closed. -/
theorem delivering_answerClose (hcoherent : broker.Coherent)
    (h : Delivering broker.conns broker.heap broker.mqttConnectResponses broker.requests flows
      written)
    {mail : ConnectMail} {conn : ClientConn} {before after : List ConnectMail}
    (hmails : broker.mqttConnectResponses = before ++ mail :: after)
    (hconn : broker.conns mail.conn = some conn)
    (hclose : (mail.resp.address ≠ none ∧ conn.connState = .noSession) ∨ conn.state ≠ .connected)
    (op : SessionReqOp) :
    Delivering broker.conns broker.heap (before ++ after)
      (broker.requests ++ [.close op mail.resp.address]) flows written := by
  rw [hmails] at h
  refine (h.post _).take ?_
  intro s session flow haddress hsession hflow
  obtain ⟨found, hfound, -, hon, -⟩ := hcoherent.answered mail (by simp [hmails]) s haddress
  obtain rfl := Option.some.inj (hsession.symm.trans hfound)
  refine .inl ⟨⟨_, List.mem_append_right _ List.mem_cons_self, haddress⟩, ?_⟩
  rintro ⟨conn', hconn', hin⟩
  rw [hon] at hconn'
  obtain rfl := Option.some.inj (hconn.symm.trans hconn')
  rcases hclose with ⟨-, hidle⟩ | hlost
  · rw [hidle] at hin
    cases hin
  · exact hlost (h.connected _ _ hconn hin)

/-- An answer takes its connection into the session, which is started then. -/
theorem handled_answerEnter (hcoherent : broker.Coherent)
    (h : Delivering broker.conns broker.heap broker.mqttConnectResponses broker.requests flows
      written)
    {ioContext k s : Nat} {sessionPresent : Bool} {conn : ClientConn}
    {before after : List ConnectMail}
    (hclear : broker.EntersClear flows (.connectComplete ioContext))
    (hmails : broker.mqttConnectResponses
      = before ++ ⟨ioContext, k, .accepted s sessionPresent⟩ :: after)
    (htake : Mailbox.take? ConnectMail.ioContext ioContext broker.mqttConnectResponses
      = some (⟨ioContext, k, .accepted s sessionPresent⟩, before ++ after))
    (hconn : broker.conns k = some conn) (hconnected : conn.state = .connected)
    (hpending : conn.connState ≠ .noSession)
    (hconns : next.conns = Function.update broker.conns k
      (some { conn with upstream := .session s, connState := .inSession }))
    (hheap : next.heap = broker.heap) (hrequests : next.requests = broker.requests)
    (hresponses : next.mqttConnectResponses = before ++ after) :
    Handled next flows written [.sessionStart s] := by
  obtain ⟨session, hsession, -, hon, -⟩ := hcoherent.answered
    ⟨ioContext, k, .accepted s sessionPresent⟩ (by simp [hmails]) s rfl
  have hentered : Delivering next.conns next.heap
      (before ++ ⟨ioContext, k, .accepted s sessionPresent⟩ :: after) next.requests flows
      written := by
    rw [hconns, hheap, hrequests, ← hmails]
    exact h.enter hconn hconnected rfl (hclear _ _ _ htake hconn (by nofun) hconnected hpending)
  refine .start s ?_ ?_ ?_
  · intro flow hflow
    obtain ⟨found, hfound, hsound, -⟩ := h.flow s session hsession
    obtain rfl := Option.some.inj (hflow.symm.trans hfound)
    exact hsound
  · intro found hfound
    rw [hheap] at hfound
    obtain rfl := Option.some.inj (hsession.symm.trans hfound)
    rw [connected_iff, hon, hconns]
    exact ⟨_, Function.update_self .., hconnected⟩
  · intro flow found written' hsound hfound hwritten hflushed
    -- the flow moves on while the response still waits, and then the response is gone
    have hmoved := hentered.setFlow hsound hwritten fun _ _ _ =>
      .inl ⟨_, List.mem_append_right _ List.mem_cons_self, rfl⟩
    rw [hresponses]
    refine hmoved.take ?_
    intro s' session' flow' haddress hsession' hflow'
    obtain rfl := Option.some.inj haddress
    rw [Function.update_self] at hflow'
    obtain rfl := Option.some.inj hflow'
    obtain rfl := Option.some.inj (hfound.symm.trans hsession')
    exact .inr fun _ => hflushed

/-- A new session is put into the table. -/
theorem handled_putNewSession {middle : Broker π}
    (h : Delivering middle.conns middle.heap middle.mqttConnectResponses middle.requests flows
      written)
    {malloc k : Nat} {conn : ClientConn} (hconn : middle.conns k = some conn)
    (hfree : middle.heap malloc = none) (req : ConnectReq π) (clean sessionPresent : Bool) :
    Handled (middle.putNewSession malloc k conn req clean sessionPresent) flows written
      [.sessionNew malloc] := by
  refine .new malloc fun flow hsound => ?_
  refine (h.respond _).insert hfree (by simp [hconn]) ?_ hsound
  exact ⟨_, List.mem_append_right _ List.mem_cons_self, rfl⟩

/-- The state that a step of the broker leaves, with the calls it makes. -/
theorem handled_change (hcoherent : broker.Coherent)
    (h : Delivering broker.conns broker.heap broker.mqttConnectResponses broker.requests flows
      written)
    (hclear : broker.EntersClear flows label) (hchange : Change config broker label next) :
    Handled next flows written (callsOf broker next) := by
  cases hchange with
  | unchanged => exact handled_quiet (List.append_nil _).symm rfl h
  | accept n hnew => exact handled_quiet (List.append_nil _).symm rfl (h.accept hnew rfl)
  | closeIdle label hconn hopen hidle =>
      exact handled_quiet rfl rfl (h.setOut hconn hidle (by nofun))
  | closeAttached label draining hconn =>
      exact handled_quiet (List.append_assoc ..) rfl
        ((h.setOut hconn (by nofun) (by nofun)).post _)
  | stop label hconn hidle =>
      exact handled_quiet (List.append_nil _).symm rfl (h.setOut hconn (by simp [hidle]) id)
  | connectPool hconn => exact handled_quiet rfl rfl (h.setOut hconn (by nofun) id)
  | connectPost hconn =>
      refine handled_quiet rfl rfl ((h.setOut hconn (by nofun) ?_).post _)
      exact id
  | connectRefuse hconn =>
      exact handled_quiet (List.append_assoc ..) rfl (h.setOut hconn (by nofun) id)
  | connectLose hconn =>
      exact handled_quiet ((List.append_assoc ..).trans (List.append_assoc ..)) rfl
        (h.setOut hconn (by nofun) (by nofun))
  | disconnectIdle hconn => exact handled_quiet rfl rfl (h.setOut hconn (by nofun) id)
  | disconnectAttached hconn =>
      refine handled_quiet (List.append_assoc ..) rfl ((h.setOut hconn (by nofun) ?_).post _)
      exact id
  | subscribe hconn hgate hup hsession =>
      refine handled_quiet (List.append_nil _).symm rfl ((h.setFields hsession ?_ ?_).post _)
      · rfl
      · exact id
  | unsubscribe hconn hgate hup hsession =>
      refine handled_quiet (List.append_nil _).symm rfl ((h.setFields hsession ?_ ?_).post _)
      · rfl
      · exact id
  | validate => exact handled_quiet (List.append_nil _).symm rfl (h.post _)
  | invalidate => exact handled_quiet (List.append_nil _).symm rfl (h.respond _)
  | answerClose hmails htake hconn hclose =>
      exact handled_quiet rfl rfl (delivering_answerClose hcoherent h hmails hconn hclose _)
  | answerEnter hmails htake hconn hconnected hpending =>
      rw [callsOf_eq (List.append_assoc ..)]
      exact handled_answerEnter hcoherent h hclear hmails htake hconn hconnected hpending rfl rfl rfl
        rfl
  | answerRefuse hmails hconn hconnected =>
      rw [hmails] at h
      refine handled_quiet rfl rfl (h.take ?_)
      intro s session flow haddress
      cases haddress
  | reject hrequests =>
      rw [hrequests] at h
      exact handled_quiet (List.append_nil _).symm rfl ((h.dequeue (by nofun)).respond _)
  | startNew hrequests hconn habsent hfree =>
      rw [hrequests] at h
      rw [callsOf_eq ((List.append_assoc ..).trans (List.append_assoc ..))]
      apply handled_putNewSession
      · exact h.dequeue (by nofun)
      · exact hconn
      · exact hfree
  | @restart run k s req requests conn session topics hrequests hconn hregistered hsession hclosed
      hclean horder hremoved hfree =>
      rw [hrequests] at h
      rw [callsOf_eq (((List.append_assoc ..).trans (List.append_assoc ..)).trans
        (List.append_assoc ..))]
      apply handled_putNewSession
      · exact (h.dequeue (by nofun)).setFields hsession rfl (by nofun)
      · exact hconn
      · have hother : broker.heap run.malloc ≠ broker.heap s := by simp [hfree, hsession]
        exact (update_of_apply_ne hother _).trans hfree
  | resume hrequests hconn hregistered hsession hclosed =>
      rw [hrequests] at h
      refine handled_quiet (List.append_assoc ..) rfl
        (((h.dequeue (by nofun)).respond _).setSession hsession (by simp [hconn]) ?_)
      intro _
      exact .inl ⟨_, List.mem_append_right _ List.mem_cons_self, rfl⟩
  | closeKeep hrequests hsession hkeep hwill =>
      rw [hrequests] at h
      refine handled_quiet ((List.append_assoc ..).trans (List.append_assoc ..)) ?_
        (h.close hsession rfl rfl)
      rw [List.any_append, callsOf_publishesWill hwill]
      rfl
  | closeClean hrequests hsession hclean hwill =>
      rw [hrequests] at h
      refine handled_quiet ((List.append_assoc ..).trans (List.append_assoc ..)) ?_
        (h.close hsession rfl rfl)
      rw [List.any_append, callsOf_publishesWill hwill]
      rfl
  | dropTopics hrequests htopic =>
      rw [hrequests] at h
      refine handled_quiet (List.append_nil _).symm rfl (h.dequeue ?_)
      rcases htopic with ⟨pkt, rfl⟩ | ⟨pkt, rfl⟩ <;> nofun
  | addTopics hrequests =>
      rw [hrequests] at h
      refine handled_quiet (List.append_assoc ..) ?_ (h.dequeue (by nofun))
      exact any_isCall_map (fun _ => rfl) _
  | removeTopics hrequests =>
      rw [hrequests] at h
      exact handled_quiet rfl rfl (h.dequeue (by nofun))
  | publish => exact handled_quiet rfl (any_isCall_map (fun _ => rfl) _) h
  | broadcast => exact handled_quiet rfl (any_isCall_map (fun _ => rfl) _) h

/-- The steps that the publish flows have labels of their own for. -/
theorem callsOf_eq_nil (hchange : Change config broker label next)
    (hlabel : (∃ k, label = .packet k) ∨ (∃ req, label = .publish req) ∨
      ∃ ioContext, label = .broadcast ioContext) : callsOf broker next = [] := by
  cases hchange with
  | unchanged | stop => exact callsOf_eq (List.append_nil _).symm
  | closeIdle => exact (callsOf_eq rfl).trans rfl
  | closeAttached => exact (callsOf_eq (List.append_assoc ..)).trans rfl
  | publish | broadcast =>
      rw [callsOf_eq rfl, List.filter_eq_nil_iff]
      exact List.any_eq_false.mp (any_isCall_map (fun _ => rfl) _)
  | _ => simp at hlabel

end Broker

namespace Server

variable {config : BrokerConfig π J} {server next : Server π} {label : Label π}

theorem delivering_init : (init : Server π).Delivering := by
  constructor
  · intro k conn hconn
    cases hconn
  · intro s session hsession
    cases hsession
  · intro s session hsession
    cases hsession

theorem Delivering.change (hcoherent : server.broker.Coherent) (h : server.Delivering)
    {label : Broker.Label π} {broker : Broker π}
    (hstep : server.broker.step config label = some broker)
    (hlabel : (∃ k, label = .packet k) ∨ (∃ req, label = .publish req) ∨
      ∃ ioContext, label = .broadcast ioContext) (publishes : List (PublishReq π)) :
    (⟨broker, server.flows, server.written, publishes⟩ : Server π).Delivering := by
  have hchange := Broker.step_change hstep
  have hclear : server.broker.EntersClear server.flows label := by
    rcases hlabel with ⟨k, rfl⟩ | ⟨req, rfl⟩ | ⟨ioContext, rfl⟩ <;> trivial
  have hhandled := Broker.handled_change hcoherent h hclear hchange
  rw [Broker.callsOf_eq_nil hchange hlabel] at hhandled
  cases hhandled with
  | quiet hquiet => exact hquiet

theorem Delivering.handle (hcoherent : server.broker.Coherent) (h : server.Delivering)
    {label : Broker.Label π} {nextPacketId : UInt16}
    (hclear : server.broker.EntersClear server.flows label)
    (hhandle : server.handle config label nextPacketId = some next) :
    next.broker.Coherent ∧ next.Delivering := by
  obtain ⟨broker, hstep, hfollow⟩ := Option.bind_eq_some_iff.mp hhandle
  have hchange := Broker.step_change hstep
  have hcoherent' := Broker.coherent_change hcoherent hchange
  have hhandled := Broker.handled_change hcoherent h hclear hchange
  rw [foldlM_follow] at hfollow
  change (callsOf server.broker broker).foldlM _ _ = _ at hfollow
  generalize callsOf server.broker broker = calls at hhandled hfollow
  cases hhandled with
  | quiet hquiet =>
      obtain rfl := Option.some.inj hfollow
      exact ⟨hcoherent', hquiet⟩
  | new s hnew =>
      obtain rfl := Option.some.inj hfollow
      exact ⟨hcoherent', hnew _ (represents_new ..).sound⟩
  | start s hsound hopen hstart =>
      rw [List.foldlM_cons] at hfollow
      obtain ⟨started, hrunFlow, hrest⟩ := Option.bind_eq_some_iff.mp hfollow
      obtain rfl := Option.some.inj hrest
      obtain ⟨session, flow, after, hafter, hrun⟩ := runFlow_eq_some hrunFlow
      obtain ⟨queue, hqueue⟩ := hsound flow hrun.current
      obtain ⟨packets, hqueue', hsent, -, hresent, -⟩ := tmqSessionStart_progress hqueue hafter
      have hdrop : after.sent.drop flow.sent.length = packets := by
        rw [hsent, List.drop_left]
      constructor
      · rw [hrun.broker]
        exact hcoherent'
      · unfold Delivering
        rw [hrun.broker, hrun.flows, hrun.written, hdrop]
        refine hstart after session _ hqueue'.sound hrun.found ?_ ?_
        · intro k
          exact ⟨_, written_write _ session.conn k packets⟩
        · rw [written_write, if_pos ⟨rfl, hopen session hrun.found⟩, flushed_iff hqueue']
          intro queued hmem
          exact List.mem_append_right _ (hresent queued hmem)

/-- Every task is handled while its record of who is closed still holds, and
connections enter sessions clear of others. -/
def Prompt (server : Server π) : Label π → Prop
  | .broadcast ioContext _ => ∀ task rest,
      Mailbox.take? BroadcastTask.ioContext ioContext server.broker.broadcastTasks
        = some (task, rest) →
      ∀ entry ∈ task.subscribers, server.UpToDate task.message entry
  | .broker label _ => server.broker.EntersClear server.flows label
  | _ => True

theorem delivering_step (hcopy : ∀ p : π, tmqStrNew (tmqStrNew p) = tmqStrNew p)
    (hcoherent : server.broker.Coherent) (h : server.Delivering) (hprompt : server.Prompt label)
    (hstep : server.step config label = some next) : next.broker.Coherent ∧ next.Delivering := by
  cases label with
  | packet k pkt malloc =>
      simp only [step, receivePacket, Option.bind_eq_bind, Option.bind_eq_some_iff] at hstep
      obtain ⟨broker, hpacket, conn, hconn, hstep⟩ := hstep
      have hbroker : server.broker.step config (.packet k) = some broker := hpacket
      split at hstep
      · obtain rfl := Option.some.inj hstep
        exact ⟨Broker.coherent_change hcoherent (Broker.step_change hbroker),
          h.change hcoherent hbroker (.inl ⟨k, rfl⟩) _⟩
      · split at hstep
        · split at hstep
          · cases hstep
          · obtain ⟨hnext, hsame⟩ := h.handleEvents hstep
            rw [hsame]
            exact ⟨hcoherent, hnext⟩
        · cases hstep
  | publish =>
      simp only [step, handlePublishReq] at hstep
      split at hstep
      · cases hstep
      · rename_i req publishes hpublishes
        obtain ⟨broker, hpublish, hnext⟩ := Option.bind_eq_some_iff.mp hstep
        obtain rfl := Option.some.inj hnext
        have hbroker : server.broker.step config (.publish req) = some broker := hpublish
        exact ⟨Broker.coherent_change hcoherent (Broker.step_change hbroker),
          h.change hcoherent hbroker (.inr (.inl ⟨req, rfl⟩)) publishes⟩
  | broadcast ioContext mallocs =>
      simp only [step, broadcastHandler, Option.bind_eq_bind, Option.bind_eq_some_iff] at hstep
      obtain ⟨⟨task, rest⟩, htake, delivered, hdeliver, broker, hbroker, hnext⟩ := hstep
      obtain rfl := Option.some.inj hnext
      have hcurrent : ∀ entry ∈ task.subscribers.zipIdx,
          server.UpToDate task.message entry.1 := by
        intro entry hentry
        exact hprompt task rest htake entry.1 (List.fst_mem_of_mem_zipIdx hentry)
      obtain ⟨hdelivered, hsame⟩ := h.deliverAll hcopy hcurrent hdeliver
      have hcoherent' : delivered.broker.Coherent := by
        rw [hsame]
        exact hcoherent
      have hstep : delivered.broker.step config (.broadcast ioContext) = some broker := hbroker
      exact ⟨Broker.coherent_change hcoherent' (Broker.step_change hstep),
        hdelivered.change hcoherent' hstep (.inr (.inr ⟨ioContext, rfl⟩)) _⟩
  | broker label nextPacketId =>
      have hhandle : server.handle config label nextPacketId = some next := by
        cases label <;> first | exact hstep | cases hstep
      exact h.handle hcoherent hprompt hhandle

/-- Every open session whose connection is in session, and for which no task
and no connect response waits, has written to that connection what it has in
flight. -/
def NoStuckMessage (server : Server π) : Prop :=
  ∀ s session, server.broker.heap s = some session → session.state = .opened →
    InSession server.broker.conns session.conn →
    (∀ task ∈ server.broker.broadcastTasks, ∀ entry ∈ task.subscribers, entry.session ≠ s) →
    ¬ Awaited server.broker.mqttConnectResponses s →
    ∃ flow, server.flows s = some flow ∧ Flushed (server.written session.conn) flow

/-- In every run whose steps are prompt, no message is stuck in flight. -/
theorem noStuckMessage_of_prompt (config : BrokerConfig Bytes J) (labels : List (Label Bytes))
    (hlabels : Run.Admissible Prompt (step config) init labels) {server : Server Bytes}
    (hrun : Run.runs (step config) init labels = some server) : server.NoStuckMessage := by
  have hinv : server.broker.Coherent ∧ server.Delivering := by
    refine @Run.runs_preserves _ _ _ _ (fun state => state.broker.Coherent ∧ state.Delivering) ?_
      _ _ _ ⟨Broker.coherent_init, delivering_init⟩ hlabels hrun
    rintro state label next ⟨hcoherent, hdelivering⟩ hprompt hstep
    exact delivering_step cstr_cstr hcoherent hdelivering hprompt hstep
  intro s session hsession hopened hin _ hanswered
  obtain ⟨flow, hflow, -, hdelivers⟩ := hinv.2.flow s session hsession
  refine ⟨flow, hflow, ?_⟩
  rcases hdelivers hopened with hawaited | ⟨-, hout⟩ | hflushed
  · exact (hanswered hawaited).elim
  · exact (hout hin).elim
  · obtain ⟨conn, hconn, hstate⟩ := hin
    apply hflushed
    rw [connected_iff]
    exact ⟨conn, hconn, hinv.2.connected _ conn hconn hstate⟩

/-- A client that subscribed leaves while a message for it waits to be
published, and comes back. -/
def leaveAndReturn : List (Label Bytes) :=
  [.broker (.accept 0 []) 0, .broker (.connect 0 (connectFrom [65] false) false) 0,
    .broker (.execute (sampleExecution 7)) 0, .broker (.connectComplete 0) 0,
    .broker (.subscribe 0 ⟨1, [⟨[116], 1⟩]⟩) 0, .broker (.execute (sampleExecution 0)) 0,
    .packet 0 (.publish ⟨2, [116], 5, [1]⟩) 0, .broker (.disconnect 0) 0,
    .broker (.execute (sampleExecution 0)) 0, .publish, .broker (.accept 1 []) 0,
    .broker (.connect 1 (connectFrom [65] false) false) 0,
    .broker (.execute (sampleExecution 0)) 0]

/-- The task for the client is handled before it is answered. -/
def taskThenAnswer : List (Label Bytes) :=
  leaveAndReturn ++ [.broadcast 0 fun _ => 0, .broker (.connectComplete 1) 0]

/-- The client is answered before the task for it is handled. -/
def answerThenTask : List (Label Bytes) :=
  leaveAndReturn ++ [.broker (.connectComplete 1) 0, .broadcast 0 fun _ => 0]

theorem noStuckMessage_taskThenAnswer :
    ∃ server, Run.runs (step sampleConfig) init taskThenAnswer = some server ∧
      server.NoStuckMessage := by
  have hclear : ∀ (broker : Broker Bytes) flows ioContext, broker.requests = [] →
      broker.EntersClear flows (.connectComplete ioContext) := by
    rintro broker flows ioContext hnone mail rest conn - - - - - s session flow - - -
      ⟨request, hrequest, -⟩
    rw [hnone] at hrequest
    cases hrequest
  refine ⟨_, rfl, ?_⟩
  refine noStuckMessage_of_prompt sampleConfig taskThenAnswer
    ⟨trivial, trivial, trivial, hclear _ _ 0 rfl, trivial, trivial, trivial, trivial, trivial,
      trivial, trivial, trivial, trivial, ?_, hclear _ _ 1 rfl, trivial⟩ rfl
  intro task rest htake entry hentry _ session flow _ _ hsettled
  obtain ⟨rfl, rfl⟩ := Prod.mk.inj (Option.some.inj htake)
  obtain rfl := List.mem_singleton.mp hentry
  exact (hsettled.answered ⟨_, List.mem_cons_self, rfl⟩).elim

/-- The message is only stored, and counts as in flight. -/
theorem not_noStuckMessage_answerThenTask :
    ∃ server, Run.runs (step sampleConfig) init answerThenTask = some server ∧
      ¬ server.NoStuckMessage := by
  refine ⟨_, rfl, ?_⟩
  intro h
  obtain ⟨flow, hflow, hflushed⟩ := h 7 _ rfl rfl ⟨_, rfl, rfl⟩ (by
    intro task htask entry hentry
    obtain rfl := List.mem_singleton.mp htask
    cases hentry) (by
    rintro ⟨mail, hmail, -⟩
    cases hmail)
  obtain rfl := Option.some.inj hflow
  have hwritten := hflushed [(0, ⟨0, .publish ⟨2, [116], 0, [1]⟩⟩)] ⟨rfl, none, rfl, rfl⟩ _
    List.mem_cons_self
  cases hwritten

end Server

end TinyMqtt
