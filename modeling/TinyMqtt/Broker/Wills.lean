import TinyMqtt.Broker.Sessions
import TinyMqtt.Broker.Lifecycle

/-!
Every connection of the broker follows the protocol of `Lifecycle`, in every
run: the events of other connections do not touch it, and a close request for
one of its sessions is counted where it waits.
-/

namespace TinyMqtt

variable {π J : Type} [TmqString π]

/-- An event, entered where it belongs to the connection `k`. -/
def Ledger.note (k : Nat) (ledger : Ledger π) : BrokerEvent π → Ledger π
  | .connect k' will =>
      if k' = k then { ledger with connects := ledger.connects ++ [will] } else ledger
  | .disconnect k' =>
      if k' = k then { ledger with ends := ledger.ends ++ [.disconnect] } else ledger
  | .tcpClosed k' =>
      if k' = k then { ledger with ends := ledger.ends ++ [.tcpClosed] } else ledger
  | .accepted k' s will =>
      if k' = k then { ledger with accepts := ledger.accepts ++ [(s, will)] } else ledger
  | .closeRequest k' op (some s) =>
      if k' = k then { ledger with closes := ledger.closes ++ [(op, s)] } else ledger
  | .closeRequest k' op none =>
      if k' = k then { ledger with nullCloses := ledger.nullCloses ++ [op] } else ledger
  | .sessionClosed k' _ op will =>
      if k' = k then { ledger with finished := ledger.finished ++ [(op, will)] } else ledger
  | .willPublished k' will =>
      if k' = k then { ledger with wills := ledger.wills ++ [will] } else ledger
  | _ => ledger

def willFrom (k : Nat) (request : Nat × ConnectReq π) : Option (Option (Will π)) :=
  if request.1 = k then some request.2.will else none

def Request.willFrom (k : Nat) : Request π → Option (Option (Will π))
  | .connect k' req => TinyMqtt.willFrom k (k', req)
  | _ => none

def ConnectMail.answerTo (k : Nat) (mail : ConnectMail) : Option (Option Nat) :=
  if mail.conn = k then some mail.resp.address else none

def Request.closesOn (heap : Nat → Option (SessionRecord π)) (k : Nat) :
    Request π → Option SessionReqOp
  | .close op (some s) => if (heap s).any fun session => session.conn = k then some op else none
  | _ => none

/-- The CONNECT packets of the connection that wait, for the thread pool or
for the logic thread. -/
def decidingOf (k : Nat) (pool : List (Nat × ConnectReq π)) (requests : List (Request π)) :
    Multiset (Option (Will π)) :=
  Multiset.ofList (pool.filterMap (willFrom k) ++ requests.filterMap (Request.willFrom k))

def answersTo (k : Nat) (responses : List ConnectMail) : Multiset (Option Nat) :=
  Multiset.ofList (responses.filterMap (ConnectMail.answerTo k))

def closingOn (k : Nat) (heap : Nat → Option (SessionRecord π)) (requests : List (Request π)) :
    List SessionReqOp :=
  requests.filterMap (Request.closesOn heap k)

namespace Broker

/-- The life of the connection `k` so far. -/
def lifecycle (broker : Broker π) (k : Nat) : Lifecycle π where
  toLedger := broker.log.foldl (Ledger.note k) Lifecycle.init.toLedger
  conn := broker.conns k
  deciding := decidingOf k broker.validations broker.requests
  answers := answersTo k broker.mqttConnectResponses
  closing := closingOn k broker.heap broker.requests

/-- Every session on a connection was accepted there with its will. -/
def Accepted (log : List (BrokerEvent π)) (heap : Nat → Option (SessionRecord π)) : Prop :=
  ∀ s session, heap s = some session → .accepted session.conn s session.will ∈ log

/-! ### The parts of a life -/

section Parts

variable {k : Nat}

omit [TmqString π] in
theorem foldl_note_silent {events : List (BrokerEvent π)} {ledger : Ledger π}
    (hsilent : ∀ event ∈ events, ∀ ledger : Ledger π, ledger.note k event = ledger) :
    events.foldl (Ledger.note k) ledger = ledger := by
  induction events with
  | nil => rfl
  | cons event events ih =>
      rw [List.foldl_cons, hsilent event List.mem_cons_self]
      exact ih fun other hother => hsilent other (List.mem_cons_of_mem event hother)

omit [TmqString π] in
@[simp]
theorem foldl_note_shares {α : Type} (shares : List α) (conn session : α → Nat)
    (ledger : Ledger π) :
    (shares.map fun shared => BrokerEvent.share (conn shared) (session shared)).foldl
      (Ledger.note k) ledger = ledger := by
  apply foldl_note_silent
  intro event hevent
  obtain ⟨shared, -, rfl⟩ := List.mem_map.mp hevent
  intro _
  rfl

omit [TmqString π] in
@[simp]
theorem foldl_note_releases (releases : List (Nat × Nat)) (ledger : Ledger π) :
    (releases.map fun shared => BrokerEvent.release shared.1 shared.2).foldl (Ledger.note k) ledger
      = ledger := by
  apply foldl_note_silent
  intro event hevent
  obtain ⟨shared, -, rfl⟩ := List.mem_map.mp hevent
  intro _
  rfl

omit [TmqString π] in
theorem note_accepts_mono {ledger : Ledger π} (event : BrokerEvent π) {accept : Nat × Option (Will π)}
    (hmem : accept ∈ ledger.accepts) : accept ∈ (ledger.note k event).accepts := by
  unfold Ledger.note
  split <;> first | exact hmem | (split <;> simp [hmem])

omit [TmqString π] in
theorem mem_accepts {log : List (BrokerEvent π)} {ledger : Ledger π} {s : Nat}
    {will : Option (Will π)} (hmem : .accepted k s will ∈ log) :
    (s, will) ∈ (log.foldl (Ledger.note k) ledger).accepts := by
  induction log using List.reverseRecOn with
  | nil => cases hmem
  | append_singleton log event ih =>
      rw [List.foldl_append, List.foldl_cons, List.foldl_nil]
      rcases List.mem_append.mp hmem with hold | hnew
      · exact note_accepts_mono event (ih hold)
      · rw [← List.mem_singleton.mp hnew]
        simp [Ledger.note]

theorem decidingOf_post (pool : List (Nat × ConnectReq π)) (requests : List (Request π))
    (request : Request π) :
    decidingOf k pool (requests ++ [request])
      = Multiset.ofList (request.willFrom k).toList + decidingOf k pool requests := by
  rw [decidingOf, decidingOf, Multiset.coe_add, Multiset.coe_eq_coe, List.filterMap_append,
    ← List.append_assoc]
  cases hwill : request.willFrom k with
  | none => simp [hwill]
  | some will =>
      simp only [List.filterMap_cons, hwill, List.filterMap_nil]
      exact List.perm_append_singleton will _

theorem decidingOf_dequeue (pool : List (Nat × ConnectReq π)) (requests : List (Request π))
    (request : Request π) :
    decidingOf k pool (request :: requests)
      = Multiset.ofList (request.willFrom k).toList + decidingOf k pool requests := by
  rw [decidingOf, decidingOf, Multiset.coe_add, Multiset.coe_eq_coe]
  cases hwill : request.willFrom k with
  | none => simp [hwill]
  | some will => simp [hwill]

theorem decidingOf_pool (pool : List (Nat × ConnectReq π)) (requests : List (Request π))
    (request : Nat × ConnectReq π) :
    decidingOf k (pool ++ [request]) requests
      = Multiset.ofList (willFrom k request).toList + decidingOf k pool requests := by
  rw [decidingOf, decidingOf, Multiset.coe_add, Multiset.coe_eq_coe, List.filterMap_append,
    List.append_assoc]
  cases hwill : willFrom k request with
  | none => simp [hwill]
  | some will => simp [hwill]

theorem decidingOf_eraseIdx {pool : List (Nat × ConnectReq π)} {i : Nat}
    {request : Nat × ConnectReq π} (hpool : pool[i]? = some request)
    (requests : List (Request π)) :
    decidingOf k pool requests
      = Multiset.ofList (willFrom k request).toList + decidingOf k (pool.eraseIdx i) requests := by
  obtain ⟨hi, hget⟩ := List.getElem?_eq_some_iff.mp hpool
  have hperm : pool.Perm (request :: pool.eraseIdx i) := by
    rw [← hget]
    exact (List.getElem_cons_eraseIdx_perm hi).symm
  rw [decidingOf, decidingOf, Multiset.coe_add, Multiset.coe_eq_coe, ← List.append_assoc]
  apply List.Perm.append_right
  apply (hperm.filterMap (willFrom k)).trans
  cases hwill : willFrom k request <;> simp [hwill]

omit [TmqString π] in
theorem answersTo_respond (responses : List ConnectMail) (mail : ConnectMail) :
    answersTo k (responses ++ [mail])
      = Multiset.ofList (mail.answerTo k).toList + answersTo k responses := by
  rw [answersTo, answersTo, Multiset.coe_add, Multiset.coe_eq_coe, List.filterMap_append]
  cases hanswer : mail.answerTo k with
  | none => simp [hanswer]
  | some answer => simp [hanswer]

omit [TmqString π] in
theorem answersTo_take (before after : List ConnectMail) (mail : ConnectMail) :
    answersTo k (before ++ mail :: after)
      = Multiset.ofList (mail.answerTo k).toList + answersTo k (before ++ after) := by
  rw [answersTo, answersTo, Multiset.coe_add, Multiset.coe_eq_coe, List.filterMap_append,
    List.filterMap_append]
  cases hanswer : mail.answerTo k with
  | none => simp [hanswer]
  | some answer => simp [hanswer]

omit [TmqString π] in
theorem closingOn_post (heap : Nat → Option (SessionRecord π)) (requests : List (Request π))
    (request : Request π) :
    closingOn k heap (requests ++ [request])
      = closingOn k heap requests ++ (request.closesOn heap k).toList := by
  rw [closingOn, closingOn, List.filterMap_append]
  cases hcloses : request.closesOn heap k <;> simp [hcloses]

omit [TmqString π] in
theorem closingOn_dequeue (heap : Nat → Option (SessionRecord π)) (requests : List (Request π))
    (request : Request π) :
    closingOn k heap (request :: requests)
      = (request.closesOn heap k).toList ++ closingOn k heap requests := by
  rw [closingOn, closingOn]
  cases hcloses : request.closesOn heap k <;> simp [hcloses]

omit [TmqString π] in
theorem closingOn_congr {heap heap' : Nat → Option (SessionRecord π)} {requests : List (Request π)}
    (hsame : ∀ request ∈ requests, ∀ s, request.closes = some s →
      (heap' s).map SessionRecord.conn = (heap s).map SessionRecord.conn) :
    closingOn k heap' requests = closingOn k heap requests := by
  apply List.filterMap_congr
  intro request hrequest
  cases request with
  | close op session =>
      cases session with
      | none => rfl
      | some s =>
          have hconn := hsame _ hrequest s rfl
          cases hbefore : heap s <;> cases hafter : heap' s <;>
            simp_all [Request.closesOn]
  | connect | subscribe | unsubscribe => rfl

omit [TmqString π] in
theorem closingOn_update {heap : Nat → Option (SessionRecord π)} {requests : List (Request π)}
    {s : Nat} {session changed : SessionRecord π} (hsession : heap s = some session)
    (hconn : changed.conn = session.conn) :
    closingOn k (Function.update heap s (some changed)) requests = closingOn k heap requests := by
  apply closingOn_congr
  intro _ _ s' _
  by_cases hs : s' = s
  · subst hs
    rw [Function.update_self, hsession, Option.map_some, Option.map_some, hconn]
  · rw [Function.update_of_ne hs]

omit [TmqString π] in
theorem closingOn_unheld {conns : Nat → Option ClientConn} {responses : List ConnectMail}
    {heap : Nat → Option (SessionRecord π)} {requests : List (Request π)} {s : Nat}
    (hunheld : Unheld conns responses requests s) (changed : SessionRecord π) :
    closingOn k (Function.update heap s (some changed)) requests = closingOn k heap requests := by
  apply closingOn_congr
  intro request hrequest s' hcloses
  rw [Function.update_of_ne]
  rintro rfl
  exact hunheld.1 (List.mem_append_right _ (List.mem_filterMap.mpr ⟨request, hrequest, hcloses⟩))

end Parts

/-! ### Every connection follows the protocol -/

variable {config : BrokerConfig π J} {broker next : Broker π} {label : Label π} {k : Nat}

omit [TmqString π] in
/-- The request that closes a session on `k'` is counted for `k'` only. -/
theorem closesOn_live {k' s : Nat} (hlive : Live broker.heap broker.sessions s k')
    (op : SessionReqOp) :
    Request.closesOn broker.heap k (.close op (some s)) = if k' = k then some op else none := by
  obtain ⟨session, hsession, -, rfl, -⟩ := hlive
  simp [Request.closesOn, hsession]

/-- A change of the life of one connection that the others do not notice. -/
theorem lifecycle_at (k' : Nat) (hown : (broker.lifecycle k').Step (next.lifecycle k'))
    (hothers : ∀ k, k ≠ k' → next.lifecycle k = broker.lifecycle k) (k : Nat) :
    (broker.lifecycle k).Step (next.lifecycle k) := by
  by_cases hk : k = k'
  · subst hk
    exact hown
  · rw [hothers k hk]
    exact .stutter

@[simp] theorem lifecycle_setConn (k' : Nat) (conn : ClientConn) :
    (broker.setConn k' conn).lifecycle k
      = if k = k' then { broker.lifecycle k with conn := some conn } else broker.lifecycle k := by
  by_cases hk : k = k'
  · subst hk
    simp [lifecycle, setConn]
  · simp [lifecycle, setConn, hk]

@[simp] theorem lifecycle_record (event : BrokerEvent π) :
    (broker.record event).lifecycle k
      = { broker.lifecycle k with toLedger := (broker.lifecycle k).toLedger.note k event } := by
  simp [lifecycle, record]

@[simp] theorem lifecycle_post (request : Request π) :
    (broker.post request).lifecycle k = { broker.lifecycle k with
      deciding := Multiset.ofList (request.willFrom k).toList + (broker.lifecycle k).deciding
      closing := (broker.lifecycle k).closing ++ (request.closesOn broker.heap k).toList } := by
  simp [lifecycle, post, decidingOf_post, closingOn_post]

@[simp] theorem lifecycle_makeConnectRespond (k' : Nat) (conn : ClientConn) (resp : ConnectResp) :
    (broker.makeConnectRespond k' conn resp).lifecycle k = { broker.lifecycle k with
      answers := Multiset.ofList (ConnectMail.answerTo k ⟨conn.ioContext, k', resp⟩).toList
        + (broker.lifecycle k).answers } := by
  simp [lifecycle, makeConnectRespond, answersTo_respond]

/-- A session on `k'` is to be closed. -/
theorem lifecycle_postClose {middle : Broker π} {k' s : Nat}
    (hlive : Live broker.heap broker.sessions s k') (hheap : middle.heap = broker.heap)
    (op : SessionReqOp) :
    (middle.postClose k' op (some s)).lifecycle k
      = if k = k' then { middle.lifecycle k with
          closes := (middle.lifecycle k).closes ++ [(op, s)]
          closing := (middle.lifecycle k).closing ++ [op] }
        else middle.lifecycle k := by
  rw [postClose, lifecycle_record, lifecycle_post, hheap, closesOn_live hlive]
  by_cases hk : k = k'
  · simp [Ledger.note, Request.willFrom, hk]
  · simp [Ledger.note, Request.willFrom, hk, Ne.symm hk]

/-- A request that nobody waits for is handled. -/
theorem lifecycle_dequeue {request : Request π} {requests : List (Request π)}
    (hrequests : broker.requests = request :: requests) (hwill : request.willFrom k = none)
    (hcloses : request.closesOn broker.heap k = none) :
    (broker.dequeue requests).lifecycle k = broker.lifecycle k := by
  simp [lifecycle, dequeue, hrequests, decidingOf_dequeue, closingOn_dequeue, hwill, hcloses]

/-- A CONNECT that is decided was waiting. -/
theorem deciding_of_connect {req : ConnectReq π} {requests : List (Request π)}
    (hrequests : broker.requests = .connect k req :: requests) :
    (broker.lifecycle k).deciding = req.will ::ₘ decidingOf k broker.validations requests := by
  change decidingOf k broker.validations broker.requests = _
  rw [hrequests, decidingOf_dequeue]
  simp [Request.willFrom, willFrom]

/-- An answer that arrives was on its way. -/
theorem answers_of_take {mail : ConnectMail} {before after : List ConnectMail}
    (hmails : broker.mqttConnectResponses = before ++ mail :: after) :
    (broker.lifecycle mail.conn).answers
      = mail.resp.address ::ₘ answersTo mail.conn (before ++ after) := by
  change answersTo mail.conn broker.mqttConnectResponses = _
  rw [hmails, answersTo_take]
  simp [ConnectMail.answerTo]

theorem lifecycle_cleanSession {s : Nat} {session : SessionRecord π}
    (hsession : broker.heap s = some session) (topics : Topics π) :
    (broker.cleanSession s session topics).lifecycle k = broker.lifecycle k := by
  simp only [lifecycle, cleanSession, setSession, record, List.foldl_append, List.foldl_cons,
    List.foldl_nil, Ledger.note, Lifecycle.mk.injEq, true_and]
  exact closingOn_update hsession rfl

theorem lifecycle_keepSession {s : Nat} {session : SessionRecord π}
    (hsession : broker.heap s = some session) :
    (broker.keepSession s session).lifecycle k = broker.lifecycle k := by
  simp only [lifecycle, keepSession, setSession, record, List.foldl_append, List.foldl_cons,
    List.foldl_nil, Ledger.note, Lifecycle.mk.injEq, true_and]
  exact closingOn_update hsession rfl

/-- A CONNECT is accepted with a session that nobody held. -/
theorem lifecycle_accept {middle : Broker π} {k' s : Nat} {conn : ClientConn} {req : ConnectReq π}
    {requests : List (Request π)} (hrequests : broker.requests = .connect k' req :: requests)
    (hmiddle : middle.lifecycle k = (broker.dequeue requests).lifecycle k)
    (sessionPresent : Bool) :
    (broker.lifecycle k).Step ((middle.accept k' conn req s sessionPresent).lifecycle k) := by
  have hclosing : closingOn k broker.heap broker.requests = closingOn k broker.heap requests := by
    rw [hrequests, closingOn_dequeue]
    rfl
  by_cases hk : k' = k
  · subst hk
    have haccept : (middle.accept k' conn req s sessionPresent).lifecycle k'
        = { middle.lifecycle k' with
            answers := some s ::ₘ (middle.lifecycle k').answers
            accepts := (middle.lifecycle k').accepts ++ [(s, req.will)] } := by
      simp [lifecycle, accept, record, makeConnectRespond, Ledger.note, answersTo_respond,
        ConnectMail.answerTo, ConnectResp.address]
    apply Lifecycle.Step.of_eq (.accept req.will s (deciding_of_connect hrequests))
    rw [haccept, hmiddle]
    simp [lifecycle, dequeue, hclosing]
  · have haccept : (middle.accept k' conn req s sessionPresent).lifecycle k
        = middle.lifecycle k := by
      simp [lifecycle, accept, record, makeConnectRespond, Ledger.note, answersTo_respond,
        ConnectMail.answerTo, hk]
    apply Lifecycle.Step.of_eq .stutter
    rw [haccept, hmiddle]
    simp [lifecycle, dequeue, hrequests, decidingOf_dequeue, Request.willFrom, willFrom, hk,
      closingOn_dequeue, Request.closesOn]

/-- A new session that nobody holds. -/
theorem lifecycle_putNewSession {middle : Broker π} {malloc k' : Nat} {conn : ClientConn}
    {req : ConnectReq π} {requests : List (Request π)}
    (hrequests : broker.requests = .connect k' req :: requests)
    (hmiddle : middle.lifecycle k = (broker.dequeue requests).lifecycle k)
    (hunheld : Unheld middle.conns middle.mqttConnectResponses middle.requests malloc)
    (clean sessionPresent : Bool) :
    (broker.lifecycle k).Step
      ((middle.putNewSession malloc k' conn req clean sessionPresent).lifecycle k) := by
  apply lifecycle_accept hrequests
  rw [← hmiddle]
  simp only [lifecycle, tmqSessionNew, setSession, record, List.foldl_append, List.foldl_cons,
    List.foldl_nil, Ledger.note, Lifecycle.mk.injEq, true_and]
  exact closingOn_unheld hunheld _

/-- The events of a published will. -/
theorem foldl_note_publishesWill {session : SessionRecord π} {op : SessionReqOp} {topics : Topics π}
    {tasks : List (BroadcastTask π)} {events : List (BrokerEvent π)}
    (hwill : PublishesWill config broker session op topics tasks events) (ledger : Ledger π) :
    events.foldl (Ledger.note k) ledger = if session.conn = k then
      { ledger with wills := ledger.wills ++ (willOnClose op session.will).toList } else ledger := by
  cases hwill with
  | silent hsilent =>
      have hnone : willOnClose op session.will = none := by
        rcases hsilent with rfl | hwill
        · rfl
        · rw [hwill]
          cases op <;> rfl
      simp [hnone]
  | publish will req hop hwill =>
      subst hop
      simp [Ledger.note, hwill, willOnClose]

/-- A close request is executed. -/
theorem lifecycle_close (haccepted : Accepted broker.log broker.heap) {op : SessionReqOp} {s : Nat}
    {requests : List (Request π)} {session : SessionRecord π} {topics : Topics π}
    {tasks : List (BroadcastTask π)} {events : List (BrokerEvent π)}
    (hrequests : broker.requests = .close op (some s) :: requests)
    (hsession : broker.heap s = some session)
    (hwill : PublishesWill config broker session op topics tasks events) :
    (broker.lifecycle k).Step
      ((((broker.dequeue requests).queueTasks topics tasks events).record
        (.sessionClosed session.conn s op session.will)).lifecycle k) := by
  have hdeciding : decidingOf k broker.validations broker.requests
      = decidingOf k broker.validations requests := by
    rw [hrequests, decidingOf_dequeue]
    simp [Request.willFrom]
  have hclosing : closingOn k broker.heap broker.requests
      = (if session.conn = k then [op] else []) ++ closingOn k broker.heap requests := by
    rw [hrequests, closingOn_dequeue]
    by_cases hk : session.conn = k <;> simp [Request.closesOn, hsession, hk]
  by_cases hk : session.conn = k
  · have hmem : (s, session.will) ∈ (broker.lifecycle k).accepts :=
      mem_accepts (hk ▸ haccepted s session hsession)
    rw [if_pos hk] at hclosing
    apply Lifecycle.Step.of_eq (.finish hclosing hmem)
    simp [lifecycle, queueTasks, dequeue, record, foldl_note_publishesWill hwill, hk, Ledger.note,
      hdeciding]
  · rw [if_neg hk] at hclosing
    apply Lifecycle.Step.of_eq .stutter
    simp [lifecycle, queueTasks, dequeue, record, foldl_note_publishesWill hwill, hk, Ledger.note,
      hdeciding, hclosing]

/-- An answer for a connection that does not take its session any more. -/
theorem lifecycle_answerClose (hcoherent : broker.Coherent) {mail : ConnectMail} {conn : ClientConn}
    {before after : List ConnectMail} (hmails : broker.mqttConnectResponses = before ++ mail :: after)
    (hconn : broker.conns mail.conn = some conn)
    (hclose : (mail.resp.address ≠ none ∧ conn.connState = .noSession) ∨ conn.state ≠ .connected) :
    (broker.lifecycle k).Step
      (({ broker with mqttConnectResponses := before ++ after }.postClose mail.conn
        (if conn.connState = ConnState.noSession then .sessionDisconnect else .sessionForceClose)
        mail.resp.address).lifecycle k) := by
  by_cases hk : mail.conn = k
  · subst hk
    have hanswers := answers_of_take hmails
    cases haddress : mail.resp.address with
    | none =>
        rw [haddress] at hanswers
        apply Lifecycle.Step.of_eq (.answerNull _ hanswers)
        simp [lifecycle, record, post, postClose, Ledger.note, Request.willFrom,
          Request.closesOn, decidingOf_post, closingOn_post]
        rfl
    | some s =>
        have hlive := hcoherent.answered mail (by simp [hmails]) s haddress
        rw [haddress] at hanswers
        have hclose : conn.connState = .noSession ∨ conn.state ≠ .connected :=
          hclose.imp_left And.right
        apply Lifecycle.Step.of_eq (.answerClose hanswers hconn _ hclose rfl)
        simp [lifecycle, record, post, postClose, Ledger.note, Request.willFrom,
          closesOn_live hlive, decidingOf_post, closingOn_post]
  · apply Lifecycle.Step.of_eq .stutter
    have hcloses : Request.closesOn broker.heap k (.close
        (if conn.connState = ConnState.noSession then .sessionDisconnect
          else .sessionForceClose) mail.resp.address) = none := by
      cases haddress : mail.resp.address with
      | none => rfl
      | some s =>
          have hlive := hcoherent.answered mail (by simp [hmails]) s haddress
          rw [closesOn_live hlive, if_neg hk]
    have hnote : ∀ (ledger : Ledger π) op session,
        ledger.note k (.closeRequest mail.conn op session) = ledger := by
      intro ledger op session
      cases session <;> simp [Ledger.note, hk]
    simp [lifecycle, record, post, postClose, hnote, Request.willFrom, hcloses,
      decidingOf_post, closingOn_post, hmails, answersTo_take, ConnectMail.answerTo, hk]

/-- The filters of a session are no part of the life of its connection. -/
theorem lifecycle_register {s : Nat} {session : SessionRecord π}
    (hsession : broker.heap s = some session) (subscriptions : Subscriptions)
    {request : Request π} (hwill : request.willFrom k = none)
    (hcloses : ∀ heap, Request.closesOn heap k request = none) :
    (broker.lifecycle k).Step (((broker.setSession s
      { session with subscriptions := subscriptions }).post request).lifecycle k) := by
  apply Lifecycle.Step.of_eq .stutter
  simp only [lifecycle, setSession, post, decidingOf_post, closingOn_post]
  simp only [hwill, hcloses, Option.toList_none, Multiset.coe_nil, zero_add,
    List.append_nil, Lifecycle.mk.injEq, true_and]
  exact closingOn_update hsession rfl

/-- A connection leaves its session, which is to be closed. -/
theorem lifecycle_leave {k' s : Nat} {changed : ClientConn} {event : BrokerEvent π}
    {op : SessionReqOp} (hlive : Live broker.heap broker.sessions s k')
    (hevent : ∀ k, k ≠ k' → ∀ ledger : Ledger π, ledger.note k event = ledger)
    (hown : (broker.lifecycle k').Step
      { conn := some changed
        toLedger := { (broker.lifecycle k').toLedger.note k' event with
          closes := ((broker.lifecycle k').toLedger.note k' event).closes ++ [(op, s)] }
        deciding := (broker.lifecycle k').deciding
        answers := (broker.lifecycle k').answers
        closing := (broker.lifecycle k').closing ++ [op] }) (k : Nat) :
    (broker.lifecycle k).Step
      ((((broker.setConn k' changed).record event).postClose k' op (some s)).lifecycle k) := by
  refine lifecycle_at k' (.of_eq hown ?_) ?_ k
  · rw [lifecycle_postClose hlive]
    · simp
    · rfl
  · intro k hk
    rw [lifecycle_postClose hlive]
    · simp [hk, hevent k hk]
    · rfl

/-- A CONNECT that was waiting is refused. -/
theorem lifecycle_refuse {middle : Broker π} {k' : Nat} {conn : ClientConn} (req : ConnectReq π)
    (hdeciding : ∀ k, (broker.lifecycle k).deciding
      = Multiset.ofList (willFrom k (k', req)).toList + (middle.lifecycle k).deciding)
    (hsame : ∀ k, broker.lifecycle k
      = { middle.lifecycle k with deciding := (broker.lifecycle k).deciding })
    (returnCode : ConnackReturnCode) (hcode : returnCode ≠ connectionAccepted) (k : Nat) :
    (broker.lifecycle k).Step
      ((middle.makeConnectRespond k' conn (.refused returnCode hcode)).lifecycle k) := by
  refine lifecycle_at k' ?_ ?_ k
  · have hwaiting : (broker.lifecycle k').deciding
        = req.will ::ₘ (middle.lifecycle k').deciding := by
      rw [hdeciding]
      simp [willFrom]
    apply Lifecycle.Step.of_eq (.refuse req.will hwaiting)
    rw [lifecycle_makeConnectRespond, hsame k']
    simp [ConnectMail.answerTo, ConnectResp.address]
  · intro k hk
    rw [lifecycle_makeConnectRespond, hsame k, hdeciding]
    simp [ConnectMail.answerTo, willFrom, hk.symm]

/-- A session that nobody holds is resumed. -/
theorem lifecycle_resume {k' s : Nat} {conn : ClientConn} {req : ConnectReq π}
    {requests : List (Request π)} {session : SessionRecord π}
    (hrequests : broker.requests = .connect k' req :: requests)
    (hunheld : Unheld broker.conns broker.mqttConnectResponses requests s) :
    (broker.lifecycle k).Step ((((broker.dequeue requests).tmqSessionResume s session k' req).accept
      k' conn req s true).lifecycle k) := by
  apply lifecycle_accept hrequests
  simp only [lifecycle, tmqSessionResume, setSession, record, List.foldl_append, List.foldl_cons,
    List.foldl_nil, Ledger.note, Lifecycle.mk.injEq, true_and]
  exact closingOn_unheld hunheld _

theorem lifecycle_change (hcoherent : broker.Coherent) (haccepted : Accepted broker.log broker.heap)
    (hchange : Change config broker label next) (k : Nat) :
    (broker.lifecycle k).Step (next.lifecycle k) := by
  cases hchange with
  | unchanged => exact .stutter
  | @accept k' connId n hnew =>
      refine lifecycle_at k' ?_ (fun k hk => by simp [lifecycle, setConn, hk]) k
      apply Lifecycle.Step.of_eq (@Lifecycle.Step.appear _ _
        ⟨connId, broker.nextIoContext, .connected, .noSession, .broker, false⟩ hnew rfl rfl)
      simp [lifecycle, setConn]
  | @closeIdle label k' conn hconn hopen hidle =>
      refine lifecycle_at k' ?_ (fun k hk => by simp [Ledger.note, hk, hk.symm]) k
      exact .of_eq (.closeIdle hconn hopen hidle) (by simp [Ledger.note])
  | @closeAttached label k' s conn draining hconn hopen hin hup =>
      obtain ⟨hlive, -⟩ := hcoherent.attached k' s ⟨conn, hconn, hin, hup⟩
      refine lifecycle_leave hlive (fun k hk _ => by simp [Ledger.note, hk.symm]) ?_ k
      exact .of_eq (.closeAttached draining hconn hopen hin hup) (by simp [Ledger.note])
  | @stop label k' conn hconn hidle hclosed =>
      refine lifecycle_at k' ?_ (fun k hk => by simp [hk]) k
      exact .of_eq (.stop hconn hidle) (by simp)
  | @connectPool k' req fails conn hconn hup hreadable =>
      refine lifecycle_at k' ?_ (fun k hk => ?_) k
      · apply Lifecycle.Step.of_eq (.connect req.will hconn hup hreadable)
        simp [lifecycle, setConn, record, Ledger.note, decidingOf_pool, willFrom]
      · simp [lifecycle, setConn, record, Ledger.note, decidingOf_pool, willFrom, hk, hk.symm]
  | @connectPost k' req fails conn hconn hup hreadable =>
      refine lifecycle_at k' ?_ (fun k hk => ?_) k
      · apply Lifecycle.Step.of_eq (.connect req.will hconn hup hreadable)
        simp [Ledger.note, Request.willFrom, willFrom, Request.closesOn]
      · simp [Ledger.note, Request.willFrom, willFrom, Request.closesOn, hk, hk.symm]
  | @connectRefuse k' req fails conn hconn hup hreadable =>
      refine lifecycle_at k' ?_ (fun k hk => by simp [Ledger.note, hk, hk.symm]) k
      apply Lifecycle.Step.of_eq (@Lifecycle.Step.connectRefuse _ _ _
        { conn with connState := .startingSession } req.will (broker.lifecycle k').ends hconn hup rfl)
      simp [Ledger.note]
  | @connectLose k' req fails conn hconn hup hopen =>
      refine lifecycle_at k' ?_ (fun k hk => by simp [Ledger.note, hk, hk.symm]) k
      apply Lifecycle.Step.of_eq (@Lifecycle.Step.connectRefuse _ _ _
        { conn with connState := .startingSession, state := .disconnected, draining := true }
        req.will ((broker.lifecycle k').ends ++ [.tcpClosed]) hconn hup rfl)
      simp [Ledger.note]
  | @disconnectIdle k' conn hconn hreadable hstarting hgate =>
      refine lifecycle_at k' ?_ (fun k hk => by simp [Ledger.note, hk, hk.symm]) k
      exact .of_eq (.disconnectIdle hconn hreadable hstarting hgate) (by simp [Ledger.note])
  | @disconnectAttached k' s conn hconn hreadable hin hup =>
      obtain ⟨hlive, -⟩ := hcoherent.attached k' s ⟨conn, hconn, hin, hup⟩
      refine lifecycle_leave hlive (fun k hk _ => by simp [Ledger.note, hk.symm]) ?_ k
      exact .of_eq (.disconnectAttached hconn hin hup) (by simp [Ledger.note])
  | subscribe hconn hgate hup hsession =>
      exact lifecycle_register hsession _ rfl fun _ => rfl
  | unsubscribe hconn hgate hup hsession =>
      exact lifecycle_register hsession _ rfl fun _ => rfl
  | validate hpool =>
      apply Lifecycle.Step.of_eq .stutter
      simp only [lifecycle, post, decidingOf_post, closingOn_post,
        decidingOf_eraseIdx hpool broker.requests]
      simp [Request.willFrom, Request.closesOn]
  | @invalidate i k' valid req conn hpool =>
      apply lifecycle_refuse req
      · intro k
        exact @decidingOf_eraseIdx _ _ k _ _ _ hpool broker.requests
      · exact fun _ => rfl
  | answerClose hmails _ hconn hclose => exact lifecycle_answerClose hcoherent hmails hconn hclose
  | @answerEnter ioContext k' s sessionPresent conn before after hmails htake hconn hconnected
      hpending =>
      refine lifecycle_at k' ?_ (fun k hk => ?_) k
      · apply Lifecycle.Step.of_eq
          (.answerEnter (answers_of_take hmails) hconn hconnected hpending)
        simp [lifecycle, setConn, record, Ledger.note]
      · simp [lifecycle, setConn, record, Ledger.note, hk, hk.symm, hmails, answersTo_take,
          ConnectMail.answerTo]
  | @answerRefuse ioContext k' returnCode hcode conn before after hmails hconn hconnected =>
      refine lifecycle_at k' ?_ (fun k hk => ?_) k
      · apply Lifecycle.Step.of_eq (.answerRefuse (answers_of_take hmails))
        simp [lifecycle, record, Ledger.note]
      · simp [lifecycle, record, Ledger.note, hk.symm, hmails, answersTo_take, ConnectMail.answerTo]
  | @reject run k' s req requests conn session hrequests =>
      refine lifecycle_refuse req (fun k => ?_) (fun k => ?_) _ _ k
      · exact (congrArg (decidingOf k broker.validations) hrequests).trans (decidingOf_dequeue ..)
      · simp [lifecycle, dequeue, hrequests, closingOn_dequeue, Request.closesOn]
  | startNew hrequests hconn habsent hfree =>
      rw [Coherent, hrequests] at hcoherent
      exact lifecycle_putNewSession hrequests rfl
        (hcoherent.dequeue.unheld_of_not_live (not_live_of_free hfree)) _ _
  | restart hrequests hconn hregistered hsession hclosed hclean horder hremoved hfree =>
      rw [Coherent, hrequests] at hcoherent
      apply lifecycle_putNewSession hrequests
      · apply lifecycle_cleanSession
        exact hsession
      · exact hcoherent.dequeue.unheld_of_not_live (not_live_of_free hfree)
  | resume hrequests hconn hregistered hsession hclosed =>
      rw [Coherent, hrequests] at hcoherent
      exact lifecycle_resume hrequests
        (hcoherent.dequeue.unheld_of_not_live (not_live_of_closed hsession hclosed))
  | closeKeep hrequests hsession hkeep hwill =>
      rw [lifecycle_keepSession]
      · exact lifecycle_close haccepted hrequests hsession hwill
      · exact hsession
  | closeClean hrequests hsession hclean hwill =>
      rw [lifecycle_cleanSession]
      · exact lifecycle_close haccepted hrequests hsession hwill
      · exact hsession
  | dropTopics hrequests htopic =>
      rcases htopic with ⟨pkt, rfl⟩ | ⟨pkt, rfl⟩
      · exact .of_eq .stutter (lifecycle_dequeue hrequests rfl rfl)
      · exact .of_eq .stutter (lifecycle_dequeue hrequests rfl rfl)
  | addTopics hrequests =>
      apply Lifecycle.Step.of_eq .stutter
      rw [← lifecycle_dequeue hrequests rfl rfl]
      simp only [lifecycle, List.foldl_append, foldl_note_shares]
      simp [dequeue, Ledger.note]
  | removeTopics hrequests =>
      apply Lifecycle.Step.of_eq .stutter
      rw [← lifecycle_dequeue hrequests rfl rfl]
      simp [lifecycle, dequeue, record, Ledger.note]
  | publish => exact .of_eq .stutter (by simp [lifecycle, queueTasks])
  | broadcast => exact .of_eq .stutter (by simp [lifecycle])

/-! ### Sessions remember where they were accepted -/

section Accepted

variable {log : List (BrokerEvent π)} {heap : Nat → Option (SessionRecord π)} {s : Nat}
  {session changed : SessionRecord π}

omit [TmqString π] in
theorem Accepted.append (h : Accepted log heap) (events : List (BrokerEvent π)) :
    Accepted (log ++ events) heap := by
  intro s session hsession
  exact List.mem_append_left events (h s session hsession)

omit [TmqString π] in
theorem Accepted.update (h : Accepted log heap)
    (hnew : .accepted changed.conn s changed.will ∈ log) :
    Accepted log (Function.update heap s (some changed)) := by
  intro s' found hfound
  rcases update_cases hfound with ⟨rfl, rfl⟩ | ⟨-, hbefore⟩
  · exact hnew
  · exact h s' found hbefore

omit [TmqString π] in
theorem Accepted.setFields (h : Accepted log heap) (hsession : heap s = some session)
    (hconn : changed.conn = session.conn) (hwill : changed.will = session.will) :
    Accepted log (Function.update heap s (some changed)) := by
  apply h.update
  rw [hconn, hwill]
  exact h s session hsession

end Accepted

theorem accepted_change (h : Accepted broker.log broker.heap)
    (hchange : Change config broker label next) : Accepted next.log next.heap := by
  cases hchange with
  | unchanged | accept | stop | dropTopics | reject | validate | invalidate => exact h
  | subscribe hconn hgate hup hsession => exact h.setFields hsession rfl rfl
  | unsubscribe hconn hgate hup hsession => exact h.setFields hsession rfl rfl
  | closeIdle | connectPool | connectPost | disconnectIdle | answerClose | answerRefuse
  | removeTopics | publish | broadcast => exact h.append _
  | closeAttached | connectRefuse | disconnectAttached | answerEnter | addTopics =>
      exact (h.append _).append _
  | connectLose => exact ((h.append _).append _).append _
  | startNew =>
      refine (h.append _ |>.append _ |>.append _).update ?_
      exact List.mem_append_right _ (List.mem_singleton.mpr rfl)
  | @restart run k s req requests conn session topics hrequests hconn hregistered hsession =>
      have hcleaned := @Accepted.setFields _ _ _ _ _
        { session with state := .closed, released := true } h hsession rfl rfl
      refine (hcleaned.append _ |>.append _ |>.append _ |>.append _).update ?_
      exact List.mem_append_right _ (List.mem_singleton.mpr rfl)
  | resume =>
      refine (h.append _ |>.append _).update ?_
      exact List.mem_append_right _ (List.mem_singleton.mpr rfl)
  | closeKeep hrequests hsession =>
      exact ((h.append _).append _ |>.append _).setFields hsession rfl rfl
  | closeClean hrequests hsession =>
      exact ((h.append _).append _ |>.append _).setFields hsession rfl rfl

/-! ### Whole runs -/

/-- Every connection lives by the protocol. -/
theorem lifecycle_runs {labels : List (Label π)}
    (hrun : Run.runs (step config) init labels = some broker) (k : Nat) :
    Relation.ReflTransGen Lifecycle.Step Lifecycle.init (broker.lifecycle k) := by
  have hinv : broker.Coherent ∧ Accepted broker.log broker.heap ∧
      Relation.ReflTransGen Lifecycle.Step Lifecycle.init (broker.lifecycle k) := by
    refine @Run.runs_maintains _ _ (step config) (fun state => state.Coherent ∧
      Accepted state.log state.heap ∧
      Relation.ReflTransGen Lifecycle.Step Lifecycle.init (state.lifecycle k)) ?_ _ _ _ ?_ hrun
    · rintro state label next ⟨hcoherent, haccepted, hlife⟩ hstep
      have hchange := step_change hstep
      exact ⟨coherent_change hcoherent hchange, accepted_change haccepted hchange,
        hlife.tail (lifecycle_change hcoherent haccepted hchange k)⟩
    · exact ⟨coherent_init, nofun, .refl⟩
  exact hinv.2.2

end Broker

end TinyMqtt
